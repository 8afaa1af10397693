import ArrayCalc.Proofs.Number.Rounding
import ArrayCalc.Proofs.Number.Literal

namespace ArrayCalc.Number

theorem digitCount_mul_ten {n : Nat} (h : 0 < n) : digitCount (n * 10) = digitCount n + 1 := by
  rw [digitCount, digits_of_le (by omega), Nat.mul_div_cancel n (by omega), List.length_append, digitCount]
  rfl

/-- A number has as many digits as powers of ten fit below it, and one more. -/
theorem digitCount_bounds (n : Nat) : n < 10 ^ digitCount n ∧ (0 < n → 10 ^ (digitCount n - 1) ≤ n) := by
  induction n using digits.induct with
  | case1 n h =>
    rw [digitCount, digits_of_lt h]
    exact ⟨by simpa using h, fun hpos => by simpa using Nat.succ_le_of_lt hpos⟩
  | case2 n h ih =>
    have hcount : digitCount n = digitCount (n / 10) + 1 := by
      rw [digitCount, digits_of_le (by omega), List.length_append, digitCount]
      rfl
    have hrest := digitCount_pos (n / 10)
    obtain ⟨hlt, hle⟩ := ih
    refine ⟨?_, fun _ => ?_⟩
    · rw [hcount, Nat.pow_succ]
      omega
    · have hlead := hle (by omega)
      have hpow : 10 ^ digitCount (n / 10) = 10 ^ (digitCount (n / 10) - 1) * 10 := by
        rw [← Nat.pow_succ, Nat.succ_eq_add_one, Nat.sub_add_cancel hrest]
      rw [hcount, Nat.add_sub_cancel, hpow]
      omega

theorem length_digits_le (k : Nat) : (digits (10 ^ k)).length ≤ k + 1 := by
  have hcount := (digitCount_bounds (10 ^ k)).2 (Nat.pow_pos (by omega))
  have hexp := (Nat.pow_le_pow_iff_right (by omega)).mp hcount
  rw [digitCount] at hexp
  omega

namespace Decimal

/-- A zero can move from the coefficient to the exponent. -/
theorem order_shift {c : Nat} (hc : 0 < c) (e : Int) : order ⟨c * 10, e⟩ = order ⟨c, e + 1⟩ := by
  simp only [order, digitCount_mul_ten hc]
  omega

theorem nearestCode_shift (c : Nat) (e : Int) : nearestCode ⟨c * 10, e⟩ = nearestCode ⟨c, e + 1⟩ := by
  rcases Nat.eq_zero_or_pos c with rfl | hc
  · rw [nearestCode, nearestCode, if_pos (.inl rfl), if_pos (.inl rfl)]
  · have hzero : c * 10 = 0 ↔ c = 0 := by omega
    have hcode : Number.nearestCode (fraction ⟨c * 10, e⟩).1 (fraction ⟨c * 10, e⟩).2 =
        Number.nearestCode (fraction ⟨c, e + 1⟩).1 (fraction ⟨c, e + 1⟩).2 := by
      simp only [fraction, scaleTen, Nat.one_mul]
      rcases Int.lt_or_le e 0 with hneg | hpos
      · have hnum : c * 10 * 10 ^ e.toNat = 10 * (c * 10 ^ (e + 1).toNat) := by
          rw [show e.toNat = 0 by omega, show (e + 1).toNat = 0 by omega]
          omega
        have hden : 10 ^ (-e).toNat = 10 * 10 ^ (-(e + 1)).toNat := by
          rw [show (-e).toNat = (-(e + 1)).toNat + 1 by omega, Nat.pow_succ, Nat.mul_comm]
        rw [hnum, hden, nearestCode_mul (Nat.pow_pos (by omega)) 10 (by omega)]
      · have hnum : c * 10 * 10 ^ e.toNat = c * 10 ^ (e + 1).toNat := by
          rw [show (e + 1).toNat = e.toNat + 1 by omega, Nat.pow_succ, Nat.mul_assoc, Nat.mul_comm 10]
        rw [hnum, show (-e).toNat = 0 by omega, show (-(e + 1)).toNat = 0 by omega]
    simp only [nearestCode, order_shift hc, hzero, hcode]

theorem nearestCode_shift_pow (c k : Nat) (e : Int) : nearestCode ⟨c * 10 ^ k, e⟩ = nearestCode ⟨c, e + k⟩ := by
  induction k generalizing e with
  | zero => rw [Nat.pow_zero, Nat.mul_one, Int.natCast_zero, Int.add_zero]
  | succ k ih =>
    rw [Nat.pow_succ, ← Nat.mul_assoc, nearestCode_shift, ih]
    congr 2
    omega

theorem nearestCode_normalize (d : Decimal) : d.normalize.nearestCode = d.nearestCode := by
  induction d using normalize.induct with
  | case1 d h ih =>
    have hcoeff : d.coeff / 10 * 10 = d.coeff := by omega
    rw [normalize, if_pos h, ih, ← nearestCode_shift, hcoeff]
  | case2 d h => rw [normalize, if_neg h]

/-- Within the orders that are not decided beforehand a decimal is rounded as a fraction. -/
theorem nearestCode_of_order {d : Decimal} (hcoeff : 0 < d.coeff) (hlow : -400 ≤ d.order) (hhigh : d.order ≤ 400) :
    d.nearestCode = Number.nearestCode (d.coeff * 10 ^ d.exp.toNat) (10 ^ (-d.exp).toNat) := by
  rw [nearestCode, if_neg (by omega), if_neg (by omega), fraction, scaleTen, Nat.one_mul]

end Decimal

section

variable {code : Nat} (hpos : 0 < code) (hcode : code < infiniteCode)

include hpos in
theorem mantissa_pos : 0 < mantissa code := by
  rw [mantissa]
  split <;> omega

include hcode in
theorem lift_le : lift code ≤ 2045 := by
  rw [lift_eq]
  rw [infiniteCode] at hcode
  omega

theorem two_pow_le_ten_pow {a b : Nat} (h : a ≤ 3 * b) : 2 ^ a ≤ 10 ^ b := by
  calc 2 ^ a ≤ 2 ^ (3 * b) := Nat.pow_le_pow_right (by omega) h
    _ = (2 ^ 3) ^ b := Nat.pow_mul ..
    _ ≤ 10 ^ b := Nat.pow_le_pow_left (by omega) b

/-- A significand scaled up, times a power of five, has few digits more than that power has tens. -/
theorem order_exact {mant : Nat} (up down : Nat) (hpos : 0 < mant) (hmant : mant < 2 ^ 53) (hup : up ≤ 971)
    (hdown : down ≤ 1074) :
    (down : Int) - 400 < digitCount (mant * 2 ^ up * 5 ^ down) ∧
      (digitCount (mant * 2 ^ up * 5 ^ down) : Int) ≤ 401 + down := by
  obtain ⟨hlt, hle⟩ := digitCount_bounds (mant * 2 ^ up * 5 ^ down)
  have hfive : 10 ^ down = 2 ^ down * 5 ^ down := by rw [← Nat.mul_pow]
  have hlead : 0 < mant * 2 ^ up := Nat.mul_pos hpos (Nat.two_pow_pos _)
  refine ⟨?_, ?_⟩
  · obtain ⟨limit, hlimit⟩ : ∃ limit, limit = 400 := ⟨_, rfl⟩
    have hpow : 10 ^ down < 10 ^ (limit + digitCount (mant * 2 ^ up * 5 ^ down)) := by
      calc 10 ^ down ≤ 10 ^ limit * (1 * 5 ^ down) := by
            rw [hfive, Nat.one_mul]
            exact Nat.mul_le_mul_right _ (two_pow_le_ten_pow (by omega))
        _ ≤ 10 ^ limit * (mant * 2 ^ up * 5 ^ down) :=
            Nat.mul_le_mul_left _ (Nat.mul_le_mul_right _ hlead)
        _ < 10 ^ (limit + digitCount (mant * 2 ^ up * 5 ^ down)) := by
            rw [Nat.pow_add]
            exact Nat.mul_lt_mul_of_pos_left hlt (Nat.pow_pos (by omega))
    have hexp := (Nat.pow_lt_pow_iff_right (by omega)).mp hpow
    omega
  · obtain ⟨limit, hlimit⟩ : ∃ limit, limit = 401 := ⟨_, rfl⟩
    have hpow : 10 ^ (digitCount (mant * 2 ^ up * 5 ^ down) - 1) < 10 ^ (limit + down) := by
      calc 10 ^ (digitCount (mant * 2 ^ up * 5 ^ down) - 1) ≤ mant * 2 ^ up * 5 ^ down :=
            hle (Nat.mul_pos hlead (Nat.pow_pos (by omega)))
        _ < 2 ^ 53 * 2 ^ up * 5 ^ down :=
            Nat.mul_lt_mul_of_pos_right (Nat.mul_lt_mul_of_pos_right hmant (Nat.two_pow_pos _)) (Nat.pow_pos (by omega))
        _ ≤ 10 ^ limit * 10 ^ down := by
            rw [← Nat.pow_add]
            exact Nat.mul_le_mul (two_pow_le_ten_pow (by omega)) (Nat.pow_le_pow_left (by omega) _)
        _ = 10 ^ (limit + down) := (Nat.pow_add ..).symm
    have hexp := (Nat.pow_lt_pow_iff_right (by omega)).mp hpow
    omega

include hpos hcode

/-- A finite magnitude written out in full reads back as it. -/
theorem nearestCode_exactDecimal : (exactDecimal (mantissa code) (exponent code)).nearestCode = code := by
  have hlift := lift_le hcode
  have hexp := exponent_eq code
  have hmant := mantissa_pos hpos
  obtain ⟨hlow, hhigh⟩ := order_exact (exponent code).toNat (-exponent code).toNat hmant
    (mantissa_lt code) (by omega) (by omega)
  rw [Decimal.nearestCode_of_order]
  · simp only [exactDecimal]
    rw [show (min (exponent code) 0).toNat = 0 by omega, show (-min (exponent code) 0).toNat = (-exponent code).toNat by omega,
      Nat.pow_zero, Nat.mul_one]
    apply nearestCode_units (Nat.pow_pos (by omega)) hcode
    have hfive : 10 ^ (-exponent code).toNat = 2 ^ (-exponent code).toNat * 5 ^ (-exponent code).toNat := by
      rw [← Nat.mul_pow]
    have hscale := two_pow_exponent code
    rw [hfive, units]
    generalize unitsPerOne = one at hscale
    calc mantissa code * 2 ^ (exponent code).toNat * 5 ^ (-exponent code).toNat * one
        = mantissa code * (2 ^ (exponent code).toNat * one) * 5 ^ (-exponent code).toNat := by ac_rfl
      _ = mantissa code * 2 ^ lift code * (2 ^ (-exponent code).toNat * 5 ^ (-exponent code).toNat) := by
          rw [hscale]
          ac_rfl
  · exact Nat.mul_pos (Nat.mul_pos hmant (Nat.two_pow_pos _)) (Nat.pow_pos (by omega))
  · simp only [Decimal.order, exactDecimal]
    omega
  · simp only [Decimal.order, exactDecimal]
    omega

/-- The shortest decimal of a finite magnitude reads back as it. -/
theorem nearestCode_shortest : (shortest code).nearestCode = code := by
  rw [shortest, if_neg (Nat.ne_of_gt hpos)]
  split
  · rename_i d hd
    obtain ⟨extra, _, hfirst⟩ := List.exists_of_findSome?_eq_some hd
    have hmem := List.mem_of_mem_head? hfirst
    simp only [readingBack, List.mem_filter, decide_eq_true_eq] at hmem
    rw [Decimal.nearestCode_normalize, hmem.2]
  · rw [Decimal.nearestCode_normalize]
    exact nearestCode_exactDecimal hpos hcode

end

end ArrayCalc.Number
