import ArrayCalc.Proofs.Number.Shortest

namespace ArrayCalc.Number

/-- The number that a finite double is, without its sign. -/
def magnitude (mant : Nat) (exp : Int) : ℚ :=
  mant * 2 ^ exp

theorem magnitude_zero (exp : Int) : magnitude 0 exp = 0 := by
  rw [magnitude, Nat.cast_zero, zero_mul]

theorem magnitude_pos {mant : Nat} (h : 0 < mant) (exp : Int) : 0 < magnitude mant exp := by
  have hmant : (0 : ℚ) < mant := by exact_mod_cast h
  exact mul_pos hmant (zpow_pos two_pos _)

/-- What one power has and the opposite power lacks. -/
private theorem zpow_eq_div {b : ℚ} (hb : b ≠ 0) (k : Int) : b ^ k = b ^ k.toNat / b ^ (-k).toNat := by
  rw [eq_div_iff (pow_ne_zero _ hb), ← zpow_natCast, ← zpow_natCast, ← zpow_add₀ hb]
  congr 1
  omega

theorem fraction_div (mant : Nat) (exp : Int) :
    ((fraction mant exp).1 : ℚ) / (fraction mant exp).2 = magnitude mant exp := by
  rw [fraction, magnitude, zpow_eq_div two_ne_zero]
  push_cast
  rw [mul_div_assoc]

theorem fraction_pos (mant : Nat) (exp : Int) : 0 < (fraction mant exp).2 :=
  Nat.two_pow_pos _

theorem scaleTen_div (num den : Nat) (power : Int) :
    ((scaleTen num den power).1 : ℚ) / (scaleTen num den power).2 = num / den * 10 ^ power := by
  rw [scaleTen, zpow_eq_div (by norm_num)]
  push_cast
  rw [mul_div_mul_comm]

theorem scaleTen_pos {den : Nat} (h : 0 < den) (num : Nat) (power : Int) : 0 < (scaleTen num den power).2 :=
  Nat.mul_pos h (Nat.pow_pos (by omega))

theorem roundHalfUp_eq_floor {num den : Nat} (hden : 0 < den) : roundHalfUp num den = ⌊(num / den : ℚ) + 1 / 2⌋₊ := by
  have hsum : (num / den : ℚ) + 1 / 2 = (2 * num + den : Nat) / (2 * den : Nat) := by
    have hne : (den : ℚ) ≠ 0 := by exact_mod_cast Nat.ne_of_gt hden
    push_cast
    field_simp
  rw [hsum, Nat.floor_div_eq_div, roundHalfUp]

/-- A positive number lies between the powers of ten that its digits stand for. -/
theorem exists_digitCount_eq {n : Nat} (h : 0 < n) : ∃ k, digitCount n = k + 1 ∧ 10 ^ k ≤ n ∧ n < 10 ^ (k + 1) := by
  obtain ⟨hlt, hlead⟩ := digitCount_bounds n
  have hcount : digitCount n = digitCount n - 1 + 1 := (Nat.sub_add_cancel (digitCount_pos n)).symm
  refine ⟨digitCount n - 1, hcount, hlead h, ?_⟩
  rwa [← hcount]

/-- The powers of ten around a positive fraction. -/
theorem decimalOrder_bounds {num den : Nat} (hnum : 0 < num) (hden : 0 < den) :
    (10 : ℚ) ^ decimalOrder num den ≤ num / den ∧ (num / den : ℚ) < 10 ^ (decimalOrder num den + 1) := by
  have hnum' : (0 : ℚ) < num := by exact_mod_cast hnum
  have hden' : (0 : ℚ) < den := by exact_mod_cast hden
  rw [le_div_iff₀ hden', div_lt_iff₀ hden', decimalOrder]
  split
  · rename_i hle
    obtain ⟨k, hcount, hlow, hlt⟩ := exists_digitCount_eq (Nat.div_pos hle hden)
    rw [Nat.le_div_iff_mul_le hden] at hlow
    rw [Nat.div_lt_iff_lt_mul hden] at hlt
    have hexp : ((k + 1 : Nat) : Int) - 1 = (k : Nat) := by omega
    have hexp' : ((k + 1 : Nat) : Int) - 1 + 1 = (k + 1 : Nat) := by omega
    rw [hcount, hexp', hexp, zpow_natCast, zpow_natCast]
    exact ⟨by exact_mod_cast hlow, by exact_mod_cast hlt⟩
  · rename_i hlt
    obtain ⟨k, hcount, hlow, hupper⟩ := exists_digitCount_eq (Nat.div_pos (by omega : num ≤ den - 1) hnum)
    rw [Nat.le_div_iff_mul_le hnum] at hlow
    rw [Nat.div_lt_iff_lt_mul hnum] at hupper
    have hexp : -((k + 1 : Nat) : Int) + 1 = -(k : Nat) := by omega
    have hpow : (0 : ℚ) < 10 ^ k := by positivity
    have hpow' : (0 : ℚ) < 10 ^ (k + 1) := by positivity
    rw [hcount, hexp, zpow_neg, zpow_neg, zpow_natCast, zpow_natCast, inv_mul_le_iff₀ hpow', lt_inv_mul_iff₀ hpow]
    have hle : den ≤ 10 ^ (k + 1) * num := by omega
    have hless : 10 ^ k * num < den := by omega
    exact ⟨by exact_mod_cast hle, by exact_mod_cast hless⟩

namespace Decimal

/-- The number that a decimal stands for. -/
def value (d : Decimal) : ℚ :=
  d.coeff * 10 ^ d.exp

/-- A decimal with `p` digits, the first of them not zero. -/
def HasDigits (p : Nat) (d : Decimal) : Prop :=
  10 ^ (p - 1) ≤ d.coeff ∧ d.coeff < 10 ^ p

variable {p : Nat} {d d' : Decimal}

/-- A decimal whose last place is at or above another place is a multiple of the unit at that place. -/
theorem value_eq_mul {last : Int} (h : last ≤ d.exp) :
    d.value = (d.coeff * 10 ^ (d.exp - last).toNat : Nat) * 10 ^ last := by
  have hexp : d.exp = (d.exp - last).toNat + last := by omega
  have hpow : (10 : ℚ) ^ d.exp = 10 ^ (d.exp - last).toNat * 10 ^ last := by
    rw [← zpow_natCast, ← zpow_add₀ (by norm_num), ← hexp]
  push_cast
  rw [value, hpow, mul_assoc]

/-- A decimal with its last place below another one is smaller than all decimals with as many digits and their last
    place there. -/
theorem HasDigits.value_lt {last : Int} (h : d.HasDigits (p + 1)) (hlast : d.exp < last) : d.value < 10 ^ (last + p) := by
  have hcoeff : (d.coeff : ℚ) < 10 ^ (p + 1) := by exact_mod_cast h.2
  calc d.value < 10 ^ (p + 1) * 10 ^ d.exp := mul_lt_mul_of_pos_right hcoeff (zpow_pos (by norm_num) _)
    _ = 10 ^ (d.exp + 1 + p) := by
        rw [← zpow_natCast, ← zpow_add₀ (by norm_num)]
        congr 1
        push_cast
        ring
    _ ≤ 10 ^ (last + p) := zpow_le_zpow_right₀ (by norm_num) (by omega)

theorem HasDigits.digitCount_eq (h : d.HasDigits (p + 1)) : digitCount d.coeff = p + 1 := by
  obtain ⟨k, hcount, hlower, hupper⟩ := exists_digitCount_eq (lt_of_lt_of_le (Nat.pow_pos (by omega)) h.1)
  have hle := (Nat.pow_lt_pow_iff_right (by omega)).mp (lt_of_le_of_lt hlower h.2)
  have hge := (Nat.pow_lt_pow_iff_right (by omega)).mp (lt_of_le_of_lt h.1 hupper)
  omega

/-- Decimals with the same number of digits are told apart by their values. -/
theorem HasDigits.eq_of_value_eq (h : d.HasDigits (p + 1)) (h' : d'.HasDigits (p + 1)) (hvalue : d.value = d'.value) :
    d = d' := by
  have hle {a b : Decimal} (ha : a.HasDigits (p + 1)) (hb : b.HasDigits (p + 1)) (heq : a.value = b.value) :
      b.exp ≤ a.exp := by
    by_contra hlt
    have hless := ha.value_lt (Int.not_le.mp hlt)
    have hlead : (10 : ℚ) ^ p ≤ b.coeff := by exact_mod_cast hb.1
    have hlow : (10 : ℚ) ^ (b.exp + p) ≤ b.value := by
      rw [value, add_comm, zpow_add₀ (by norm_num), zpow_natCast]
      exact mul_le_mul_of_nonneg_right hlead (zpow_pos (by norm_num) _).le
    linarith
  have hexp : d.exp = d'.exp := Int.le_antisymm (hle h' h hvalue.symm) (hle h h' hvalue)
  have hcoeff : (d.coeff : ℚ) = d'.coeff := by
    rw [value, value, hexp] at hvalue
    exact mul_right_cancel₀ (zpow_ne_zero _ (by norm_num)) hvalue
  cases d
  cases d'
  cases hexp
  cases Nat.cast_injective hcoeff
  rfl

end Decimal

/-- A number rounded to `p` significant digits: no decimal with `p` digits is nearer to it, and none that is as near is
    larger. Zero is written with zeros, the first of them at the units. -/
inductive RoundsTo (p : Nat) : ℚ → Decimal → Prop where
  | zero : RoundsTo p 0 ⟨0, 1 - p⟩
  | nearest {x : ℚ} {d : Decimal} (hx : 0 < x) (hdigits : d.HasDigits p)
      (hnear : ∀ d' : Decimal, d'.HasDigits p → |x - d.value| ≤ |x - d'.value|)
      (htie : ∀ d' : Decimal, d'.HasDigits p → |x - d'.value| = |x - d.value| → d'.value ≤ d.value) : RoundsTo p x d

theorem RoundsTo.hasDigits {p : Nat} {x : ℚ} {d : Decimal} (h : RoundsTo p x d) (hx : 0 < x) : d.HasDigits p := by
  cases h with
  | zero => exact absurd hx (lt_irrefl 0)
  | nearest _ hdigits => exact hdigits

theorem RoundsTo.unique {p : Nat} {x : ℚ} {d d' : Decimal} (h : RoundsTo (p + 1) x d) (h' : RoundsTo (p + 1) x d') :
    d = d' := by
  cases h with
  | zero => cases h' with
    | zero => rfl
    | nearest hx => exact absurd hx (lt_irrefl 0)
  | nearest hx hdigits hnear htie => cases h' with
    | zero => exact absurd hx (lt_irrefl 0)
    | nearest _ hdigits' hnear' htie' =>
      have hsame : |x - d.value| = |x - d'.value| := le_antisymm (hnear d' hdigits') (hnear' d hdigits)
      exact hdigits.eq_of_value_eq hdigits' (le_antisymm (htie' d hdigits hsame) (htie d' hdigits' hsame.symm))

section

variable {x : ℚ} (hx : 0 ≤ x)

include hx

/-- A number lies within half a unit of the whole number that it is rounded to, and not above that half. -/
theorem floor_half_bounds : (⌊x + 1 / 2⌋₊ : ℚ) - 1 / 2 ≤ x ∧ x < ⌊x + 1 / 2⌋₊ + 1 / 2 := by
  have hle := Nat.floor_le (by linarith : 0 ≤ x + 1 / 2)
  have hlt := Nat.lt_floor_add_one (x + 1 / 2)
  constructor
  · linarith
  · linarith

/-- No whole number is nearer than the rounded one, and none that is as near is larger. -/
theorem abs_sub_floor_half_le (j : Nat) :
    |x - ⌊x + 1 / 2⌋₊| ≤ |x - j| ∧ (|x - j| = |x - ⌊x + 1 / 2⌋₊| → j ≤ ⌊x + 1 / 2⌋₊) := by
  obtain ⟨hlow, hhigh⟩ := floor_half_bounds hx
  generalize ⌊x + 1 / 2⌋₊ = n at *
  have hnear : |x - n| ≤ 1 / 2 := abs_le.mpr ⟨by linarith, by linarith⟩
  rcases Nat.lt_trichotomy j n with hless | rfl | hmore
  · have hstep : (j : ℚ) + 1 ≤ n := by exact_mod_cast hless
    refine ⟨hnear.trans ?_, fun _ => hless.le⟩
    rw [abs_of_nonneg (by linarith)]
    linarith
  · exact ⟨le_refl _, fun _ => le_refl _⟩
  · have hstep : (n : ℚ) + 1 ≤ j := by exact_mod_cast hmore
    have hfar : 1 / 2 < |x - j| := by
      rw [abs_of_nonpos (by linarith)]
      linarith
    exact ⟨hnear.trans hfar.le, fun htie => by linarith⟩

end

/-- A number between two powers of ten, rounded to whole units of the last of its digits, is rounded to that many
    significant digits. A carry into the next power of ten moves this unit up. -/
theorem roundsTo_of_floor {x : ℚ} {last : Int} {extra : Nat} {d : Decimal} (hlow : 10 ^ (last + extra) ≤ x)
    (hd : d.HasDigits (extra + 1)) (hvalue : d.value = ⌊x * 10 ^ (-last) + 1 / 2⌋₊ * 10 ^ last) :
    RoundsTo (extra + 1) x d := by
  have hunit : (0 : ℚ) < 10 ^ last := zpow_pos (by norm_num) _
  have hpos : 0 < x := lt_of_lt_of_le (zpow_pos (by norm_num) _) hlow
  have hscaled : 0 ≤ x * 10 ^ (-last) := (mul_pos hpos (zpow_pos (by norm_num) _)).le
  have hx : x = x * 10 ^ (-last) * 10 ^ last := by
    rw [mul_assoc, ← zpow_add₀ (by norm_num), neg_add_cancel, zpow_zero, mul_one]
  have hdistance (j : Nat) : |x - j * 10 ^ last| = |x * 10 ^ (-last) - j| * 10 ^ last := by
    rw [← abs_of_pos hunit, ← abs_mul, abs_of_pos hunit, sub_mul, ← hx]
  -- the decimals with a finer last place all lie below the smallest one with this last place, which lies below `x`
  have hfine {d' : Decimal} (hd' : d'.HasDigits (extra + 1)) (hlast : d'.exp < last) : |x - d.value| < |x - d'.value| := by
    have hless := hd'.value_lt hlast
    have hlead : (10 : ℚ) ^ (last + extra) = (10 ^ extra : Nat) * 10 ^ last := by
      push_cast
      rw [add_comm, zpow_add₀ (by norm_num), zpow_natCast]
    calc |x - d.value| ≤ |x - 10 ^ (last + extra)| := by
          rw [hvalue, hlead, hdistance, hdistance]
          exact mul_le_mul_of_nonneg_right (abs_sub_floor_half_le hscaled _).1 hunit.le
      _ = x - 10 ^ (last + extra) := abs_of_nonneg (by linarith)
      _ < x - d'.value := by linarith
      _ ≤ |x - d'.value| := le_abs_self _
  refine .nearest hpos hd (fun d' hd' => ?_) (fun d' hd' htie => ?_)
  · rcases Int.lt_or_le d'.exp last with hlast | hlast
    · exact (hfine hd' hlast).le
    · rw [hvalue, Decimal.value_eq_mul hlast, hdistance, hdistance]
      exact mul_le_mul_of_nonneg_right (abs_sub_floor_half_le hscaled _).1 hunit.le
  · rcases Int.lt_or_le d'.exp last with hlast | hlast
    · exact absurd htie (ne_of_gt (hfine hd' hlast))
    · rw [hvalue, Decimal.value_eq_mul hlast, hdistance, hdistance] at htie
      have hle := (abs_sub_floor_half_le hscaled _).2 (mul_right_cancel₀ hunit.ne' htie)
      rw [hvalue, Decimal.value_eq_mul hlast]
      exact mul_le_mul_of_nonneg_right (by exact_mod_cast hle) hunit.le

/-- A finite magnitude in whole units of a decimal place. -/
theorem roundPlaces_eq_floor (mant : Nat) (exp : Int) (places : Nat) :
    roundPlaces mant exp places = ⌊magnitude mant exp * 10 ^ places + 1 / 2⌋₊ := by
  have hround : roundPlaces mant exp places = roundHalfUp ((fraction mant exp).1 * 10 ^ places) (fraction mant exp).2 :=
    rfl
  rw [hround, roundHalfUp_eq_floor (fraction_pos mant exp)]
  push_cast
  rw [mul_div_right_comm, fraction_div]

/-- A positive magnitude is rounded to whole units of the last place that its leading digit leads to, with a carry into
    the next power of ten taken up. -/
theorem roundSignificant_eq {mant : Nat} (hmant : 0 < mant) (exp : Int) (extra : Nat) :
    ∃ (last : Int) (n : Nat), 10 ^ (last + extra) ≤ magnitude mant exp ∧ magnitude mant exp < 10 ^ (last + extra + 1) ∧
      n = ⌊magnitude mant exp * 10 ^ (-last) + 1 / 2⌋₊ ∧
      roundSignificant mant exp extra = if n = 10 ^ (extra + 1) then ⟨10 ^ extra, last + 1⟩ else ⟨n, last⟩ := by
  have hnum : 0 < (fraction mant exp).1 := Nat.mul_pos hmant (Nat.two_pow_pos _)
  have hden := fraction_pos mant exp
  obtain ⟨hlow, hhigh⟩ := decimalOrder_bounds hnum hden
  rw [fraction_div] at hlow hhigh
  refine ⟨decimalOrder (fraction mant exp).1 (fraction mant exp).2 - extra, _, ?_, ?_, rfl, ?_⟩
  · rwa [sub_add_cancel]
  · rwa [sub_add_cancel]
  · rw [roundSignificant, if_neg (Nat.ne_of_gt hmant), ← fraction_div, ← scaleTen_div,
      ← roundHalfUp_eq_floor (scaleTen_pos hden _ _)]

section

variable {x : ℚ} {last : Int} {extra : Nat} (hlow : 10 ^ (last + extra) ≤ x) (hhigh : x < 10 ^ (last + extra + 1))

include hlow hhigh

/-- A number between two powers of ten, in units of the last of its digits. -/
theorem scaled_bounds : 10 ^ extra ≤ x * 10 ^ (-last) ∧ x * 10 ^ (-last) < 10 ^ (extra + 1) := by
  have hunit : (0 : ℚ) < 10 ^ (-last) := zpow_pos (by norm_num) _
  have hscale (k : Nat) : (10 : ℚ) ^ k = 10 ^ (last + k) * 10 ^ (-last) := by
    rw [← zpow_natCast, ← zpow_add₀ (by norm_num)]
    congr 1
    ring
  rw [hscale, hscale]
  push_cast
  rw [← add_assoc]
  exact ⟨mul_le_mul_of_nonneg_right hlow hunit.le, mul_lt_mul_of_pos_right hhigh hunit⟩

/-- Rounding gives as many digits, or the next power of ten. -/
theorem floor_scaled_bounds :
    10 ^ extra ≤ ⌊x * 10 ^ (-last) + 1 / 2⌋₊ ∧ ⌊x * 10 ^ (-last) + 1 / 2⌋₊ ≤ 10 ^ (extra + 1) := by
  obtain ⟨hleast, hmost⟩ := scaled_bounds hlow hhigh
  have hnonneg : 0 ≤ x * 10 ^ (-last) := le_trans (by positivity) hleast
  constructor
  · apply Nat.le_floor
    push_cast
    linarith
  · apply Nat.le_of_lt_succ
    rw [Nat.floor_lt (by linarith)]
    push_cast
    linarith

/-- After a carry the number is a power of ten in units of the place before, too. -/
theorem floor_of_carry (hcarry : ⌊x * 10 ^ (-last) + 1 / 2⌋₊ = 10 ^ (extra + 1)) :
    ⌊x * 10 ^ (-(last + 1)) + 1 / 2⌋₊ = 10 ^ extra := by
  obtain ⟨hleast, hmost⟩ := scaled_bounds hlow hhigh
  have hnonneg : 0 ≤ x * 10 ^ (-last) := le_trans (by positivity) hleast
  have hhalf := (floor_half_bounds hnonneg).1
  have hunit : x * 10 ^ (-(last + 1)) = x * 10 ^ (-last) / 10 := by
    rw [neg_add, zpow_add₀ (by norm_num), zpow_neg_one, div_eq_mul_inv, mul_assoc]
  rw [hcarry, Nat.cast_pow, Nat.cast_ofNat, pow_succ] at hhalf
  rw [pow_succ] at hmost
  rw [hunit, Nat.floor_eq_iff (by linarith)]
  push_cast
  constructor
  · linarith
  · linarith

end

/-- Rounding keeps to the specification of significant digits. -/
theorem roundsTo_roundSignificant (mant : Nat) (exp : Int) (extra : Nat) :
    RoundsTo (extra + 1) (magnitude mant exp) (roundSignificant mant exp extra) := by
  rcases Nat.eq_zero_or_pos mant with rfl | hmant
  · have hexp : (-extra : Int) = 1 - (extra + 1 : Nat) := by omega
    rw [magnitude_zero, roundSignificant, if_pos rfl, hexp]
    exact .zero
  · obtain ⟨last, n, hlow, hhigh, hn, hround⟩ := roundSignificant_eq hmant exp extra
    obtain ⟨hleast, hmost⟩ := floor_scaled_bounds hlow hhigh
    rw [← hn] at hleast hmost
    rw [hround]
    split
    · rename_i hcarry
      refine roundsTo_of_floor hlow ⟨le_refl _, Nat.pow_lt_pow_right (by omega) (Nat.lt_succ_self _)⟩ ?_
      rw [← hn, hcarry, Decimal.value]
      push_cast
      rw [zpow_add_one₀ (by norm_num)]
      ring
    · rename_i hkeep
      refine roundsTo_of_floor hlow ⟨hleast, lt_of_le_of_ne hmost hkeep⟩ ?_
      rw [← hn]
      rfl

/-- The rounded decimal is the number in whole units of its own last place. -/
theorem floor_roundSignificant (mant : Nat) (exp : Int) (extra : Nat) :
    ⌊magnitude mant exp * 10 ^ (-(roundSignificant mant exp extra).exp) + 1 / 2⌋₊ =
      (roundSignificant mant exp extra).coeff := by
  rcases Nat.eq_zero_or_pos mant with rfl | hmant
  · rw [magnitude_zero, zero_mul, roundSignificant, if_pos rfl]
    norm_num
  · obtain ⟨last, n, hlow, hhigh, rfl, hround⟩ := roundSignificant_eq hmant exp extra
    rw [hround]
    split
    · rename_i hcarry
      exact floor_of_carry hlow hhigh hcarry
    · rfl

/-- Where the last significant digit is not before the point, rounding at its place gives the same digits. -/
theorem roundPlaces_eq_coeff {mant : Nat} {exp : Int} {extra places : Nat}
    (h : (roundSignificant mant exp extra).exp = -places) :
    roundPlaces mant exp places = (roundSignificant mant exp extra).coeff := by
  rw [roundPlaces_eq_floor, ← floor_roundSignificant, h, neg_neg, zpow_natCast]

end ArrayCalc.Number
