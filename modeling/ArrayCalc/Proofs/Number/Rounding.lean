import ArrayCalc.Proofs.Number.Bits

namespace ArrayCalc.Number

/-- How many powers of two above the smallest one the significand of a code is scaled by. -/
def lift (code : Nat) : Nat :=
  (exponent code + 1074).toNat

/-- A finite magnitude in units of the smallest one, `2 ^ -1074`. -/
def units (code : Nat) : Nat :=
  mantissa code * 2 ^ lift code

/-- How many of these units make one. -/
def unitsPerOne : Nat := 2 ^ 1074

theorem unitsPerOne_eq {a b : Nat} (h : a + b = 1074) : unitsPerOne = 2 ^ a * 2 ^ b := by
  rw [← Nat.pow_add, h, unitsPerOne]

theorem unitsPerOne_pos : 0 < unitsPerOne := by
  have hpos {a b : Nat} (h : a + b = 1074) : 0 < unitsPerOne := by
    rw [unitsPerOne_eq h]
    exact Nat.mul_pos (Nat.two_pow_pos a) (Nat.two_pow_pos b)
  exact hpos (Nat.add_zero 1074)

theorem two_pow_eq {a b c : Nat} (hb : b = 1074) (hc : a + b = c) : 2 ^ c = 2 ^ a * unitsPerOne := by
  rw [← hc, Nat.pow_add, hb, unitsPerOne]

theorem lift_eq (code : Nat) : lift code = max 1 (code / 2 ^ 52) - 1 := by
  rw [lift, exponent]
  omega

theorem exponent_eq (code : Nat) : exponent code = (lift code : Int) - 1074 := by
  rw [lift_eq, exponent]
  omega

/-- A power of two as a fraction and in units: the two scales agree. -/
theorem two_pow_scale {exp : Int} (h : -1074 ≤ exp) :
    2 ^ exp.toNat * unitsPerOne = 2 ^ (exp + 1074).toNat * 2 ^ (-exp).toNat := by
  rcases Int.lt_or_le exp 0 with hlow | hhigh
  · rw [show exp.toNat = 0 by omega, Nat.pow_zero, Nat.one_mul]
    exact unitsPerOne_eq (by omega)
  · rw [show (-exp).toNat = 0 by omega, Nat.pow_zero, Nat.mul_one]
    exact (two_pow_eq rfl (by omega)).symm

theorem two_pow_exponent (code : Nat) :
    2 ^ (exponent code).toNat * unitsPerOne = 2 ^ lift code * 2 ^ (-exponent code).toNat := by
  have hexp := exponent_eq code
  exact two_pow_scale (by omega)

theorem lift_add_mantissa (code : Nat) : lift code * 2 ^ 52 + mantissa code = code :=
  code_eq code

theorem mantissa_lt (code : Nat) : mantissa code < 2 ^ 53 := by
  rw [mantissa]
  split <;> omega

/-- Above the smallest power of two a significand has its leading bit. -/
theorem lift_eq_zero_or (code : Nat) : lift code = 0 ∨ 2 ^ 52 ≤ mantissa code := by
  rw [lift_eq, mantissa]
  split <;> omega

/-- A significand that reaches the next power of two stands there. -/
theorem units_add {k m : Nat} (hm : m ≤ 2 ^ 53) (hk : k = 0 ∨ 2 ^ 52 ≤ m) : units (k * 2 ^ 52 + m) = m * 2 ^ k := by
  by_cases htop : m = 2 ^ 53
  · have hlift : lift (k * 2 ^ 52 + m) = k + 1 := by
      rw [lift_eq]
      omega
    have hmant : mantissa (k * 2 ^ 52 + m) = 2 ^ 52 := by
      rw [mantissa]
      split <;> omega
    rw [units, hlift, hmant, htop, Nat.pow_succ]
    omega
  · have hlift : lift (k * 2 ^ 52 + m) = k := by
      rw [lift_eq]
      omega
    have hmant : mantissa (k * 2 ^ 52 + m) = m := by
      rw [mantissa]
      split <;> omega
    rw [units, hlift, hmant]

theorem units_zero : units 0 = 0 := rfl

/-- A magnitude with at most 53 significant bits is that of a double, far enough from both ends of the range. -/
theorem exists_units {m k : Nat} (hm : m < 2 ^ 53) (hlow : 52 ≤ k) (hhigh : k ≤ 2045) :
    ∃ code, code < infiniteCode ∧ units code = m * 2 ^ k := by
  rcases Nat.eq_zero_or_pos m with rfl | hpos
  · exact ⟨0, by decide, by simp [units_zero]⟩
  · have hlog : m.log2 ≤ 52 := Nat.le_of_lt_succ ((Nat.log2_lt (by omega)).mpr hm)
    have hlower : 2 ^ m.log2 ≤ m := Nat.log2_self_le (by omega)
    have hupper : m < 2 ^ (m.log2 + 1) := Nat.lt_log2_self
    have hsplit : 2 ^ 52 = 2 ^ m.log2 * 2 ^ (52 - m.log2) := by rw [← Nat.pow_add]; congr 1; omega
    have hsplit' : 2 ^ 53 = 2 ^ (m.log2 + 1) * 2 ^ (52 - m.log2) := by rw [← Nat.pow_add]; congr 1; omega
    have hlead : 2 ^ 52 ≤ m * 2 ^ (52 - m.log2) := by
      rw [hsplit]
      exact Nat.mul_le_mul_right _ hlower
    have hbound : m * 2 ^ (52 - m.log2) < 2 ^ 53 := by
      rw [hsplit']
      exact Nat.mul_lt_mul_of_pos_right hupper (Nat.two_pow_pos _)
    refine ⟨(k - (52 - m.log2)) * 2 ^ 52 + m * 2 ^ (52 - m.log2), ?_, ?_⟩
    · rw [infiniteCode]
      have hk : k - (52 - m.log2) ≤ 2045 := by omega
      omega
    · rw [units_add (Nat.le_of_lt hbound) (.inr hlead), Nat.mul_assoc, ← Nat.pow_add]
      congr 2
      omega

/-- The parity of a code is that of its significand. -/
theorem mantissa_mod_two (code : Nat) : mantissa code % 2 = code % 2 := by
  rw [mantissa]
  split <;> omega

theorem units_succ (code : Nat) : units (code + 1) = units code + 2 ^ lift code := by
  have hlt := mantissa_lt code
  have hcode := lift_add_mantissa code
  have hlead : lift code = 0 ∨ 2 ^ 52 ≤ mantissa code + 1 :=
    (lift_eq_zero_or code).imp_right Nat.le_succ_of_le
  have hnext := units_add (k := lift code) (m := mantissa code + 1) (by omega) hlead
  rw [show code + 1 = lift code * 2 ^ 52 + (mantissa code + 1) by omega, hnext, Nat.succ_mul]
  rfl

theorem units_lt_units {code code' : Nat} (h : code < code') : units code < units code' := by
  obtain ⟨further, rfl⟩ := Nat.exists_eq_add_of_lt h
  induction further with
  | zero =>
    rw [Nat.add_zero, units_succ]
    exact Nat.lt_add_of_pos_right (Nat.two_pow_pos _)
  | succ further ih =>
    rw [← Nat.add_assoc, units_succ]
    exact Nat.lt_add_right _ (ih (by omega))

theorem units_inj {code code' : Nat} (h : units code = units code') : code = code' := by
  rcases Nat.lt_trichotomy code code' with hlt | heq | hgt
  · have := units_lt_units hlt
    omega
  · exact heq
  · have := units_lt_units hgt
    omega

/-- How far apart two numbers are. -/
def distance (a b : Nat) : Nat :=
  a - b + (b - a)

theorem roundHalfEven_cases (num den : Nat) :
    (roundHalfEven num den = num / den ∧ 2 * (num % den) ≤ den) ∨
      (roundHalfEven num den = num / den + 1 ∧ den ≤ 2 * (num % den)) := by
  unfold roundHalfEven
  dsimp only
  split
  · exact .inl ⟨rfl, by omega⟩
  · split
    · exact .inr ⟨rfl, by omega⟩
    · rcases Nat.mod_two_eq_zero_or_one (num / den) with h | h
      · exact .inl ⟨by omega, by omega⟩
      · exact .inr ⟨by omega, by omega⟩

/-- Only halfway between two whole numbers is the other one as near, and then the rounded one is even. -/
theorem roundHalfEven_of_halfway {num den : Nat} (h : 2 * (num % den) = den) : roundHalfEven num den % 2 = 0 := by
  unfold roundHalfEven
  dsimp only
  rw [if_neg (by omega), if_neg (by omega)]
  omega

theorem roundHalfEven_self {den : Nat} (hden : 0 < den) (n : Nat) : roundHalfEven (den * n) den = n := by
  simp [roundHalfEven, Nat.mul_div_cancel_left n hden, hden]

theorem roundHalfEven_zero {den : Nat} (hden : 0 < den) : roundHalfEven 0 den = 0 := by
  simpa using roundHalfEven_self hden 0

theorem roundHalfEven_mul {num den : Nat} (c : Nat) (hc : 0 < c) :
    roundHalfEven (c * num) (c * den) = roundHalfEven num den := by
  have hless (a b : Nat) : 2 * (c * a) < c * b ↔ 2 * a < b := by
    rw [Nat.mul_left_comm]
    exact Nat.mul_lt_mul_left hc
  have hmore (a b : Nat) : c * b < 2 * (c * a) ↔ b < 2 * a := by
    rw [Nat.mul_left_comm]
    exact Nat.mul_lt_mul_left hc
  simp only [roundHalfEven, Nat.mul_div_mul_left _ _ hc, Nat.mul_mod_mul_left, hless, hmore]

section

variable {den : Nat} (hden : 0 < den)

include hden

/-- No multiple of `den` is nearer than the rounded one. -/
theorem distance_roundHalfEven_le (num j : Nat) :
    distance num (roundHalfEven num den * den) ≤ distance num (j * den) := by
  have hdiv : num / den * den + num % den = num := Nat.div_add_mod' num den
  have hrest := Nat.mod_lt num hden
  have hside : j * den ≤ num / den * den ∨ num / den * den + den ≤ j * den := by
    rcases Nat.lt_or_ge (num / den) j with h | h
    · right
      have hstep := Nat.mul_le_mul_right den h
      rwa [Nat.succ_mul] at hstep
    · exact .inl (Nat.mul_le_mul_right den h)
  simp only [distance]
  rcases roundHalfEven_cases num den with ⟨hround, hhalf⟩ | ⟨hround, hhalf⟩
  · rw [hround]
    omega
  · rw [hround, Nat.succ_mul]
    omega

/-- Another multiple is as near only halfway between two of them, and then the even one is taken. -/
theorem even_of_distance_eq {num j : Nat} (hj : j ≠ roundHalfEven num den)
    (heq : distance num (roundHalfEven num den * den) = distance num (j * den)) :
    roundHalfEven num den % 2 = 0 := by
  have hdiv : num / den * den + num % den = num := Nat.div_add_mod' num den
  have hrest := Nat.mod_lt num hden
  have hside : j * den + den ≤ num / den * den ∨ j = num / den ∨ j = num / den + 1 ∨
      num / den * den + den + den ≤ j * den := by
    rcases Nat.lt_or_ge j (num / den) with h | h
    · left
      have hstep := Nat.mul_le_mul_right den h
      rwa [Nat.succ_mul] at hstep
    · rcases Nat.lt_or_ge (num / den + 1) j with h' | h'
      · right; right; right
        have hstep := Nat.mul_le_mul_right den h'
        rwa [Nat.succ_mul, Nat.succ_mul] at hstep
      · omega
  apply roundHalfEven_of_halfway
  simp only [distance] at heq
  rcases roundHalfEven_cases num den with ⟨hround, hhalf⟩ | ⟨hround, hhalf⟩
  · rw [hround] at heq hj
    rcases hside with h | h | h | h
    · omega
    · omega
    · rw [h, Nat.succ_mul] at heq
      omega
    · omega
  · rw [hround, Nat.succ_mul] at heq
    rw [hround] at hj
    rcases hside with h | h | h | h
    · omega
    · rw [h] at heq
      omega
    · omega
    · omega

end

/-- The scale at which a fraction, here of the smallest magnitude, has a significand of full length, or the
    smallest scale for what lies below. -/
def IsLift (num den k : Nat) : Prop :=
  num < den * 2 ^ (k + 53) ∧ (k = 0 ∨ den * 2 ^ (k + 52) ≤ num)

theorem IsLift.unique {num den k k' : Nat} (h : IsLift num den k) (h' : IsLift num den k') : k = k' := by
  have hle {a b : Nat} (ha : IsLift num den a) (hb : IsLift num den b) : a ≤ b := by
    rcases ha.2 with hzero | hlead
    · omega
    · have hpow := Nat.lt_of_mul_lt_mul_left (Nat.lt_of_le_of_lt hlead hb.1)
      have hexp := (Nat.pow_lt_pow_iff_right (by omega)).mp hpow
      omega
  exact Nat.le_antisymm (hle h h') (hle h' h)

theorem isLift_units {num den code : Nat} (hden : 0 < den) (h : num = units code * den) :
    IsLift num den (lift code) := by
  have hlt := mantissa_lt code
  rw [units, Nat.mul_comm] at h
  rw [IsLift, h]
  refine ⟨?_, (lift_eq_zero_or code).imp_right fun hlead => ?_⟩
  · rw [Nat.add_comm, Nat.pow_add]
    exact Nat.mul_lt_mul_of_pos_left (Nat.mul_lt_mul_of_pos_right hlt (Nat.two_pow_pos _)) hden
  · rw [Nat.add_comm, Nat.pow_add]
    exact Nat.mul_le_mul_left den (Nat.mul_le_mul_right _ hlead)

/-- The order of a fraction at or above one. -/
private theorem order_of_le {num den : Nat} (hden : 0 < den) (h : den ≤ num) :
    den * 2 ^ (num / den).log2 ≤ num ∧ num < den * 2 ^ ((num / den).log2 + 1) := by
  have hpos : num / den ≠ 0 := Nat.ne_of_gt (Nat.div_pos h hden)
  refine ⟨?_, ?_⟩
  · rw [Nat.mul_comm]
    exact (Nat.le_div_iff_mul_le hden).mp (Nat.log2_self_le hpos)
  · rw [Nat.mul_comm]
    exact (Nat.div_lt_iff_lt_mul hden).mp Nat.lt_log2_self

/-- The order of a fraction below one. -/
private theorem order_of_lt {num den : Nat} (hnum : 0 < num) (h : num < den) :
    num * 2 ^ ((den - 1) / num).log2 < den ∧ den ≤ num * 2 ^ (((den - 1) / num).log2 + 1) := by
  have hpos : (den - 1) / num ≠ 0 := Nat.ne_of_gt (Nat.div_pos (by omega) hnum)
  refine ⟨?_, ?_⟩
  · have hle := (Nat.le_div_iff_mul_le hnum).mp (Nat.log2_self_le hpos)
    rw [Nat.mul_comm]
    omega
  · have hlt := (Nat.div_lt_iff_lt_mul hnum).mp (Nat.lt_log2_self (n := (den - 1) / num))
    rw [Nat.mul_comm]
    omega

theorem isLift_binaryOrder {num den : Nat} (hnum : 0 < num) (hden : 0 < den) :
    IsLift (num * unitsPerOne) den (max (binaryOrder num den - 52) (-1074) + 1074).toNat := by
  unfold binaryOrder
  split
  · rename_i hle
    obtain ⟨hlower, hupper⟩ := order_of_le hden hle
    generalize (num / den).log2 = order at *
    have hlift : (max ((order : Int) - 52) (-1074) + 1074).toNat = order + 1022 := by omega
    rw [hlift]
    refine ⟨?_, .inr ?_⟩
    · rw [two_pow_eq (a := order + 1) rfl (by omega), ← Nat.mul_assoc]
      exact Nat.mul_lt_mul_of_pos_right hupper unitsPerOne_pos
    · rw [two_pow_eq (a := order) rfl (by omega), ← Nat.mul_assoc]
      exact Nat.mul_le_mul_right _ hlower
  · rename_i hlt
    obtain ⟨hlower, hupper⟩ := order_of_lt hnum (Nat.lt_of_not_le hlt)
    generalize ((den - 1) / num).log2 = order at *
    rcases Nat.lt_or_ge 1021 order with hsmall | hnormal
    · have hlift : (max (-((order : Int) + 1) - 52) (-1074) + 1074).toNat = 0 := by omega
      rw [hlift]
      refine ⟨?_, .inl rfl⟩
      obtain ⟨least, hleast⟩ : ∃ least, least + 53 = 1074 := ⟨1021, rfl⟩
      rw [unitsPerOne_eq hleast, ← Nat.mul_assoc, Nat.zero_add]
      refine Nat.mul_lt_mul_of_pos_right (Nat.lt_of_le_of_lt ?_ hlower) (Nat.two_pow_pos _)
      exact Nat.mul_le_mul_left num (Nat.pow_le_pow_right (by omega) (by omega))
    · have hlift : (max (-((order : Int) + 1) - 52) (-1074) + 1074).toNat = 1021 - order := by omega
      rw [hlift]
      refine ⟨?_, .inr ?_⟩
      · rw [show 1021 - order + 53 = 1074 - order by omega]
        calc num * unitsPerOne = num * 2 ^ order * 2 ^ (1074 - order) := by
              rw [Nat.mul_assoc, ← unitsPerOne_eq (by omega)]
          _ < den * 2 ^ (1074 - order) := Nat.mul_lt_mul_of_pos_right hlower (Nat.two_pow_pos _)
      · calc den * 2 ^ (1021 - order + 52) ≤ num * 2 ^ (order + 1) * 2 ^ (1021 - order + 52) :=
              Nat.mul_le_mul_right _ hupper
          _ = num * unitsPerOne := by
              rw [Nat.mul_assoc, ← unitsPerOne_eq (by omega)]

theorem exists_isLift (num : Nat) {den : Nat} (hden : 0 < den) : ∃ k, IsLift (num * unitsPerOne) den k := by
  rcases Nat.eq_zero_or_pos num with hzero | hnum
  · refine ⟨0, ?_, .inl rfl⟩
    rw [hzero, Nat.zero_mul]
    exact Nat.mul_pos hden (Nat.two_pow_pos _)
  · exact ⟨_, isLift_binaryOrder hnum hden⟩

/-- The code nearest to a fraction, from its scale: the rounded significand stands at that scale. -/
theorem nearestCode_eq {num den k : Nat} (hden : 0 < den) (hk : IsLift (num * unitsPerOne) den k) :
    nearestCode num den = min infiniteCode (k * 2 ^ 52 + roundHalfEven (num * unitsPerOne) (den * 2 ^ k)) := by
  unfold nearestCode
  split
  · rename_i hzero
    rw [hzero, Nat.zero_mul] at hk ⊢
    have hk0 : k = 0 := hk.2.resolve_right fun hlead => by
      have hpos : 0 < den * 2 ^ (k + 52) := Nat.mul_pos hden (Nat.two_pow_pos _)
      omega
    rw [hk0, roundHalfEven_zero (Nat.mul_pos hden (Nat.two_pow_pos _))]
    rfl
  · rename_i hnum
    have hlift := hk.unique (isLift_binaryOrder (Nat.pos_of_ne_zero hnum) hden)
    have hleast : -1074 ≤ max (binaryOrder num den - 52) (-1074) := Int.le_max_right ..
    dsimp only
    generalize max (binaryOrder num den - 52) (-1074) = exp at *
    -- both sides are the same fraction: what the exponent takes from one of them it gives to the other
    have hnumScale : 2 ^ min k 1074 * (num * 2 ^ (-exp).toNat) = num * unitsPerOne := by
      rw [Nat.mul_left_comm, ← unitsPerOne_eq (by omega)]
    have hdenScale : 2 ^ min k 1074 * (den * 2 ^ exp.toNat) = den * 2 ^ k := by
      rw [Nat.mul_left_comm, ← Nat.pow_add, show min k 1074 + exp.toNat = k by omega]
    rw [← hlift, ← roundHalfEven_mul (2 ^ min k 1074) (Nat.two_pow_pos _), hnumScale, hdenScale]

/-- A rounded significand is at most one power of two up, and has its leading bit unless the scale is the
    smallest. -/
theorem roundHalfEven_bounds {num den k : Nat} (hden : 0 < den) (hk : IsLift num den k) :
    roundHalfEven num (den * 2 ^ k) ≤ 2 ^ 53 ∧ (k = 0 ∨ 2 ^ 52 ≤ roundHalfEven num (den * 2 ^ k)) := by
  have hstep : 0 < den * 2 ^ k := Nat.mul_pos hden (Nat.two_pow_pos _)
  have hupper : num / (den * 2 ^ k) < 2 ^ 53 := by
    rw [Nat.div_lt_iff_lt_mul hstep, Nat.mul_left_comm, ← Nat.pow_add, Nat.add_comm]
    exact hk.1
  have hlower : k = 0 ∨ 2 ^ 52 ≤ num / (den * 2 ^ k) := hk.2.imp_right fun hlead => by
    rw [Nat.le_div_iff_mul_le hstep, Nat.mul_left_comm, ← Nat.pow_add, Nat.add_comm]
    exact hlead
  rcases roundHalfEven_cases num (den * 2 ^ k) with ⟨hround, _⟩ | ⟨hround, _⟩
  · rw [hround]
    omega
  · rw [hround]
    omega

/-- The nearest code depends on the fraction alone. -/
theorem nearestCode_mul {num den : Nat} (hden : 0 < den) (c : Nat) (hc : 0 < c) :
    nearestCode (c * num) (c * den) = nearestCode num den := by
  obtain ⟨k, hk⟩ := exists_isLift num hden
  have hscaled : IsLift (c * num * unitsPerOne) (c * den) k := by
    rw [IsLift, Nat.mul_assoc, Nat.mul_assoc, Nat.mul_assoc, Nat.mul_lt_mul_left hc, Nat.mul_le_mul_left_iff hc]
    exact hk
  rw [nearestCode_eq hden hk, nearestCode_eq (Nat.mul_pos hc hden) hscaled, Nat.mul_assoc, Nat.mul_assoc,
    roundHalfEven_mul c hc]

/-- A finite magnitude is nearest to itself, as whatever fraction it is written. -/
theorem nearestCode_units {num den code : Nat} (hden : 0 < den) (hcode : code < infiniteCode)
    (h : num * unitsPerOne = units code * den) : nearestCode num den = code := by
  have hround : roundHalfEven (num * unitsPerOne) (den * 2 ^ lift code) = mantissa code := by
    rw [h, units, Nat.mul_assoc, Nat.mul_comm (2 ^ lift code), Nat.mul_comm]
    exact roundHalfEven_self (Nat.mul_pos hden (Nat.two_pow_pos _)) _
  rw [nearestCode_eq hden (isLift_units hden h), hround, lift_add_mantissa]
  exact Nat.min_eq_right (Nat.le_of_lt hcode)

/-- No finite magnitude is nearer to a fraction than the nearest code, unless that is past all of them. -/
theorem distance_nearestCode_le {num den : Nat} (hden : 0 < den) (hfinite : nearestCode num den < infiniteCode)
    (code : Nat) :
    distance (num * unitsPerOne) (units (nearestCode num den) * den) ≤ distance (num * unitsPerOne) (units code * den) ∧
      (code ≠ nearestCode num den →
        distance (num * unitsPerOne) (units (nearestCode num den) * den) =
          distance (num * unitsPerOne) (units code * den) →
        mantissa (nearestCode num den) % 2 = 0) := by
  obtain ⟨k, hk⟩ := exists_isLift num hden
  have hcode := nearestCode_eq hden hk
  have hstep : 0 < den * 2 ^ k := Nat.mul_pos hden (Nat.two_pow_pos _)
  have hround := roundHalfEven_bounds hden hk
  generalize hrounded : roundHalfEven (num * unitsPerOne) (den * 2 ^ k) = m at *
  have hplain : nearestCode num den = k * 2 ^ 52 + m := by omega
  have hunits : units (nearestCode num den) * den = m * (den * 2 ^ k) := by
    rw [hplain, units_add hround.1 hround.2, Nat.mul_assoc, Nat.mul_comm (2 ^ k)]
  have heven (hm : m % 2 = 0) : mantissa (nearestCode num den) % 2 = 0 := by
    rw [mantissa_mod_two, hplain]
    omega
  rw [hunits]
  rcases Nat.lt_or_ge (lift code) k with hlow | hhigh
  · -- a code of a smaller scale lies below the range of significands that the fraction is in
    have hlead : den * 2 ^ (k + 52) ≤ num * unitsPerOne := hk.2.resolve_left (by omega)
    have hless : units code * den < 2 ^ 52 * (den * 2 ^ k) := by
      have hpow : units code < 2 ^ (k + 52) := by
        calc units code < 2 ^ 53 * 2 ^ lift code :=
              Nat.mul_lt_mul_of_pos_right (mantissa_lt code) (Nat.two_pow_pos _)
          _ ≤ 2 ^ (k + 52) := by
              rw [← Nat.pow_add]
              exact Nat.pow_le_pow_right (by omega) (by omega)
      calc units code * den < 2 ^ (k + 52) * den := Nat.mul_lt_mul_of_pos_right hpow hden
        _ = 2 ^ 52 * (den * 2 ^ k) := by rw [Nat.add_comm, Nat.pow_add, Nat.mul_assoc, Nat.mul_comm den]
    have hnearest := distance_roundHalfEven_le hstep (num * unitsPerOne) (2 ^ 52)
    rw [hrounded] at hnearest
    rw [Nat.add_comm k, Nat.pow_add, Nat.mul_left_comm] at hlead
    simp only [distance] at hnearest ⊢
    omega
  · -- any other code is a multiple of the step that the fraction was rounded to
    obtain ⟨j, hj⟩ : ∃ j, units code * den = j * (den * 2 ^ k) := by
      refine ⟨mantissa code * 2 ^ (lift code - k), ?_⟩
      have hlift : 2 ^ lift code = 2 ^ (lift code - k) * 2 ^ k := by
        rw [← Nat.pow_add, Nat.sub_add_cancel hhigh]
      rw [units, hlift]
      ac_rfl
    rw [hj]
    refine ⟨?_, fun hne heq => heven ?_⟩
    · rw [← hrounded]
      exact distance_roundHalfEven_le hstep _ j
    · rw [← hrounded] at heq ⊢
      refine even_of_distance_eq hstep (fun hsame => hne ?_) heq
      rw [hrounded] at hsame
      rw [hsame, ← hunits] at hj
      exact units_inj (Nat.eq_of_mul_eq_mul_right hden hj)

/-- A finite double in units of the smallest magnitude. -/
def units? (x : Float) : Option Int :=
  match read x with
  | .finite negative mant exp =>
    let count : Int := (mant * 2 ^ (exp + 1074).toNat : Nat)
    some (if negative then -count else count)
  | _ => none

/-- No finite double is nearer to a whole number than this one, and if another one is as near, then this
    one has the even significand. -/
def IsNearest (n : Int) (x : Float) : Prop :=
  ∃ u, units? x = some u ∧ ∀ y v, units? y = some v →
    (n * unitsPerOne - u).natAbs ≤ (n * unitsPerOne - v).natAbs ∧
      (v ≠ u → (n * unitsPerOne - u).natAbs = (n * unitsPerOne - v).natAbs →
        mantissa (magnitudeCode x) % 2 = 0)

theorem units?_ofCode {code : Nat} (h : code < infiniteCode) (negative : Bool) :
    units? (ofCode negative code) = some (if negative then -(units code : Int) else units code) := by
  rw [units?, read_ofCode h]
  rfl

theorem ofCode_of_units? {x : Float} {u : Int} (h : units? x = some u) :
    ∃ negative code, x = ofCode negative code ∧ u = if negative then -(units code : Int) else units code := by
  rw [units?] at h
  split at h
  · rename_i negative mant exp hread
    obtain ⟨code, _, rfl, rfl, rfl⟩ := ofCode_of_read hread
    exact ⟨negative, code, rfl, (Option.some.inj h).symm⟩
  · cases h

section

variable (a b : Nat)

private theorem natAbs_sub : ((a : Int) - b).natAbs = distance a b := by
  rw [distance]
  omega

private theorem natAbs_neg_sub_neg : (-(a : Int) - -(b : Int)).natAbs = distance a b := by
  rw [distance]
  omega

private theorem natAbs_sub_neg : ((a : Int) - -(b : Int)).natAbs = a + b := by
  omega

private theorem natAbs_neg_sub : (-(a : Int) - b).natAbs = a + b := by
  omega

private theorem distance_zero : distance a 0 = a := by
  rw [distance]
  omega

end

/-- The nearest code with a sign is nearest among the doubles of both signs. -/
theorem isNearest_ofCode {n : Nat} (hfinite : nearestCode n 1 < infiniteCode) (negative : Bool) :
    IsNearest (if negative then -(n : Int) else n) (ofCode negative (nearestCode n 1)) := by
  refine ⟨_, units?_ofCode hfinite negative, fun y v hv => ?_⟩
  obtain ⟨negative', code, rfl, rfl⟩ := ofCode_of_units? hv
  rw [magnitudeCode_ofCode (Nat.le_of_lt hfinite)]
  obtain ⟨hcode, hcodeTie⟩ := distance_nearestCode_le Nat.one_pos hfinite code
  -- zero stands between the doubles of the other sign and the number
  obtain ⟨hzero, hzeroTie⟩ := distance_nearestCode_le Nat.one_pos hfinite 0
  have hne {code' : Nat} (h : units code' ≠ units (nearestCode n 1)) : code' ≠ nearestCode n 1 :=
    fun heq => h (by rw [heq])
  rw [Nat.mul_one, Nat.mul_one] at hcode hcodeTie hzero hzeroTie
  rw [units_zero, distance_zero] at hzero hzeroTie
  have hone : (n : Int) * unitsPerOne = (n * unitsPerOne : Nat) := (Int.natCast_mul ..).symm
  have hnegative : -(n : Int) * unitsPerOne = -(n * unitsPerOne : Nat) := by rw [Int.neg_mul, hone]
  have hother (hv : distance (n * unitsPerOne) (units (nearestCode n 1)) = n * unitsPerOne + units code)
      (hvalue : units code = 0 → units (nearestCode n 1) ≠ 0) : mantissa (nearestCode n 1) % 2 = 0 := by
    refine hzeroTie (hne ?_) (by omega)
    rw [units_zero]
    exact (hvalue (by omega)).symm
  cases negative <;> cases negative' <;>
    simp only [Bool.false_eq_true, if_true, if_false, hone, hnegative, natAbs_sub, natAbs_neg_sub_neg,
      natAbs_sub_neg, natAbs_neg_sub]
  · exact ⟨hcode, fun hv => hcodeTie (hne fun heq => hv (by rw [heq]))⟩
  · exact ⟨Nat.le_add_right_of_le hzero, fun hv heq => hother heq (by omega)⟩
  · exact ⟨Nat.le_add_right_of_le hzero, fun hv heq => hother heq (by omega)⟩
  · exact ⟨hcode, fun hv => hcodeTie (hne fun heq => hv (by rw [heq]))⟩

/-- A whole number of at most 64 bits is far below the largest double. -/
theorem nearestCode_lt_infiniteCode {n : Nat} (h : n ≤ 2 ^ 64) : nearestCode n 1 < infiniteCode := by
  obtain ⟨k, hk⟩ := exists_isLift n Nat.one_pos
  have hround := (roundHalfEven_bounds Nat.one_pos hk).1
  have hscale : k ≤ 1086 := by
    rcases hk.2 with hzero | hlead
    · omega
    · have hpow : 2 ^ (k + 52) ≤ 2 ^ (64 + 1074) := by
        calc 2 ^ (k + 52) = 1 * 2 ^ (k + 52) := (Nat.one_mul _).symm
          _ ≤ n * unitsPerOne := hlead
          _ ≤ 2 ^ 64 * unitsPerOne := Nat.mul_le_mul_right _ h
          _ = 2 ^ (64 + 1074) := (two_pow_eq rfl rfl).symm
      have hexp := (Nat.pow_le_pow_iff_right (by omega)).mp hpow
      omega
  rw [nearestCode_eq Nat.one_pos hk, infiniteCode]
  omega

/-- Whole numbers of at most 64 bits become the nearest double. -/
theorem isNearest_ofInt {n : Int} (h : n.natAbs ≤ 2 ^ 64) : IsNearest n (ofInt n) := by
  cases n with
  | ofNat n => exact isNearest_ofCode (nearestCode_lt_infiniteCode h) false
  | negSucc n => exact isNearest_ofCode (nearestCode_lt_infiniteCode h) true

theorem isNearest_ofNat {n : Nat} (h : n ≤ 2 ^ 64) : IsNearest n (ofNat n) :=
  isNearest_ofInt h

end ArrayCalc.Number
