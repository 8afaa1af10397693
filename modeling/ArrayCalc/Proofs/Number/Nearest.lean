import ArrayCalc.Proofs.Number.Compact
import ArrayCalc.Proofs.Number.Significant

namespace ArrayCalc.Number

/-- The number that the code of a finite magnitude stands for. -/
def codeValue (code : Nat) : ℚ :=
  magnitude (mantissa code) (exponent code)

theorem codeValue_eq (code : Nat) : codeValue code = units code / unitsPerOne := by
  have hone : (unitsPerOne : ℚ) ≠ 0 := by exact_mod_cast Nat.ne_of_gt unitsPerOne_pos
  have hden : ((fraction (mantissa code) (exponent code)).2 : ℚ) ≠ 0 := by
    exact_mod_cast Nat.ne_of_gt (fraction_pos _ _)
  rw [codeValue, ← fraction_div, div_eq_div_iff hden hone]
  exact_mod_cast (units_mul code).symm

theorem codeValue_lt_codeValue {code code' : Nat} (h : code < code') : codeValue code < codeValue code' := by
  have hone : (0 : ℚ) < unitsPerOne := by exact_mod_cast unitsPerOne_pos
  rw [codeValue_eq, codeValue_eq]
  exact div_lt_div_of_pos_right (by exact_mod_cast units_lt_units h) hone

theorem codeValue_le_codeValue {code code' : Nat} (h : code ≤ code') : codeValue code ≤ codeValue code' := by
  rcases Nat.eq_or_lt_of_le h with rfl | hlt
  · exact le_refl _
  · exact (codeValue_lt_codeValue hlt).le

theorem codeValue_zero : codeValue 0 = 0 := by
  rw [codeValue_eq, units_zero, Nat.cast_zero, zero_div]

theorem cast_distance (a b : Nat) : (distance a b : ℚ) = |(a : ℚ) - b| := by
  have hint : (distance a b : Int) = |(a : Int) - b| := by
    rw [Int.abs_eq_natAbs, distance]
    omega
  exact_mod_cast congrArg (Int.cast : Int → ℚ) hint

/-- No finite magnitude is nearer to a fraction than the one that it is rounded to. -/
theorem abs_sub_nearestCode_le {num den : Nat} (hden : 0 < den) (hfinite : nearestCode num den < infiniteCode)
    (code : Nat) : |(num / den : ℚ) - codeValue (nearestCode num den)| ≤ |(num / den : ℚ) - codeValue code| := by
  have hone : (0 : ℚ) < unitsPerOne := by exact_mod_cast unitsPerOne_pos
  have hden' : (0 : ℚ) < den := by exact_mod_cast hden
  have hscale : (0 : ℚ) < den * unitsPerOne := mul_pos hden' hone
  have hdistance (c : Nat) : |(num / den : ℚ) - codeValue c| =
      (distance (num * unitsPerOne) (units c * den) : Nat) / (den * unitsPerOne) := by
    rw [cast_distance, Nat.cast_mul, Nat.cast_mul, codeValue_eq, div_sub_div _ _ hden'.ne' hone.ne', abs_div,
      abs_of_pos hscale, mul_comm (units c : ℚ)]
  rw [hdistance, hdistance]
  exact div_le_div_of_nonneg_right (by exact_mod_cast (distance_nearestCode_le hden hfinite code).1) hscale.le

namespace Decimal

variable {d d' : Decimal}

theorem fraction_div (d : Decimal) : (d.fraction.1 / d.fraction.2 : ℚ) = d.value := by
  rw [fraction, scaleTen_div, Nat.cast_one, div_one, value]

theorem value_eq_zero_iff : d.value = 0 ↔ d.coeff = 0 := by
  rw [value, mul_eq_zero, or_iff_left (zpow_ne_zero _ (by norm_num)), Nat.cast_eq_zero]

/-- The powers of ten around a positive decimal. -/
theorem value_bounds (h : 0 < d.coeff) : 10 ^ d.order ≤ d.value ∧ d.value < 10 ^ (d.order + 1) := by
  obtain ⟨k, hcount, hlow, hhigh⟩ := exists_digitCount_eq h
  have hunit : (0 : ℚ) < 10 ^ d.exp := zpow_pos (by norm_num) _
  have hlow' : (10 : ℚ) ^ k ≤ d.coeff := by exact_mod_cast hlow
  have hhigh' : (d.coeff : ℚ) < 10 ^ (k + 1) := by exact_mod_cast hhigh
  have horder : d.order = (k : Int) + d.exp := by
    rw [order, hcount]
    omega
  have hnext : (k : Int) + d.exp + 1 = (k + 1 : Nat) + d.exp := by omega
  rw [horder, hnext, zpow_add₀ (by norm_num), zpow_add₀ (by norm_num), zpow_natCast, zpow_natCast, value]
  exact ⟨mul_le_mul_of_nonneg_right hlow' hunit.le, mul_lt_mul_of_pos_right hhigh' hunit⟩

theorem order_eq_of_value_eq (hpos : 0 < d.coeff) (hpos' : 0 < d'.coeff) (h : d.value = d'.value) :
    d.order = d'.order := by
  have hle {a b : Decimal} (ha : 0 < a.coeff) (hb : 0 < b.coeff) (heq : a.value = b.value) : a.order ≤ b.order := by
    have hless := lt_of_le_of_lt ((value_bounds ha).1.trans_eq heq) (value_bounds hb).2
    exact Int.le_of_lt_add_one ((zpow_lt_zpow_iff_right₀ (by norm_num)).mp hless)
  exact Int.le_antisymm (hle hpos hpos' h) (hle hpos' hpos h.symm)

/-- The nearest double depends on the number only, not on how it is written. -/
theorem nearestCode_of_value_eq (h : d.value = d'.value) : d.nearestCode = d'.nearestCode := by
  have hzero : d.coeff = 0 ↔ d'.coeff = 0 := by rw [← value_eq_zero_iff, h, value_eq_zero_iff]
  by_cases hd : d.coeff = 0
  · rw [nearestCode, nearestCode, if_pos (.inl hd), if_pos (.inl (hzero.mp hd))]
  have horder := order_eq_of_value_eq (Nat.pos_of_ne_zero hd) (Nat.pos_of_ne_zero fun hd' => hd (hzero.mpr hd')) h
  have hden (d : Decimal) : 0 < d.fraction.2 := scaleTen_pos Nat.one_pos _ _
  have hcross : d.fraction.1 * d'.fraction.2 = d'.fraction.1 * d.fraction.2 := by
    have hden' (d : Decimal) : (d.fraction.2 : ℚ) ≠ 0 := by exact_mod_cast Nat.ne_of_gt (hden d)
    rw [← fraction_div, ← fraction_div, div_eq_div_iff (hden' d) (hden' d')] at h
    exact_mod_cast h
  have hsame : Number.nearestCode d.fraction.1 d.fraction.2 = Number.nearestCode d'.fraction.1 d'.fraction.2 := by
    rw [← nearestCode_mul (hden d) _ (hden d'), ← nearestCode_mul (hden d') _ (hden d), Nat.mul_comm, hcross,
      Nat.mul_comm d'.fraction.1, Nat.mul_comm d.fraction.2 d'.fraction.2]
  rw [nearestCode, nearestCode, horder, hsame]
  simp only [hzero]

private theorem two_mul_ten_zpow_le {a b : Nat} (h : a + 1 ≤ 3 * b) : 2 * (10 : ℚ) ^ (-(b : Int)) ≤ 2 ^ (-(a : Int)) := by
  have hpow : (2 : ℚ) ^ (a + 1) ≤ 10 ^ b := by exact_mod_cast two_pow_le_ten_pow h
  rw [zpow_neg, zpow_neg, zpow_natCast, zpow_natCast, ← div_eq_mul_inv, div_le_iff₀ (by positivity), inv_mul_eq_div,
    le_div_iff₀ (by positivity), ← pow_succ']
  exact hpow

/-- No finite double is nearer to a decimal than the one that it is read as. -/
theorem abs_value_sub_le (hfinite : d.nearestCode < infiniteCode) (code : Nat) :
    |d.value - codeValue d.nearestCode| ≤ |d.value - codeValue code| := by
  by_cases hcoeff : d.coeff = 0
  · rw [nearestCode, if_pos (.inl hcoeff), codeValue_zero, value_eq_zero_iff.mpr hcoeff, sub_zero, abs_zero]
    exact abs_nonneg _
  have hpos := Nat.pos_of_ne_zero hcoeff
  by_cases hlow : d.order < -400
  · -- far below the smallest double, which is more than twice as far from it as zero is
    obtain ⟨hnonneg, hless⟩ := value_bounds hpos
    have hvalue : 0 ≤ d.value := le_trans (zpow_nonneg (by norm_num) _) hnonneg
    rw [nearestCode, if_pos (.inr hlow), codeValue_zero, sub_zero, abs_of_nonneg hvalue]
    rcases Nat.eq_zero_or_pos code with rfl | hcode
    · rw [codeValue_zero, sub_zero]
      exact le_abs_self _
    · have hsmall : d.value < 10 ^ (-400 : Int) :=
        lt_of_lt_of_le hless (zpow_le_zpow_right₀ (by norm_num) (by omega))
      have hleast : 2 * 10 ^ (-400 : Int) ≤ codeValue code := by
        refine le_trans ?_ (codeValue_le_codeValue hcode)
        have hone : codeValue 1 = 2 ^ (-1074 : Int) := by
          have hmant : mantissa 1 = 1 := rfl
          have hexp : exponent 1 = -1074 := rfl
          rw [codeValue, magnitude, hmant, hexp, Nat.cast_one, one_mul]
        have hscale := two_mul_ten_zpow_le (a := 1074) (b := 400) (by omega)
        rw [Nat.cast_ofNat, Nat.cast_ofNat] at hscale
        rw [hone]
        exact hscale
      rw [abs_of_nonpos (by linarith)]
      linarith
  · have hhigh : ¬ 400 < d.order := fun hhigh => by
      rw [nearestCode, if_neg (not_or.mpr ⟨hcoeff, hlow⟩), if_pos hhigh] at hfinite
      exact Nat.lt_irrefl _ hfinite
    rw [nearestCode, if_neg (not_or.mpr ⟨hcoeff, hlow⟩), if_neg hhigh] at hfinite ⊢
    rw [← fraction_div]
    exact abs_sub_nearestCode_le (scaleTen_pos Nat.one_pos _ _) hfinite code

end Decimal

section

variable {code : Nat} (hcode : code < infiniteCode)

include hcode

/-- The shortest decimal reads back as the magnitude, that of zero too. -/
theorem nearestCode_shortest_of_lt : (shortest code).nearestCode = code := by
  rcases Nat.eq_zero_or_pos code with rfl | hpos
  · rfl
  · exact nearestCode_shortest hpos hcode

/-- A power of ten whose nearest double is not below it, and has this power as its shortest decimal, divides the
    magnitudes like their shortest decimals. -/
theorem order_shortest_lt_iff (hpos : 0 < code) (top : Nat) {k : Int} (hle : (10 : ℚ) ^ k ≤ codeValue top)
    (hnear : codeValue top - 10 ^ k < 10 ^ k - codeValue (top - 1)) (horder : (shortest top).order = k) :
    (shortest code).order < k ↔ codeValue code < 10 ^ k := by
  have hback := nearestCode_shortest hpos hcode
  have hcoeff : 0 < (shortest code).coeff := by
    refine Nat.pos_of_ne_zero fun hzero => ?_
    rw [Decimal.nearestCode, if_pos (.inl hzero)] at hback
    omega
  obtain ⟨hlow, hhigh⟩ := Decimal.value_bounds hcoeff
  have hnearest := Decimal.abs_value_sub_le (hback ▸ hcode) top
  rw [hback] at hnearest
  constructor
  · intro hless
    by_contra hlarge
    have hvalue : (shortest code).value < 10 ^ k :=
      lt_of_lt_of_le hhigh (zpow_le_zpow_right₀ (by norm_num) (by omega))
    rcases Nat.lt_trichotomy code top with hbelow | rfl | habove
    · have hbefore := codeValue_le_codeValue (Nat.le_sub_one_of_lt hbelow)
      linarith
    · omega
    · have hafter := codeValue_lt_codeValue habove
      rw [abs_of_nonpos (by linarith), abs_of_nonpos (by linarith)] at hnearest
      linarith
  · intro hless
    by_contra hlarge
    have hvalue : 10 ^ k ≤ (shortest code).value :=
      le_trans (zpow_le_zpow_right₀ (by norm_num) (by omega)) hlow
    have hbelow : code < top := by
      by_contra hafter
      have hreached := codeValue_le_codeValue (Nat.not_lt.mp hafter)
      linarith
    have hbefore := codeValue_le_codeValue (Nat.le_sub_one_of_lt hbelow)
    rw [abs_of_nonneg (by linarith)] at hnearest
    rcases abs_cases ((shortest code).value - codeValue top) with ⟨habs, -⟩ | ⟨habs, -⟩
    · linarith
    · linarith

/-- From `1e-4` on, magnitudes have shortest decimals from this power on. The double nearest to it lies above it. -/
theorem order_shortest_lt_neg_four_iff (hpos : 0 < code) :
    (shortest code).order < -4 ↔ codeValue code < 10 ^ (-4 : Int) := by
  have htop : codeValue 0x3F1A36E2EB1C432D = 7378697629483821 * 2 ^ (-66 : Int) := by
    norm_num [codeValue, magnitude, mantissa, exponent]
  have hbefore : codeValue (0x3F1A36E2EB1C432D - 1) = 7378697629483820 * 2 ^ (-66 : Int) := by
    norm_num [codeValue, magnitude, mantissa, exponent]
  refine order_shortest_lt_iff hcode hpos 0x3F1A36E2EB1C432D ?_ ?_ (by decide +kernel)
  · rw [htop]
    norm_num
  · rw [htop, hbefore]
    norm_num

/-- The power `1e16` is a double itself. -/
theorem order_shortest_lt_sixteen_iff (hpos : 0 < code) :
    (shortest code).order < 16 ↔ codeValue code < 10 ^ (16 : Int) := by
  have htop : codeValue 0x4341C37937E08000 = 10 ^ (16 : Int) := by
    norm_num [codeValue, magnitude, mantissa, exponent]
  have hbefore : codeValue (0x4341C37937E08000 - 1) = 10 ^ (16 : Int) - 2 := by
    norm_num [codeValue, magnitude, mantissa, exponent]
  refine order_shortest_lt_iff hcode hpos 0x4341C37937E08000 ?_ ?_ (by decide +kernel)
  · rw [htop]
  · rw [htop, hbefore]
    norm_num

end

end ArrayCalc.Number
