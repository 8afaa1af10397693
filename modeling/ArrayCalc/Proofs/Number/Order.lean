import ArrayCalc.Proofs.Number.Nearest

namespace ArrayCalc.Number

open Float.Model Float.Model.UnpackedFloat

private theorem finite_congr {m m' : Nat} {e e' : Int} (hm : m = m') (he : e = e') (hpos : 0 < m) :
    ∃ hpos', UnpackedFloat.finite .positive m e hpos = .finite .positive m' e' hpos' := by
  subst hm he
  exact ⟨hpos, rfl⟩

/-- What a double without a sign is unpacked to: its significand and its power of two. -/
private theorem unpack_ofCode {code : Nat} (h : code < infiniteCode) :
    (code = 0 ∧ (ofCode false code).toModel.unpack = .zero .positive) ∨
      ∃ hpos : 0 < mantissa code,
        (ofCode false code).toModel.unpack = .finite .positive (mantissa code) (exponent code) hpos := by
  have hbits : (ofCode false code).toModel.toBits.toBitVec.toNat = code :=
    toNat_toBits_ofCode (Nat.le_of_lt h) false
  have hlimit : code < 2047 * 2 ^ 52 := h
  rw [Float.Model.unpack]
  generalize (ofCode false code).toModel.toBits.toBitVec = b at *
  have hsign : Sign.ofBitVec (@unpackSign .binary64 b) = .positive := by
    have hzero : @unpackSign .binary64 b = 0#1 := by
      apply BitVec.eq_of_toNat_eq
      simp [unpackSign, Nat.shiftRight_eq_div_pow]
      omega
    rw [hzero]
    rfl
  have hexp : (@unpackExponent .binary64 b).toNat = code / 2 ^ 52 := by
    simp [unpackExponent, Nat.shiftRight_eq_div_pow, hbits]
    omega
  have hmant : (@unpackMantissa .binary64 b).toNat = code % 2 ^ 52 := by
    simp [unpackMantissa, hbits]
  have hscale : (Format.binary64.exponentBias : Int) + Format.binary64.mantissaBitsWithoutImplicit = 1075 := rfl
  have hfinite : @unpackExponent .binary64 b ≠ -1#_ := by
    intro hall
    have htop : (@unpackExponent .binary64 b).toNat = 2047 := congrArg BitVec.toNat hall
    omega
  rw [UnpackedFloat.unpack]
  simp only [hsign, hscale]
  rw [if_neg hfinite]
  split
  · next hleast =>
    have hsmall : code / 2 ^ 52 = 0 := hexp.symm.trans (congrArg BitVec.toNat hleast)
    split
    · next hzero =>
      have hnone : code % 2 ^ 52 = 0 := hmant.symm.trans (congrArg BitVec.toNat hzero)
      exact .inl ⟨by omega, rfl⟩
    · have hm : (@unpackMantissa .binary64 b).toNat = mantissa code := by
        rw [hmant, mantissa, if_pos (by omega)]
        omega
      have he : ((@unpackExponent .binary64 b).toNat : Int) - 1075 + 1 = exponent code := by
        rw [hexp, exponent]
        omega
      exact .inr (finite_congr hm he _)
  · next hmore =>
    have hlarge : code / 2 ^ 52 ≠ 0 := by
      intro hzero
      apply hmore
      apply BitVec.eq_of_toNat_eq
      rw [hexp, hzero]
      rfl
    have hsum : (1#1 ++ @unpackMantissa .binary64 b).toNat = 2 ^ 52 + code % 2 ^ 52 := by
      rw [BitVec.toNat_append, hmant, Nat.or_comm]
      have hlt : code % 2 ^ 52 < 2 ^ 52 := Nat.mod_lt _ (Nat.two_pow_pos 52)
      exact (Nat.or_two_pow_eq_add_of_lt hlt).trans (Nat.add_comm ..)
    have he : ((@unpackExponent .binary64 b).toNat : Int) - 1075 = exponent code := by
      rw [hexp, exponent]
      omega
    have hm : (1#1 ++ @unpackMantissa .binary64 b).toNat = mantissa code := by
      rw [hsum, mantissa, if_neg (by omega)]
      omega
    exact .inr (finite_congr hm he _)

/-- Codes are ordered by their power of two first, and then by their significand. -/
theorem code_le_iff (a b : Nat) :
    a ≤ b ↔ exponent a < exponent b ∨ (exponent a = exponent b ∧ mantissa a ≤ mantissa b) := by
  have ha := lift_add_mantissa a
  have hb := lift_add_mantissa b
  have hma := mantissa_lt a
  have hmb := mantissa_lt b
  have hla := lift_eq_zero_or a
  have hlb := lift_eq_zero_or b
  rw [exponent_eq, exponent_eq]
  omega

/-- Doubles without a sign are ordered as their codes. -/
theorem ofCode_le_ofCode_iff {a b : Nat} (ha : a < infiniteCode) (hb : b < infiniteCode) :
    ofCode false a ≤ ofCode false b ↔ a ≤ b := by
  have hmodel : ofCode false a ≤ ofCode false b ↔
      (ofCode false a).toModel.unpack.le (ofCode false b).toModel.unpack = true := by
    change Float.le _ _ = true ↔ _
    rw [Float.le, decide_eq_true_iff]
    rfl
  rw [hmodel, UnpackedFloat.le]
  obtain ⟨rfl, hzero⟩ | ⟨hposa, hfinitea⟩ := unpack_ofCode ha
  · obtain ⟨rfl, hzero'⟩ | ⟨hpos, hfinite⟩ := unpack_ofCode hb
    · simp [hzero, UnpackedFloat.compare]
    · simp [hzero, hfinite, UnpackedFloat.compare]
  · obtain ⟨rfl, hzero⟩ | ⟨hposb, hfiniteb⟩ := unpack_ofCode hb
    · have hne : a ≠ 0 := by
        have := code_eq a
        omega
      simp [hzero, hfinitea, UnpackedFloat.compare, hne]
    · rw [hfinitea, hfiniteb, code_le_iff]
      simp [UnpackedFloat.compare, Ordering.isLE_then_iff_or, compare_lt_iff_lt, Nat.isLE_compare]

theorem codeValue_le_codeValue_iff {a b : Nat} : codeValue a ≤ codeValue b ↔ a ≤ b := by
  constructor
  · intro h
    by_contra hlt
    exact absurd (codeValue_lt_codeValue (Nat.lt_of_not_le hlt)) (not_lt.mpr h)
  · exact codeValue_le_codeValue

/-- Magnitudes are compared with a double without a sign as the numbers they stand for. -/
theorem ofCode_le_abs_iff {x : Float} {negative : Bool} {mant : Nat} {exp : Int}
    (hread : read x = .finite negative mant exp) {code : Nat} (hcode : code < infiniteCode) :
    ofCode false code ≤ x.abs ↔ codeValue code ≤ magnitude mant exp := by
  obtain ⟨code', hcode', rfl, rfl, rfl⟩ := ofCode_of_read hread
  rw [abs_ofCode (Nat.le_of_lt hcode'), ofCode_le_ofCode_iff hcode hcode']
  exact codeValue_le_codeValue_iff.symm

end ArrayCalc.Number
