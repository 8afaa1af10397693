import Mathlib
import ArrayCalc.Number.Binary

namespace ArrayCalc.Number

open Float.Model Float.Model.UnpackedFloat

/-- The three fields of a double, put together again. -/
private theorem packComponents_fields (b : BitVec Format.binary64.numBits) :
    packComponents .binary64 (Sign.ofBitVec (unpackSign b)) (unpackExponent b) (unpackMantissa b) = b := by
  have hsign (v : BitVec 1) : (Sign.ofBitVec v).toBitVec = v := by
    revert v
    decide
  rw [packComponents, hsign, unpackSign, unpackExponent, unpackMantissa]
  ext i hi
  grind

private theorem pack_of_fields {b : BitVec Format.binary64.numBits} {e : BitVec 11} {m : BitVec 52}
    (he : @unpackExponent .binary64 b = e) (hm : @unpackMantissa .binary64 b = m) :
    packComponents .binary64 (Sign.ofBitVec (unpackSign b)) e m = b := by
  rw [← he, ← hm]
  exact packComponents_fields b

/-- A significand below the implicit bit stands in the codes without an exponent. -/
private theorem pack_subnormal (s : Sign) (m : BitVec 52) {e : Int} (he : e = -1074) (hpos : 0 < m.toNat) :
    UnpackedFloat.pack .binary64 (.finite s m.toNat e hpos) = packComponents .binary64 s 0#11 m := by
  subst he
  have hlt : m.toNat < 2 ^ 52 := m.isLt
  have hlog : m.toNat.log2 < 52 := (Nat.log2_lt (by omega)).mpr hlt
  have hbits : m.toNat.log2 + 1 ≠ Format.binary64.mantissaBits := by
    have hwidth : Format.binary64.mantissaBits = 53 := rfl
    omega
  rw [UnpackedFloat.pack]
  dsimp only
  rw [if_neg (by decide), if_neg hbits, BitVec.ofNat_toNat, BitVec.setWidth_eq]

/-- A significand with the implicit bit stands in the codes of its exponent. -/
private theorem pack_normal (s : Sign) (e : BitVec 11) (m : BitVec 52) (he : e ≠ -1#11)
    (hpos : 0 < (1#1 ++ m).toNat) :
    UnpackedFloat.pack .binary64 (.finite s (1#1 ++ m).toNat (e.toNat - 1075) hpos) =
      packComponents .binary64 s e m := by
  have hsum : (1#1 ++ m).toNat = 2 ^ 52 + m.toNat := by
    rw [BitVec.toNat_append, Nat.or_comm]
    exact (Nat.or_two_pow_eq_add_of_lt m.isLt).trans (Nat.add_comm ..)
  have hlt : m.toNat < 2 ^ 52 := m.isLt
  have hlog : (1#1 ++ m).toNat.log2 + 1 = Format.binary64.mantissaBits := by
    have hwidth : Format.binary64.mantissaBits = 53 := rfl
    have hlower : 52 ≤ (1#1 ++ m).toNat.log2 := (Nat.le_log2 (by omega)).mpr (by omega)
    have hupper : (1#1 ++ m).toNat.log2 < 53 := (Nat.log2_lt (by omega)).mpr (by omega)
    omega
  have hexp : ((e.toNat : Int) - 1075 + Format.binary64.exponentBias +
      Format.binary64.mantissaBitsWithoutImplicit).toNat = e.toNat := by
    have hbias : (Format.binary64.exponentBias : Int) = 1023 := rfl
    have hwidth : (Format.binary64.mantissaBitsWithoutImplicit : Int) = 52 := rfl
    omega
  have hfinite : e.toNat ≠ 2047 := fun h => he (BitVec.eq_of_toNat_eq h)
  have hbound : e.toNat < 2 ^ 11 := e.isLt
  rw [UnpackedFloat.pack]
  simp only [hexp]
  rw [if_neg (show ¬ 2 ^ 11 ≤ e.toNat + 1 by omega), if_pos hlog, BitVec.ofNat_toNat, BitVec.setWidth_eq]
  have hmant : BitVec.ofNat 52 (1#1 ++ m).toNat = m := by
    apply BitVec.eq_of_toNat_eq
    rw [BitVec.toNat_ofNat, hsum]
    omega
  exact congrArg _ hmant

private theorem pack_unpack {b : BitVec Format.binary64.numBits} (hb : Format.binary64.Valid b) :
    UnpackedFloat.pack .binary64 (UnpackedFloat.unpack .binary64 b) = b := by
  rw [UnpackedFloat.unpack]
  split
  · rename_i hexp
    split
    · rename_i hmant
      exact pack_of_fields hexp hmant
    · rename_i hmant
      exact (hb.eq_packedNaN hexp hmant).symm
  · rename_i hfinite
    split
    · rename_i hexp
      split
      · rename_i hmant
        exact pack_of_fields hexp hmant
      · rename_i hmant
        have hleast : ((unpackExponent b).toNat : Int) - (Format.binary64.exponentBias +
            Format.binary64.mantissaBitsWithoutImplicit) + 1 = -1074 := by
          rw [hexp]
          rfl
        exact (pack_subnormal _ _ hleast _).trans (pack_of_fields hexp rfl)
    · exact (pack_normal _ _ _ hfinite _).trans (packComponents_fields b)

/-- Only the sign field is lost in an absolute value. -/
private theorem abs_unpack {b b' : BitVec Format.binary64.numBits} (hsign : unpackSign b' = 0#1)
    (he : @unpackExponent .binary64 b = unpackExponent b') (hm : @unpackMantissa .binary64 b = unpackMantissa b') :
    (UnpackedFloat.unpack .binary64 b).abs = UnpackedFloat.unpack .binary64 b' := by
  have hpositive : Sign.ofBitVec (unpackSign b') = .positive := by rw [hsign]; rfl
  simp only [UnpackedFloat.unpack, he, hm, hpositive]
  split
  · split
    · rfl
    · rfl
  · split
    · split
      · rfl
      · rfl
    · rfl

/-- The bits of a double make up the double again. -/
theorem ofBits_toBits (x : Float) : Float.ofBits x.toBits = x := by
  obtain ⟨bits, hvalid⟩ := x
  have hpack := pack_unpack hvalid
  rw [Float.ofBits, Float.toBits, Float.Model.ofBits]
  congr 1
  simp only [Float.Model.pack, hpack]

/-- A code up to that of infinity is kept, with either sign. -/
theorem toBits_ofBits {bits : UInt64} (h : bits.toNat % 2 ^ 63 ≤ infiniteCode) : (Float.ofBits bits).toBits = bits := by
  have hvalid : Format.binary64.Valid bits.toBitVec := by
    refine ⟨fun hexp hmant => absurd ?_ hmant⟩
    have hexpNat := congrArg BitVec.toNat hexp
    apply BitVec.eq_of_toNat_eq
    simp [unpackExponent, unpackMantissa, Nat.shiftRight_eq_div_pow] at hexpNat ⊢
    simp [infiniteCode] at h
    omega
  have hpack := pack_unpack hvalid
  simp only [Float.ofBits, Float.toBits, Float.Model.ofBits, Float.Model.pack, hpack]

theorem lt_of_le_infiniteCode {code : Nat} (h : code ≤ infiniteCode) : code < 2 ^ 63 := by
  rw [infiniteCode] at h
  omega

section

variable {code : Nat} (h : code ≤ infiniteCode) (negative : Bool)

include h

theorem toNat_toBits_ofCode :
    (ofCode negative code).toBits.toNat = if negative then code + 2 ^ 63 else code := by
  have hcode := lt_of_le_infiniteCode h
  have hnat : (UInt64.ofNat (if negative then code + 2 ^ 63 else code)).toNat =
      if negative then code + 2 ^ 63 else code := by
    rw [UInt64.toNat_ofNat']
    apply Nat.mod_eq_of_lt
    split <;> omega
  rw [ofCode, toBits_ofBits, hnat]
  rw [hnat]
  cases negative with
  | false =>
    rw [if_neg Bool.false_ne_true, Nat.mod_eq_of_lt hcode]
    exact h
  | true =>
    rw [if_pos rfl, Nat.add_mod_right, Nat.mod_eq_of_lt hcode]
    exact h

theorem magnitudeCode_ofCode : magnitudeCode (ofCode negative code) = code := by
  have hcode := lt_of_le_infiniteCode h
  rw [magnitudeCode, toNat_toBits_ofCode h]
  cases negative with
  | false => rw [if_neg Bool.false_ne_true, Nat.mod_eq_of_lt hcode]
  | true => rw [if_pos rfl, Nat.add_mod_right, Nat.mod_eq_of_lt hcode]

theorem hasSign_ofCode : hasSign (ofCode negative code) = negative := by
  have hcode := lt_of_le_infiniteCode h
  rw [hasSign, toNat_toBits_ofCode h]
  cases negative with
  | false =>
    simp
    omega
  | true => simp

end

/-- The absolute value of a double has its magnitude code, without the sign. -/
theorem abs_ofCode {code : Nat} (h : code ≤ infiniteCode) (negative : Bool) :
    (ofCode negative code).abs = ofCode false code := by
  have hcode := lt_of_le_infiniteCode h
  have hbits : (ofCode negative code).toBits.toNat % 2 ^ 63 = (ofCode false code).toBits.toNat := by
    rw [toNat_toBits_ofCode h, toNat_toBits_ofCode h, if_neg Bool.false_ne_true]
    split
    · rw [Nat.add_mod_right, Nat.mod_eq_of_lt hcode]
    · rw [Nat.mod_eq_of_lt hcode]
  have hless : (ofCode false code).toBits.toNat < 2 ^ 63 := by
    rw [← hbits]
    exact Nat.mod_lt _ (Nat.two_pow_pos _)
  generalize ofCode negative code = x at *
  generalize ofCode false code = y at *
  obtain ⟨bits, hvalid⟩ := x
  obtain ⟨bits', hvalid'⟩ := y
  have hlt : bits.toNat < 2 ^ 64 := bits.toNat_lt
  have hunpack : (UnpackedFloat.unpack .binary64 bits.toBitVec).abs = UnpackedFloat.unpack .binary64 bits'.toBitVec := by
    apply abs_unpack
    · apply BitVec.eq_of_toNat_eq
      simp [Float.toBits, unpackSign, Nat.shiftRight_eq_div_pow] at hbits hless ⊢
      omega
    · apply BitVec.eq_of_toNat_eq
      simp [Float.toBits, unpackExponent, Nat.shiftRight_eq_div_pow] at hbits hless ⊢
      omega
    · apply BitVec.eq_of_toNat_eq
      simp [Float.toBits, unpackMantissa, Nat.shiftRight_eq_div_pow] at hbits hless ⊢
      omega
  have hpack := pack_unpack hvalid'
  rw [Float.abs, Float.Model.abs]
  congr 1
  simp only [Float.Model.pack, Float.Model.unpack, hunpack, hpack]

/-- A double is made of its sign and its magnitude code. -/
theorem ofCode_magnitudeCode (x : Float) : ofCode (hasSign x) (magnitudeCode x) = x := by
  have hlt : x.toBits.toNat < 2 ^ 64 := x.toBits.toNat_lt
  have hbits : (if hasSign x then magnitudeCode x + 2 ^ 63 else magnitudeCode x) = x.toBits.toNat := by
    rw [hasSign, magnitudeCode]
    split <;> simp at * <;> omega
  rw [ofCode, hbits, UInt64.ofNat_toNat, ofBits_toBits]

theorem read_ofCode {code : Nat} (h : code < infiniteCode) (negative : Bool) :
    read (ofCode negative code) = .finite negative (mantissa code) (exponent code) := by
  rw [read, magnitudeCode_ofCode (Nat.le_of_lt h), hasSign_ofCode (Nat.le_of_lt h)]
  exact if_pos h

theorem read_infinite (negative : Bool) : read (ofCode negative infiniteCode) = .infinite negative := by
  rw [read, magnitudeCode_ofCode (Nat.le_refl _), hasSign_ofCode (Nat.le_refl _)]
  rfl

/-- Every code past that of infinity, with either sign, is no number. -/
theorem read_ofBits_nan {bits : UInt64} (h : infiniteCode < bits.toNat % 2 ^ 63) : read (Float.ofBits bits) = .nan := by
  have hnan : UnpackedFloat.unpack .binary64 bits.toBitVec = .notANumber := by
    have hexp : @unpackExponent .binary64 bits.toBitVec = -1#_ := by
      apply BitVec.eq_of_toNat_eq
      have hlt := bits.toNat_lt
      simp [unpackExponent, Nat.shiftRight_eq_div_pow, infiniteCode] at h ⊢
      omega
    have hmant : @unpackMantissa .binary64 bits.toBitVec ≠ 0#_ := by
      intro hzero
      have hzeroNat := congrArg BitVec.toNat hzero
      have hlt := bits.toNat_lt
      simp [unpackMantissa, infiniteCode] at h hzeroNat
      have hexpNat := congrArg BitVec.toNat hexp
      simp [unpackExponent, Nat.shiftRight_eq_div_pow] at hexpNat
      omega
    rw [UnpackedFloat.unpack, if_pos hexp, if_neg hmant]
  have hbits : (Float.ofBits bits).toBits = 0x7ff8000000000000 := by
    simp only [Float.ofBits, Float.toBits, Float.Model.ofBits, Float.Model.pack, hnan]
    rfl
  rw [read, magnitudeCode, hbits]
  rfl

theorem read_ofCode_nan {code : Nat} (h : infiniteCode < code) (hcode : code < 2 ^ 63) (negative : Bool) :
    read (ofCode negative code) = .nan := by
  apply read_ofBits_nan
  rw [UInt64.toNat_ofNat']
  cases negative with
  | false =>
    have hbits : code < 2 ^ 64 := by omega
    rw [if_neg Bool.false_ne_true, Nat.mod_eq_of_lt hbits, Nat.mod_eq_of_lt hcode]
    exact h
  | true =>
    have hbits : code + 2 ^ 63 < 2 ^ 64 := by omega
    rw [if_pos rfl, Nat.mod_eq_of_lt hbits, Nat.add_mod_right, Nat.mod_eq_of_lt hcode]
    exact h

/-- A finite double has a code below that of infinity, and the code says what it stands for. -/
theorem ofCode_of_read {x : Float} {negative : Bool} {mant : Nat} {exp : Int}
    (h : read x = .finite negative mant exp) :
    ∃ code, code < infiniteCode ∧ x = ofCode negative code ∧ mant = mantissa code ∧ exp = exponent code := by
  rw [read] at h
  split at h
  · rename_i hfinite
    cases h
    exact ⟨magnitudeCode x, hfinite, (ofCode_magnitudeCode x).symm, rfl, rfl⟩
  · split at h
    · cases h
    · cases h

end ArrayCalc.Number
