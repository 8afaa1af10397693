import ArrayCalc.Proofs.Number.General
import ArrayCalc.Proofs.Number.Nearest

namespace ArrayCalc.Number

/-- A text that writes a decimal, without a sign before it. -/
structure Unsigned (cs : List Char) (d : Decimal) : Prop where
  read : unsigned? cs = some d
  chars : ∀ c ∈ cs, isNumberChar c = true

/-- How numbers are written in results: with a word, or with a sign if need be and a decimal. -/
inductive Written (x : Float) : List Char → Prop where
  | nan (h : read x = .nan) : Written x "nan".toList
  | infinite {negative : Bool} (h : read x = .infinite negative) : Written x (signText negative ++ "inf".toList)
  | finite {negative : Bool} {mant : Nat} {exp : Int} {body : List Char} {d : Decimal}
      (h : read x = .finite negative mant exp) (hbody : Unsigned body d) : Written x (signText negative ++ body)

section

variable {cs : List Char} {d : Decimal}

theorem Significand.unsigned (h : Significand cs d) : Unsigned cs d :=
  ⟨unsigned?_literal (.plain h), h.isNumberChar⟩

theorem isNumberChar_signText (negative : Bool) : ∀ c ∈ signText negative, isNumberChar c = true := by
  cases negative <;> simp [signText, isNumberChar]

theorem isNumberChar_exponentText (exp : Int) : ∀ c ∈ exponentText exp, isNumberChar c = true := by
  intro c hc
  rw [exponentText, List.mem_cons, List.mem_cons] at hc
  rcases hc with rfl | rfl | hc
  · decide
  · split <;> decide
  · exact isNumberChar_of_allDigits (allDigits_padLeft 2 _) c hc

theorem Significand.unsigned_exponentText (h : Significand cs d) (exp : Int) :
    Unsigned (cs ++ exponentText exp) ⟨d.coeff, exp + d.exp⟩ := by
  refine ⟨unsigned?_exponentText h exp, fun c hc => ?_⟩
  exact (List.mem_append.mp hc).elim (h.isNumberChar c) (isNumberChar_exponentText exp c)

theorem Unsigned.ne_nil (h : Unsigned cs d) : cs ≠ [] := by
  rintro rfl
  have hread := h.read
  simp [unsigned?, spanDigits] at hread

theorem eq_of_read_infinite {x : Float} {negative : Bool} (h : read x = .infinite negative) :
    x = ofCode negative infiniteCode := by
  rw [read] at h
  split at h
  · cases h
  · split at h
    · rename_i hcode
      have hsign : hasSign x = negative := Reading.infinite.inj h
      rw [← hsign, ← hcode, ofCode_magnitudeCode]
    · cases h

/-- A written decimal with a sign is read as the double nearest to it. -/
theorem Unsigned.ofText? (h : Unsigned cs d) (negative : Bool) :
    ofText? (signText negative ++ cs) = some (d.toFloat negative) := by
  cases negative with
  | false => exact ofText?_of_unsigned? h.read h.chars
  | true => exact ofText?_neg_of_unsigned? h.read h.chars

end

namespace Written

variable {x : Float} {cs : List Char} (h : Written x cs)

include h

theorem ne_nil : cs ≠ [] := by
  cases h with
  | nan => decide
  | infinite => exact List.append_ne_nil_of_right_ne_nil _ (by decide)
  | finite _ hbody => exact List.append_ne_nil_of_right_ne_nil _ hbody.ne_nil

/-- The characters of written numbers. -/
theorem chars : ∀ c ∈ cs, isNumberChar c = true ∨ c ∈ ['n', 'a', 'i', 'f'] := by
  intro c hc
  cases h with
  | nan =>
    have hword : ∀ c ∈ "nan".toList, c ∈ ['n', 'a', 'i', 'f'] := by simp
    exact .inr (hword c hc)
  | infinite =>
    have hword : ∀ c ∈ "inf".toList, c ∈ ['n', 'a', 'i', 'f'] := by simp
    exact (List.mem_append.mp hc).imp (isNumberChar_signText _ c) (hword c)
  | finite _ hbody =>
    exact .inl ((List.mem_append.mp hc).elim (isNumberChar_signText _ c) (hbody.chars c))

theorem exists_unsigned {negative : Bool} {mant : Nat} {exp : Int} (hread : read x = .finite negative mant exp) :
    ∃ body d, cs = signText negative ++ body ∧ Unsigned body d := by
  cases h with
  | nan hnan =>
    rw [hread] at hnan
    cases hnan
  | infinite hinfinite =>
    rw [hread] at hinfinite
    cases hinfinite
  | finite hfinite hbody =>
    rw [hread] at hfinite
    cases hfinite
    exact ⟨_, _, rfl, hbody⟩

/-- What separates written numbers does not occur in them. -/
theorem notMem {mark : Char} (hchar : isNumberChar mark = false) (hletter : mark ∉ ['n', 'a', 'i', 'f']) : mark ∉ cs := by
  intro hmem
  rcases h.chars mark hmem with hmark | hmark
  · rw [hchar] at hmark
    cases hmark
  · exact hletter hmark

theorem notBlank : ∀ c ∈ cs, Text.isBlank c = false := by
  intro c hc
  rcases h.chars c hc with hchar | hletter
  · exact not_isBlank_of_isNumberChar hchar
  · have hletters : ∀ letter ∈ ['n', 'a', 'i', 'f'], Text.isBlank letter = false := by
      simp [Text.isBlank, Text.blankCodes]
    exact hletters c hletter

end Written

/-- Where the zeros at the end belong to an exponent, fewer of its digits are left, but not none. -/
theorem exists_unsigned_stripFraction {cs : List Char} {d : Decimal} (h : Significand cs d) {n : Nat} (hn : 0 < n) :
    ∃ d', Unsigned (stripFraction (cs ++ 'e' :: '+' :: digits n)) d' := by
  have hunsigned {ks : List Char} (hks : AllDigits ks) (hne : ks ≠ []) :
      Unsigned (cs ++ 'e' :: '+' :: ks) ⟨d.coeff, ofDigits ks + d.exp⟩ := by
    have hexponent : exponentPart? ('e' :: '+' :: ks) = some (ofDigits ks : Int) := by
      rw [exponentPart?, if_pos (.inl rfl), if_pos ⟨hne, hks.all⟩, if_neg Bool.false_ne_true]
    refine ⟨?_, fun c hc => ?_⟩
    · rw [unsigned?_significand h _ (by simp), if_neg (List.cons_ne_nil _ _), hexponent]
      rfl
    · rw [List.mem_append, List.mem_cons, List.mem_cons] at hc
      rcases hc with hc | rfl | rfl | hc
      · exact h.isNumberChar c hc
      · decide
      · decide
      · exact isNumberChar_of_allDigits hks c hc
  rw [stripFraction]
  split
  · obtain ⟨kept, k, hkept, hlast⟩ := exists_append_zeros (digits n)
    have hdigits : AllDigits kept := fun c hc => allDigits_digits n c (hkept ▸ List.mem_append_left _ hc)
    have hne : kept ≠ [] := by
      rintro rfl
      have hvalue := ofDigits_digits n
      rw [hkept, ofDigits_append_zeros] at hvalue
      have hzero : ofDigits [] * 10 ^ k = 0 := Nat.zero_mul _
      omega
    obtain ⟨front, c, rfl⟩ := kept.eq_nil_or_concat'.resolve_left hne
    have hfull : cs ++ 'e' :: '+' :: digits n = cs ++ 'e' :: '+' :: (front ++ [c]) ++ List.replicate k '0' := by
      rw [hkept]
      simp
    have hend : (cs ++ 'e' :: '+' :: (front ++ [c])).getLast? = some c := by
      rw [← List.cons_append, ← List.cons_append, ← List.append_assoc, List.getLast?_concat]
    have hzero : c ≠ '0' := fun hc => hlast (by rw [List.getLast?_concat, hc])
    have hpoint : c ≠ '.' := by
      rintro rfl
      exact absurd (hdigits '.' (List.mem_append_right _ (List.mem_singleton_self _))) (by decide)
    rw [hfull, stripRight_append_zeros, stripRight_of_getLast? (by rw [hend]; simpa using hzero)]
    dsimp only
    rw [if_neg (by rw [hend]; simpa using hpoint)]
    exact ⟨_, hunsigned hdigits hne⟩
  · exact ⟨_, hunsigned (allDigits_digits n) (digits_ne_nil n)⟩

/-- A magnitude that is laid out without an exponent is readable, whichever of the two texts it gets. -/
theorem exists_unsigned_fixed {x : Float} {negative : Bool} {mant : Nat} {exp : Int}
    (hread : read x = .finite negative mant exp) (places : Nat) :
    ∃ d, Unsigned (stripFraction (fixed x mant exp places)) d := by
  rcases lt_or_ge (magnitude mant exp) (10 ^ 21) with hsmall | hlarge
  · obtain ⟨d, hd, -⟩ := trimmed_places (roundPlaces mant exp places) places
    rw [fixed_eq hsmall]
    exact ⟨d, hd.significand.unsigned⟩
  · have hfraction := fraction_le_of_le (n := 10 ^ 21) (by exact_mod_cast hlarge)
    rw [(fixed_of_le hread hlarge places).1]
    obtain ⟨code, hcode, rfl, rfl, rfl⟩ := ofCode_of_read hread
    rw [abs_ofCode (Nat.le_of_lt hcode)]
    have horder := order_shortest_of_le hcode (le_units_of_le hfraction)
    rw [compact_of_le hcode hfraction, signText, if_neg Bool.false_ne_true, List.nil_append]
    exact exists_unsigned_stripFraction (significand_pointAfterFirst (allDigits_digits _) (digits_ne_nil _)) (by omega)

/-- Every number that is laid out with a count of digits is readable, also where the count is not one. -/
theorem written_general {x precision : Float} {cs : List Char} (h : general x precision = .ok cs) : Written x cs := by
  cases hread : read x with
  | nan =>
    rw [general, hread] at h
    exact Except.ok.inj h ▸ .nan hread
  | infinite negative =>
    rw [general, hread] at h
    exact Except.ok.inj h ▸ .infinite hread
  | finite negative mant exp =>
    rw [general, hread] at h
    dsimp only at h
    split at h
    · cases h
    · rw [exponential_eq] at h
      dsimp only at h
      split at h
      · rw [← Except.ok.inj h, List.append_assoc]
        have hdigits := Significand.whole (allDigits_padLeft 1 (roundSignificant mant exp 0).coeff)
          (List.append_ne_nil_of_right_ne_nil _ (digits_ne_nil _))
        exact .finite hread (hdigits.unsigned_exponentText _)
      · obtain ⟨d, hd⟩ := exists_unsigned_fixed hread 0
        rw [← Except.ok.inj h]
        exact .finite hread hd
    · rename_i extra hcount
      split at h
      · cases h
      rw [exponential_eq] at h
      dsimp only at h
      split at h
      · rename_i hscientific
        have hpos : 0 < mant := pos_of_scientific (hscientific.imp_right fun hlarge => by omega)
        have hround := (roundsTo_roundSignificant mant exp extra).hasDigits (magnitude_pos hpos exp)
        obtain ⟨m, hm, -⟩ := trimmed_exponential hround
        rw [← Except.ok.inj h, List.append_assoc]
        exact .finite hread (hm.significand.unsigned_exponentText _)
      · split at h
        · cases h
        · obtain ⟨d, hd⟩ := exists_unsigned_fixed hread _
          rw [← Except.ok.inj h]
          exact .finite hread hd

/-- What is at least a power of ten is not rounded to digits below it. -/
theorem RoundsTo.le_exp {extra : Nat} {x : ℚ} {d : Decimal} (h : RoundsTo (extra + 1) x d) {last : Int}
    (hx : 10 ^ (last + extra) ≤ x) : last ≤ d.exp := by
  have hpos : 0 < x := lt_of_lt_of_le (zpow_pos (by norm_num) _) hx
  by_contra hlow
  have hless := (h.hasDigits hpos).value_lt (Int.not_le.mp hlow)
  have hpower : Decimal.value ⟨10 ^ extra, last⟩ = 10 ^ (last + extra) := by
    rw [Decimal.value, Nat.cast_pow, Nat.cast_ofNat, add_comm, zpow_add₀ (by norm_num), zpow_natCast]
  cases h with
  | zero => exact absurd hpos (lt_irrefl 0)
  | nearest _ _ hnear _ =>
    have hdistance := hnear ⟨10 ^ extra, last⟩ ⟨le_refl _, Nat.pow_lt_pow_right (by omega) (Nat.lt_succ_self _)⟩
    rw [hpower, abs_of_nonneg (by linarith), abs_of_nonneg (by linarith)] at hdistance
    linarith

theorem Significance.ofFloat_of_truncated? {precision : Float} {n : Int} (h : truncated? precision = some n) :
    ofFloat precision = .count (n.toNat - 1) := by
  have hfinite := h
  rw [truncated?] at hfinite
  rw [ofFloat]
  split at hfinite
  · rename_i hread
    rw [hread, h, Option.getD_some]
  · cases hfinite

/-- Only the count of digits matters. -/
theorem general_congr {precision precision' : Float}
    (h : Significance.ofFloat precision = Significance.ofFloat precision') (x : Float) :
    general x precision = general x precision' := by
  unfold general
  rw [h]

/-- With up to 21 digits the text of a number is read as the double that is nearest to the number rounded to these
    digits. -/
theorem ofText?_general {x : Float} {negative : Bool} {mant : Nat} {exp : Int}
    (hread : read x = .finite negative mant exp) {precision : Float} {p : Nat}
    (hprecision : truncated? precision = some (p : Int)) (hp : 1 ≤ p) (hp' : p ≤ 21) {cs : List Char}
    (h : general x precision = .ok cs) :
    ∃ d, (∀ d', RoundsTo p (magnitude mant exp) d' ↔ d' = d) ∧ ofText? cs = some (d.toFloat negative) := by
  have hcount : Significance.ofFloat precision = Significance.ofFloat (ofNat p) := by
    rw [Significance.ofFloat_of_truncated? hprecision, Int.toNat_natCast,
      Significance.ofFloat_ofNat (representable_of_lt (by omega))]
  obtain ⟨d, body, hround, hgeneral, hvalue, -⟩ := general_of_finite hread hp (by omega)
  rw [general_congr hcount, hgeneral] at h
  obtain rfl := Except.ok.inj h
  have hstands : d.exp + p - 1 < -4 ∨ p ≤ d.exp + p - 1 ∨ magnitude mant exp < 10 ^ 21 := by
    rcases lt_or_ge (magnitude mant exp) (10 ^ 21) with hsmall | hlarge
    · exact .inr (.inr hsmall)
    · obtain ⟨extra, rfl⟩ : ∃ extra, p = extra + 1 := ⟨p - 1, by omega⟩
      have hpower : (10 : ℚ) ^ ((21 - extra : Int) + extra) = 10 ^ 21 := by
        rw [sub_add_cancel]
        norm_num
      have hexp := ((hround d).mpr rfl).le_exp (hpower.trans_le hlarge)
      omega
  obtain ⟨m, hm, hsame⟩ := hvalue hstands
  obtain ⟨body', m', hbody, hunsigned⟩ := (written_general hgeneral).exists_unsigned hread
  rw [← List.append_cancel_left hbody] at hunsigned
  have hread' : m.toFloat negative = d.toFloat negative := by
    rw [Decimal.toFloat, Decimal.toFloat, Decimal.nearestCode_of_value_eq hsame]
  obtain rfl : m' = m := Option.some.inj (hunsigned.read.symm.trans hm)
  exact ⟨d, hround, by rw [hunsigned.ofText?, hread']⟩

end ArrayCalc.Number
