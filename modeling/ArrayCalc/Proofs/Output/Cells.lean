import ArrayCalc.Output.Columns
import ArrayCalc.Proofs.Except
import ArrayCalc.Proofs.Number.Order
import ArrayCalc.Proofs.Number.Places
import ArrayCalc.Proofs.Number.Written
import ArrayCalc.Proofs.Text.Words

namespace ArrayCalc.Output

open Number

section Width

theorem foldl_max_le_iff {ns : List Nat} {m n : Nat} : ns.foldl max m ≤ n ↔ m ≤ n ∧ ∀ k ∈ ns, k ≤ n := by
  induction ns generalizing m with
  | nil => simp
  | cons k ns ih => rw [List.foldl_cons, ih, Nat.max_le, List.forall_mem_cons, and_assoc]

theorem width_le_iff {texts : List (List Char)} {n : Nat} : width texts ≤ n ↔ ∀ text ∈ texts, text.length ≤ n := by
  rw [width, foldl_max_le_iff, List.forall_mem_map]
  exact and_iff_right (Nat.zero_le n)

theorem length_le_width {texts : List (List Char)} {text : List Char} (h : text ∈ texts) : text.length ≤ width texts :=
  width_le_iff.mp (Nat.le_refl _) text h

end Width

namespace Cell

/-- The parts of a cell with nothing between them. -/
def text (c : Cell) : List Char :=
  c.whole ++ c.fraction ++ c.exponent

/-- A cell without white space and brackets that has more than an exponent. -/
structure Solid (c : Cell) : Prop where
  chars : ∀ ch ∈ c.text, Text.isBlank ch = false ∧ ch ≠ '[' ∧ ch ≠ ']'
  filled : c.whole ++ c.fraction ≠ []

/-- A cell in columns of given widths. -/
def aligned (wholes fractions exponents : Nat) (c : Cell) : List Char :=
  Text.padLeft wholes ' ' c.whole ++ Text.padRight fractions ' ' c.fraction ++ Text.padLeft exponents ' ' c.exponent

section

variable {c : Cell} {wholes fractions exponents : Nat}

theorem length_aligned (hwhole : c.whole.length ≤ wholes) (hfraction : c.fraction.length ≤ fractions)
    (hexponent : c.exponent.length ≤ exponents) :
    (c.aligned wholes fractions exponents).length = wholes + fractions + exponents := by
  simp only [aligned, Text.padLeft, Text.padRight, List.length_append, List.length_replicate]
  omega

theorem mem_aligned {ch : Char} (h : ch ∈ c.aligned wholes fractions exponents) : ch = ' ' ∨ ch ∈ c.text := by
  simp only [aligned, text, Text.padLeft, Text.padRight, List.mem_append, List.mem_replicate] at h ⊢
  tauto

/-- A cell in its columns is a single word, unless it has an exponent that its column fills up. -/
theorem words_aligned (h : c.Solid) (hfraction : c.exponent ≠ [] → c.fraction.length = fractions)
    (hexponent : c.exponent.length ≤ exponents) :
    Text.words (c.aligned wholes fractions exponents) =
      if c.exponent = [] ∨ c.exponent.length = exponents then [c.text] else [c.whole ++ c.fraction, c.exponent] := by
  have hblank (n : Nat) : ∀ ch ∈ List.replicate n ' ', Text.isBlank ch = true := fun ch hch => by
    rw [List.eq_of_mem_replicate hch]
    exact Text.isBlank_space
  have htext : ∀ ch ∈ c.text, Text.isBlank ch = false := fun ch hch => (h.chars ch hch).1
  have hnumber : Text.words (c.whole ++ c.fraction) = [c.whole ++ c.fraction] :=
    Text.words_of_not_isBlank h.filled fun ch hch => htext ch (List.mem_append_left _ hch)
  have hparts : c.aligned wholes fractions exponents =
      List.replicate (wholes - c.whole.length) ' ' ++ (c.whole ++ c.fraction ++
        (List.replicate (fractions - c.fraction.length) ' ' ++ List.replicate (exponents - c.exponent.length) ' ') ++
          c.exponent) := by
    simp only [aligned, Text.padLeft, Text.padRight, List.append_assoc]
  rw [hparts, Text.words_blanks_append (hblank _), List.replicate_append_replicate]
  by_cases hnone : c.exponent = []
  · rw [if_pos (.inl hnone), hnone, List.append_nil, Text.words_append_blanks (hblank _), hnumber, text, hnone,
      List.append_nil]
  · rw [hfraction hnone, Nat.sub_self, Nat.zero_add]
    by_cases hfull : c.exponent.length = exponents
    · rw [if_pos (.inr hfull), hfull, Nat.sub_self, List.replicate_zero, List.append_nil]
      exact Text.words_of_not_isBlank (List.append_ne_nil_of_left_ne_nil h.filled _) htext
    · have hgap : List.replicate (exponents - c.exponent.length) ' ' ≠ [] := by
        rw [ne_eq, List.replicate_eq_nil_iff]
        omega
      have hword : Text.words c.exponent = [c.exponent] :=
        Text.words_of_not_isBlank hnone fun ch hch => htext ch (List.mem_append_right _ hch)
      rw [if_neg (not_or.mpr ⟨hnone, hfull⟩), Text.words_append_blanks_append hgap (hblank _), hnumber, hword]
      rfl

end

end Cell

/-- The exponents that are there have one length. -/
def EvenExponents (cs : List Cell) : Prop :=
  ∀ c ∈ cs, ∀ c' ∈ cs, c.exponent ≠ [] → c'.exponent ≠ [] → c.exponent.length = c'.exponent.length

/-- Cells that can be lined up: those with an exponent all fill the column of the fractions. -/
structure Alignable (cs : List Cell) : Prop where
  solid : ∀ c ∈ cs, c.Solid
  fraction : ∀ c ∈ cs, c.exponent ≠ [] → c.fraction.length = width (cs.map Cell.fraction)

theorem align_eq (cs : List Cell) : align cs = cs.map (Cell.aligned (width (cs.map Cell.whole))
    (width (cs.map Cell.fraction)) (width (cs.map Cell.exponent))) :=
  rfl

/-- All cells are lined up in the same width. -/
theorem length_of_mem_align {cs : List Cell} {text : List Char} (h : text ∈ align cs) :
    text.length = width (cs.map Cell.whole) + width (cs.map Cell.fraction) + width (cs.map Cell.exponent) := by
  rw [align_eq] at h
  obtain ⟨c, hc, rfl⟩ := List.mem_map.mp h
  exact Cell.length_aligned (length_le_width (List.mem_map_of_mem hc)) (length_le_width (List.mem_map_of_mem hc))
    (length_le_width (List.mem_map_of_mem hc))

namespace Alignable

variable {cs : List Cell}

theorem words_ne_nil (h : Alignable cs) : ∀ text ∈ align cs, Text.words text ≠ [] := by
  intro text htext
  rw [align_eq] at htext
  obtain ⟨c, hc, rfl⟩ := List.mem_map.mp htext
  rw [Cell.words_aligned (h.solid c hc) (h.fraction c hc) (length_le_width (List.mem_map_of_mem hc))]
  split <;> exact List.cons_ne_nil _ _

theorem brackets_notMem (h : Alignable cs) : ∀ text ∈ align cs, '[' ∉ text ∧ ']' ∉ text := by
  intro text htext
  rw [align_eq] at htext
  obtain ⟨c, hc, rfl⟩ := List.mem_map.mp htext
  constructor
  · intro hmem
    exact ((h.solid c hc).chars '[' ((Cell.mem_aligned hmem).resolve_left (by decide))).2.1 rfl
  · intro hmem
    exact ((h.solid c hc).chars ']' ((Cell.mem_aligned hmem).resolve_left (by decide))).2.2 rfl

theorem words_eq_singleton_iff (h : Alignable cs) {c : Cell} (hc : c ∈ cs) (token : List Char) :
    Text.words (c.aligned (width (cs.map Cell.whole)) (width (cs.map Cell.fraction)) (width (cs.map Cell.exponent))) =
      [token] ↔ (c.exponent = [] ∨ c.exponent.length = width (cs.map Cell.exponent)) ∧ token = c.text := by
  rw [Cell.words_aligned (h.solid c hc) (h.fraction c hc) (length_le_width (List.mem_map_of_mem hc))]
  split
  · next hfull => simp [hfull, eq_comm]
  · next hgap => simp [hgap]

/-- Every cell is read as a single word exactly if the exponents have one length; then the words are the cells. -/
theorem forall₂_words_iff (h : Alignable cs) (tokens : List (List Char)) :
    List.Forall₂ (fun text token => Text.words text = [token]) (align cs) tokens ↔
      EvenExponents cs ∧ tokens = cs.map Cell.text := by
  rw [align_eq, List.forall₂_map_left_iff]
  constructor
  · intro hwords
    have hcells : List.Forall₂ (fun c token =>
        (c.exponent = [] ∨ c.exponent.length = width (cs.map Cell.exponent)) ∧ token = c.text) cs tokens :=
      ((List.forall₂_and_left cs tokens).mpr ⟨fun c hc => hc, hwords⟩).imp fun c token hcell =>
        (h.words_eq_singleton_iff hcell.1 token).mp hcell.2
    obtain ⟨hfull, htokens⟩ := (List.forall₂_and_left cs tokens).mp hcells
    refine ⟨fun c hc c' hc' hne hne' => ?_, ?_⟩
    · rw [(hfull c hc).resolve_left hne, (hfull c' hc').resolve_left hne']
    · rw [← List.forall₂_eq_eq_eq, List.forall₂_map_right_iff]
      exact htokens.flip
  · rintro ⟨heven, rfl⟩
    rw [List.forall₂_map_right_iff, List.forall₂_same]
    intro c hc
    refine (h.words_eq_singleton_iff hc c.text).mpr ⟨?_, rfl⟩
    by_contra hgap
    obtain ⟨hne, hshort⟩ := not_or.mp hgap
    have hwidest : width (cs.map Cell.exponent) ≤ c.exponent.length := by
      rw [width_le_iff, List.forall_mem_map]
      intro c' hc'
      by_cases hnone : c'.exponent = []
      · rw [hnone]
        exact Nat.zero_le _
      · exact (heven c' hc' c hc hnone hne).le
    exact hshort (Nat.le_antisymm (length_le_width (List.mem_map_of_mem hc)) hwidest)

end Alignable

section

variable {front ps e : List Char}

theorem ofText_point (h : '.' ∉ front) : Cell.ofText (front ++ '.' :: ps) e = ⟨front, '.' :: ps, e⟩ := by
  have hfront : ∀ c ∈ front, decide (c ≠ '.') = true := fun c hc => by simpa using ne_of_mem_of_not_mem hc h
  rw [Cell.ofText, List.takeWhile_append_of_pos hfront, List.dropWhile_append_of_pos hfront]
  simp

theorem ofText_of_notMem (h : '.' ∉ front) : Cell.ofText front e = ⟨front, ['.'], e⟩ := by
  have hfront : ∀ c ∈ front, decide (c ≠ '.') = true := fun c hc => by simpa using ne_of_mem_of_not_mem hc h
  rw [Cell.ofText, List.takeWhile_eq_self_iff.mpr hfront, List.dropWhile_eq_nil_iff.mpr hfront, if_pos rfl]

end

/-- Words and numbers make solid cells. -/
theorem solid_of_chars {c : Cell} (hfilled : c.whole ++ c.fraction ≠ [])
    (h : ∀ ch ∈ c.text, isNumberChar ch = true ∨ ch ∈ ['n', 'a', 'i', 'f']) : c.Solid := by
  have hletters : ∀ ch ∈ ['n', 'a', 'i', 'f'], Text.isBlank ch = false ∧ ch ≠ '[' ∧ ch ≠ ']' := by
    simp [Text.isBlank, Text.blankCodes]
  refine ⟨fun ch hch => ?_, hfilled⟩
  rcases h ch hch with hchar | hletter
  · refine ⟨not_isBlank_of_isNumberChar hchar, ?_, ?_⟩
    · rintro rfl
      exact absurd hchar (by decide)
    · rintro rfl
      exact absurd hchar (by decide)
  · exact hletters ch hletter

/-- Digits around a point, after a sign if need be, with or without an exponent after them. -/
theorem solid_point {ds ps e : List Char} (negative : Bool) (hds : AllDigits ds) (hps : AllDigits ps)
    (he : ∀ ch ∈ e, isNumberChar ch = true) : Cell.Solid ⟨signText negative ++ ds, '.' :: ps, e⟩ := by
  refine solid_of_chars (by simp) fun ch hch => .inl ?_
  simp only [Cell.text, List.mem_append, List.mem_cons] at hch
  obtain ((hch | hch) | rfl | hch) | hch := hch
  · exact isNumberChar_signText negative ch hch
  · exact isNumberChar_of_allDigits hds ch hch
  · decide
  · exact isNumberChar_of_allDigits hps ch hch
  · exact he ch hch

/-- A number in positional notation: the digits that are left of its whole units of the last place. -/
theorem positionalCell_eq {x precision : Float} {negative : Bool} {mant : Nat} {exp : Int}
    (hread : read x = .finite negative mant exp) (hsmall : magnitude mant exp < 10 ^ 21) {places : Nat}
    (hplaces : places? precision = some places) :
    ∃ ds ps, Stripped places (roundPlaces mant exp places) ds ps ∧
      positionalCell precision x = .ok ⟨signText (negative && mant ≠ 0) ++ ds, '.' :: ps, []⟩ := by
  obtain ⟨ds, ps, hstripped, hstrip⟩ := exists_stripRight_places places (roundPlaces mant exp places)
  have hsign : (signText (negative && mant ≠ 0)).getLast? ≠ some '0' := by
    rw [signText]
    split <;> simp
  refine ⟨ds, ps, hstripped, ?_⟩
  rw [positionalCell, hread]
  simp only [hplaces, fixed_eq hsmall]
  rw [hstrip _ hsign]
  split
  · next hzero =>
    rw [List.append_nil, ofText_of_notMem (notMem_signText_append hstripped.whole), (hstripped.kept hzero).1]
  · rw [ofText_point (notMem_signText_append hstripped.whole)]

/-- A number in scientific notation: one digit before the point and the given count of digits after it. -/
theorem scientificCell_eq {x : Float} {negative : Bool} {mant : Nat} {exp : Int}
    (hread : read x = .finite negative mant exp) (places : Nat) :
    ∃ d ps, AllDigits [d] ∧ AllDigits ps ∧ ps.length = places ∧
      scientificCell places x = ⟨signText (negative && mant ≠ 0) ++ [d], '.' :: ps,
        exponentText ((roundSignificant mant exp places).exp + places)⟩ := by
  obtain ⟨d, ps, hdigits, hall, hlength⟩ := exists_exponential_eq mant exp places
  have hd : AllDigits [d] := fun c hc => hall c (List.mem_cons.mpr (.inl (List.mem_singleton.mp hc)))
  refine ⟨d, ps, hd, fun c hc => hall c (List.mem_cons_of_mem d hc), hlength, ?_⟩
  rw [scientificCell, hread]
  simp only [hdigits]
  cases ps with
  | nil => exact ofText_of_notMem (notMem_signText_append hd)
  | cons p ps =>
    have hpoint : pointAfterFirst (d :: p :: ps) = [d] ++ '.' :: p :: ps := rfl
    rw [hpoint, ← List.append_assoc]
    exact ofText_point (notMem_signText_append hd)

theorem exists_value?_of_needsExponent {x : Float} (h : needsExponent x = true) : ∃ v, value? x = some v := by
  rw [needsExponent] at h
  split at h
  · next negative mant exp hread => exact ⟨_, value?_of_read hread⟩
  · cases h

/-- Exactly numbers of a magnitude of `10 ^ 8` and more need an exponent. -/
theorem needsExponent_iff {x : Float} {v : ℚ} (h : value? x = some v) : needsExponent x = true ↔ 10 ^ 8 ≤ |v| := by
  have hlimit : exponentLimit = ofCode false 4726483295884279808 := by decide +kernel
  have hunits : units 4726483295884279808 = 10 ^ 8 * unitsPerOne := by decide +kernel
  have hvalue : codeValue 4726483295884279808 = 10 ^ 8 := by
    have hone : (unitsPerOne : ℚ) ≠ 0 := by exact_mod_cast Nat.ne_of_gt unitsPerOne_pos
    rw [codeValue_eq, hunits, Nat.cast_mul, mul_div_cancel_right₀ _ hone]
    norm_num
  obtain ⟨negative, mant, exp, hread, rfl⟩ := read_of_value? h
  rw [needsExponent, hread, abs_signed, abs_of_nonneg (magnitude_nonneg mant exp)]
  dsimp only
  rw [decide_eq_true_iff, hlimit, ofCode_le_abs_iff hread (by decide), hvalue]

end ArrayCalc.Output
