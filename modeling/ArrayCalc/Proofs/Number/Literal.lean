import ArrayCalc.Expr.Token
import ArrayCalc.Proofs.Expr.Lexing

namespace ArrayCalc.Number

/-- A text of decimal digits only. -/
def AllDigits (cs : List Char) : Prop :=
  ∀ c ∈ cs, c.isDigit = true

/-- `\d+(\.\d*)?|\.\d+` and the decimal that it writes. -/
inductive Significand : List Char → Decimal → Prop where
  | whole {ds : List Char} (hds : AllDigits ds) (hne : ds ≠ []) : Significand ds ⟨ofDigits ds, 0⟩
  | point {ds ps : List Char} (hds : AllDigits ds) (hps : AllDigits ps) (hne : ds ≠ [] ∨ ps ≠ []) :
      Significand (ds ++ '.' :: ps) ⟨ofDigits (ds ++ ps), -ps.length⟩

/-- A significand with `([eE]\d+)?` after it: the numeric literals of expressions. -/
inductive Literal : List Char → Decimal → Prop where
  | plain {cs : List Char} {d : Decimal} (h : Significand cs d) : Literal cs d
  | scaled {cs ks : List Char} {d : Decimal} {mark : Char} (h : Significand cs d)
      (hmark : mark = 'e' ∨ mark = 'E') (hks : AllDigits ks) (hne : ks ≠ []) :
      Literal (cs ++ mark :: ks) ⟨d.coeff, ofDigits ks + d.exp⟩

theorem AllDigits.append {cs ds : List Char} (hc : AllDigits cs) (hd : AllDigits ds) : AllDigits (cs ++ ds) := by
  intro c hmem
  exact (List.mem_append.mp hmem).elim (hc c) (hd c)

theorem AllDigits.all {cs : List Char} (h : AllDigits cs) : cs.all Char.isDigit = true := by
  simpa [AllDigits] using h

theorem allDigits_of_all {cs : List Char} (h : cs.all Char.isDigit = true) : AllDigits cs := by
  simpa [AllDigits] using h

/-- Digits are cut off a text up to the first other character. -/
theorem spanDigits_append {ds : List Char} (hds : AllDigits ds) (rest : List Char)
    (hrest : ∀ c ∈ rest.head?, c.isDigit = false) : spanDigits (ds ++ rest) = (ds, rest) := by
  have htake : rest.takeWhile Char.isDigit = [] := by
    cases rest with
    | nil => rfl
    | cons c cs => simp [hrest c rfl]
  have hdrop : rest.dropWhile Char.isDigit = rest := by
    cases rest with
    | nil => rfl
    | cons c cs => simp [hrest c rfl]
  rw [spanDigits, List.takeWhile_append_of_pos hds, List.dropWhile_append_of_pos hds, htake, hdrop,
    List.append_nil]

/-- What `spanDigits` gives, put together again, with only digits in front. -/
theorem spanDigits_eq {cs ds rest : List Char} (h : spanDigits cs = (ds, rest)) :
    cs = ds ++ rest ∧ AllDigits ds := by
  obtain ⟨rfl, rfl⟩ := Prod.mk.inj h
  exact ⟨List.takeWhile_append_dropWhile.symm, allDigits_of_all List.all_takeWhile⟩

/-- The exponent part that follows a significand, where one does. -/
theorem unsigned?_significand {cs : List Char} {d : Decimal} (h : Significand cs d) (rest : List Char)
    (hrest : ∀ c ∈ rest.head?, c.isDigit = false ∧ c ≠ '.') :
    unsigned? (cs ++ rest) =
      if rest = [] then some d else (exponentPart? rest).map fun exp => ⟨d.coeff, exp + d.exp⟩ := by
  cases h with
  | whole hds hne =>
    have hspan := spanDigits_append hds rest fun c hc => (hrest c hc).1
    rw [unsigned?, hspan]
    cases rest with
    | nil => simp [hne]
    | cons c cs =>
      have hpoint : c ≠ '.' := (hrest c rfl).2
      simp [hne, hpoint]
  | @point ds ps hds hps hne =>
    have hspan : spanDigits (ds ++ '.' :: ps ++ rest) = (ds, '.' :: (ps ++ rest)) := by
      rw [List.append_assoc]
      exact spanDigits_append hds _ (by simp)
    have hspan' := spanDigits_append hps rest fun c hc => (hrest c hc).1
    have hsome : ¬ (ds = [] ∧ ps = []) := fun h => hne.elim (absurd h.1) (absurd h.2)
    rw [unsigned?, hspan]
    simp only [hspan', if_neg hsome]
    cases rest with
    | nil => simp
    | cons c cs => simp [Int.sub_eq_add_neg]

theorem exponentPart?_digits {ks : List Char} {mark : Char} (hmark : mark = 'e' ∨ mark = 'E')
    (hks : AllDigits ks) (hne : ks ≠ []) : exponentPart? (mark :: ks) = some (ofDigits ks : Int) := by
  cases ks with
  | nil => exact absurd rfl hne
  | cons k ks =>
    have hdigit : k.isDigit = true := hks k (by simp)
    have hplus : k ≠ '+' := by rintro rfl; contradiction
    have hminus : k ≠ '-' := by rintro rfl; contradiction
    have hall := hks.all
    simp [exponentPart?, hmark, hplus, hminus, hall]

theorem unsigned?_literal {cs : List Char} {d : Decimal} (h : Literal cs d) : unsigned? cs = some d := by
  cases h with
  | plain h => simpa using unsigned?_significand h [] (by simp)
  | @scaled cs ks d mark h hmark hks hne =>
    have hhead : mark.isDigit = false ∧ mark ≠ '.' := by rcases hmark with rfl | rfl <;> decide
    rw [unsigned?_significand h _ (by simpa using hhead), exponentPart?_digits hmark hks hne]
    rfl

/-- The characters that unsigned literals and exponents with a sign are made of. -/
def isNumberChar (c : Char) : Bool :=
  c.isDigit || c ∈ ['.', 'e', 'E', '+', '-']

theorem not_isBlank_of_isNumberChar {c : Char} (h : isNumberChar c = true) : Text.isBlank c = false := by
  simp only [isNumberChar, Bool.or_eq_true, decide_eq_true_eq] at h
  rcases h with h | h
  · exact Lexer.not_isBlank_of_isDigit h
  · have hmarks : ∀ mark ∈ ['.', 'e', 'E', '+', '-'], Text.isBlank mark = false := by
      simp [Text.isBlank, Text.blankCodes]
    exact hmarks c h

/-- The opening of a number in another base is no decimal. -/
theorem isNumberChar_of_base {c : Char} (h : c ∈ ['x', 'X', 'o', 'O', 'b', 'B']) : isNumberChar c = false := by
  have hmarks : ∀ mark ∈ ['x', 'X', 'o', 'O', 'b', 'B'], isNumberChar mark = false := by simp [isNumberChar]
  exact hmarks c h

theorem ofText?_eq_signed? {cs : List Char} (hne : cs ≠ []) (hchars : ∀ c ∈ cs, isNumberChar c = true) :
    ofText? cs = signed? cs := by
  rw [ofText?, Text.trim_eq_self fun c hc => not_isBlank_of_isNumberChar (hchars c hc)]
  split
  · contradiction
  · next mark rest =>
    have hmark : mark ∉ ['x', 'X', 'o', 'O', 'b', 'B'] := fun h => by
      simpa [isNumberChar_of_base h] using hchars mark (by simp)
    simp only [List.mem_cons, List.not_mem_nil, or_false, not_or] at hmark
    simp [hmark]
  · rfl

theorem splitSign_of_unsigned? {cs : List Char} {d : Decimal} (h : unsigned? cs = some d) :
    splitSign cs = (false, cs) := by
  unfold splitSign
  split
  · simp [unsigned?, spanDigits, Char.isDigit] at h
  · simp [unsigned?, spanDigits, Char.isDigit] at h
  · rfl

theorem ne_infinity_of_isNumberChar {cs : List Char} (hchars : ∀ c ∈ cs, isNumberChar c = true) :
    cs ≠ "Infinity".toList := by
  rintro rfl
  have h := hchars 'I' (by decide)
  revert h
  decide

/-- An unsigned decimal is read as the double nearest to it. -/
theorem ofText?_of_unsigned? {cs : List Char} {d : Decimal} (h : unsigned? cs = some d)
    (hchars : ∀ c ∈ cs, isNumberChar c = true) : ofText? cs = some (d.toFloat false) := by
  have hne : cs ≠ [] := by
    rintro rfl
    simp [unsigned?, spanDigits] at h
  rw [ofText?_eq_signed? hne hchars, signed?, splitSign_of_unsigned? h]
  simp only [if_neg (ne_infinity_of_isNumberChar hchars), h, Option.map_some]

theorem ofText?_neg_of_unsigned? {cs : List Char} {d : Decimal} (h : unsigned? cs = some d)
    (hchars : ∀ c ∈ cs, isNumberChar c = true) : ofText? ('-' :: cs) = some (d.toFloat true) := by
  have hminus : isNumberChar '-' = true := by decide
  rw [ofText?_eq_signed? (by simp) (by simpa using ⟨hminus, hchars⟩), signed?, splitSign]
  simp only [if_neg (ne_infinity_of_isNumberChar hchars), h, Option.map_some]

theorem isNumberChar_of_allDigits {cs : List Char} (h : AllDigits cs) : ∀ c ∈ cs, isNumberChar c = true :=
  fun c hc => by simp [isNumberChar, h c hc]

theorem Significand.isNumberChar {cs : List Char} {d : Decimal} (h : Significand cs d) :
    ∀ c ∈ cs, isNumberChar c = true := by
  cases h with
  | whole hds _ => exact isNumberChar_of_allDigits hds
  | point hds hps _ =>
    intro c hc
    simp only [List.mem_append, List.mem_cons] at hc
    rcases hc with hc | rfl | hc
    · exact isNumberChar_of_allDigits hds c hc
    · decide
    · exact isNumberChar_of_allDigits hps c hc

theorem Literal.isNumberChar {cs : List Char} {d : Decimal} (h : Literal cs d) :
    ∀ c ∈ cs, isNumberChar c = true := by
  cases h with
  | plain h => exact h.isNumberChar
  | scaled h hmark hks _ =>
    intro c hc
    simp only [List.mem_append, List.mem_cons] at hc
    rcases hc with hc | rfl | hc
    · exact h.isNumberChar c hc
    · rcases hmark with rfl | rfl <;> decide
    · exact isNumberChar_of_allDigits hks c hc

/-- A numeric literal is read as the double nearest to its decimal. -/
theorem ofText?_literal {cs : List Char} {d : Decimal} (h : Literal cs d) :
    ofText? cs = some (d.toFloat false) :=
  ofText?_of_unsigned? (unsigned?_literal h) h.isNumberChar

end ArrayCalc.Number

namespace ArrayCalc.Token

open Number

/-- The test for numeric literals, after a significand. -/
theorem isNumeric_significand {cs : List Char} {d : Decimal} (h : Significand cs d) (rest : List Char)
    (hrest : ∀ c ∈ rest.head?, c.isDigit = false ∧ c ≠ '.') :
    isNumeric (cs ++ rest) =
      match rest with
      | [] => true
      | mark :: digits => (mark = 'e' || mark = 'E') && digits ≠ [] && digits.all Char.isDigit := by
  cases h with
  | whole hds hne =>
    have hspan := spanDigits_append hds rest fun c hc => (hrest c hc).1
    rw [isNumeric, hspan]
    cases rest with
    | nil => simp [hne]
    | cons c cs =>
      have hpoint : c ≠ '.' := (hrest c rfl).2
      simp [hne, hpoint]
  | @point ds ps hds hps hne =>
    have hspan : spanDigits (ds ++ '.' :: ps ++ rest) = (ds, '.' :: (ps ++ rest)) := by
      rw [List.append_assoc]
      exact spanDigits_append hds _ (by simp)
    have hspan' := spanDigits_append hps rest fun c hc => (hrest c hc).1
    have hsome : ¬ (ds = [] ∧ ps = []) := fun h => hne.elim (absurd h.1) (absurd h.2)
    rw [isNumeric, hspan]
    simp only [hspan', if_neg hsome]
    cases rest <;> rfl

/-- A significand with nothing or an unsigned exponent after it is a literal. -/
theorem exists_literal_append {cs : List Char} {d : Decimal} (h : Significand cs d) (rest : List Char)
    (hrest : (match rest with
      | [] => true
      | mark :: digits => (mark = 'e' || mark = 'E') && digits ≠ [] && digits.all Char.isDigit) = true) :
    ∃ d, Literal (cs ++ rest) d := by
  cases rest with
  | nil => exact ⟨d, by simpa using Literal.plain h⟩
  | cons mark ks =>
    simp only [ne_eq, Bool.and_eq_true, Bool.or_eq_true, decide_eq_true_eq] at hrest
    obtain ⟨⟨hmark, hne⟩, hks⟩ := hrest
    exact ⟨_, .scaled h hmark (allDigits_of_all hks) hne⟩

/-- The test accepts exactly the numeric literals. -/
theorem isNumeric_iff {cs : List Char} : isNumeric cs = true ↔ ∃ d, Literal cs d := by
  constructor
  · intro hnum
    rcases hspan : spanDigits cs with ⟨whole, rest⟩
    obtain ⟨rfl, hwhole⟩ := spanDigits_eq hspan
    rw [isNumeric, hspan] at hnum
    by_cases hpoint : ∃ tail, rest = '.' :: tail
    · obtain ⟨tail, rfl⟩ := hpoint
      rcases hspan' : spanDigits tail with ⟨places, after⟩
      obtain ⟨rfl, hplaces⟩ := spanDigits_eq hspan'
      by_cases hempty : whole = [] ∧ places = []
      · simp only [hspan', if_pos hempty] at hnum
        contradiction
      · have hne : whole ≠ [] ∨ places ≠ [] := Decidable.not_and_iff_not_or_not.mp hempty
        simp only [hspan', if_neg hempty] at hnum
        have hlit := exists_literal_append (.point hwhole hplaces hne) after
        simp only [List.append_assoc, List.cons_append] at hlit
        exact hlit (by cases after <;> exact hnum)
    · have hne : whole ≠ [] := by
        rintro rfl
        cases rest <;> simp_all
      refine exists_literal_append (.whole hwhole hne) rest ?_
      cases rest with
      | nil => rfl
      | cons c tail =>
        have hc : c ≠ '.' := by
          rintro rfl
          exact hpoint ⟨tail, rfl⟩
        simpa [hne, hc] using hnum
  · rintro ⟨d, h⟩
    cases h with
    | plain h => simpa using isNumeric_significand h [] (by simp)
    | @scaled cs ks d mark h hmark hks hne =>
      have hhead : mark.isDigit = false ∧ mark ≠ '.' := by rcases hmark with rfl | rfl <;> decide
      rw [isNumeric_significand h _ (by simpa using hhead)]
      simp [hmark, hne, hks.all]

end ArrayCalc.Token
