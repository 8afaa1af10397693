import ArrayCalc.Proofs.Expr.Grammar

namespace ArrayCalc.Token

open Number

/-- The texts of the tokens that are not names, literals or letters. -/
def marks : List (List Char) :=
  [['+'], ['-'], ['*'], ['@'], ['^'], ['('], [')'], [','], ['.']]

theorem name_not_mem_marks (f : Builtin) : f.name.toList ∉ marks := by
  cases f <;> decide

theorem two_le_length_name (f : Builtin) : 2 ≤ f.name.toList.length := by
  cases f <;> decide

theorem isNumeric_name (f : Builtin) : isNumeric f.name.toList = false := by
  cases f <;> decide

/-- Only its own name names a function. -/
theorem ofName?_eq_none {cs : List Char} (h : ∀ f : Builtin, f.name.toList ≠ cs) :
    Builtin.ofName? (String.ofList cs) = none := by
  cases hfind : Builtin.ofName? (String.ofList cs) with
  | none => rfl
  | some f =>
    refine absurd ?_ (h f)
    rw [Builtin.name_of_ofName? hfind, String.toList_ofList]

theorem ofText_name (f : Builtin) : ofText f.name.toList = name f := by
  have hmarks := name_not_mem_marks f
  simp only [marks, List.mem_cons, List.not_mem_nil, or_false, not_or] at hmarks
  unfold ofText
  split <;> simp_all [Builtin.ofName?_name]

theorem isNumeric_letter {c : Char} (hc : Lexer.isUpper c = true) : isNumeric [c] = false := by
  have hdigit : c.isDigit = false := Lexer.not_isDigit_of_isUpper hc
  have hpoint : c ≠ '.' := by
    rintro rfl
    contradiction
  simp [isNumeric, spanDigits, hdigit, hpoint]

theorem ofText_letter {c : Char} (hc : Lexer.isUpper c = true) : ofText [c] = letter c := by
  have hmarks : [c] ∉ marks := by
    intro hmem
    simp only [marks, List.mem_cons, List.cons.injEq, and_true, List.not_mem_nil, or_false] at hmem
    rcases hmem with rfl | rfl | rfl | rfl | rfl | rfl | rfl | rfl | rfl <;> contradiction
  have hname : Builtin.ofName? (String.ofList [c]) = none := by
    refine ofName?_eq_none fun f hf => ?_
    have hlen := two_le_length_name f
    simp [hf] at hlen
  simp only [marks, List.mem_cons, List.not_mem_nil, or_false, not_or] at hmarks
  unfold ofText
  split <;> simp_all [isNumeric_letter hc]

theorem ofText_literal {text : List Char} {d : Decimal} (h : Literal text d) : ofText text = number text := by
  have hnum : isNumeric text = true := isNumeric_iff.mpr ⟨d, h⟩
  have hmarks : text ∉ marks := by
    intro hmem
    have hnone : ∀ cs ∈ marks, isNumeric cs = false := by decide
    simp [hnone text hmem] at hnum
  have hname : Builtin.ofName? (String.ofList text) = none := by
    refine ofName?_eq_none fun f hf => ?_
    simp [← hf, isNumeric_name f] at hnum
  simp only [marks, List.mem_cons, List.not_mem_nil, or_false, not_or] at hmarks
  unfold ofText
  split <;> simp_all

theorem isUpper_of_ofText {cs : List Char} {c : Char} (h : ofText cs = letter c) : Lexer.isUpper c = true := by
  unfold ofText at h
  split at h <;> try contradiction
  split at h
  · contradiction
  · split at h
    · contradiction
    · split at h
      · split at h
        · cases h
          assumption
        · contradiction
      · contradiction

theorem literal_of_ofText {cs text : List Char} (h : ofText cs = number text) : ∃ d, Literal text d := by
  unfold ofText at h
  split at h <;> try contradiction
  split at h
  · contradiction
  · split at h
    · next hnum =>
      cases h
      exact isNumeric_iff.mp hnum
    · split at h
      · split at h <;> contradiction
      · contradiction

end ArrayCalc.Token
