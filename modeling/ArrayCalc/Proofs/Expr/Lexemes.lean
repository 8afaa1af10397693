import ArrayCalc.Proofs.Expr.Letters
import ArrayCalc.Proofs.Expr.Token

namespace ArrayCalc.Lexer

/-- What a token looks like: a mark by itself, or a text without structural characters in which points only stand
    before digits and not after names. -/
structure IsToken (t : List Char) : Prop where
  ne_nil : t ≠ []
  visible : ∀ c ∈ t, Text.isBlank c = false
  form : t ∈ Token.marks ∨
    (∀ c ∈ structural, c ∉ t) ∧
      ∀ u v, t = u ++ '.' :: v → (∃ d ∈ v.head?, d.isDigit = true) ∧ ∀ c ∈ u.getLast?, isNameChar c = false

theorem letterForPipe_sublist (cs : List Char) : (letterForPipe cs).Sublist cs := by
  fun_induction letterForPipe cs with
  | case1 cs ih => exact ((((ih.cons_cons '}').cons 'E').cons 'P').cons 'I').cons_cons 'P' |>.cons_cons '{'
  | case2 c cs _ ih => exact ih.cons_cons c
  | case3 => exact List.Sublist.slnil

theorem dropBraces_sublist (cs : List Char) : (dropBraces cs).Sublist cs := by
  fun_induction dropBraces cs with
  | case1 c cs _ ih => exact ((ih.cons '}').cons_cons c).cons '{'
  | case2 c cs _ ih => exact ih.cons_cons '{'
  | case3 c cs _ ih => exact ih.cons_cons c
  | case4 => exact List.Sublist.slnil

/-- Characters are only left out when placeholders lose their braces. -/
theorem unbrace_sublist (cs : List Char) : (unbrace cs).Sublist cs :=
  (dropBraces_sublist _).trans (letterForPipe_sublist cs)

theorem filter_spaceStructural (cs : List Char) :
    (spaceStructural cs).filter (fun c => !Text.isBlank c) = cs.filter fun c => !Text.isBlank c := by
  induction cs with
  | nil => rfl
  | cons c cs ih =>
    rw [spaceStructural, List.flatMap_cons, ← spaceStructural, List.filter_append, ih]
    split
    · next hc => simp [Text.isBlank_space, not_isBlank_of_structural hc]
    · cases hblank : Text.isBlank c <;> simp [hblank]

theorem filter_spaceDots (named : Bool) (cs : List Char) :
    (spaceDots named cs).filter (fun c => !Text.isBlank c) = cs.filter fun c => !Text.isBlank c := by
  induction cs generalizing named with
  | nil => rfl
  | cons c cs ih =>
    rw [spaceDots]
    split
    · simp [Text.isBlank_space, List.filter_cons, ih]
    · simp [List.filter_cons, ih]

/-- Only blanks, and the braces around placeholders, are not in the tokens of a text. -/
theorem flatten_tokens (source : List Char) :
    (tokens source).flatten = (unbrace source).filter fun c => !Text.isBlank c := by
  rw [tokens, Text.flatten_words, filter_spaceDots, filter_spaceStructural]

theorem mem_of_mem_tokens {source t : List Char} (ht : t ∈ tokens source) {c : Char} (hc : c ∈ t) : c ∈ source := by
  have hkept : c ∈ (unbrace source).filter fun c => !Text.isBlank c := by
    rw [← flatten_tokens]
    exact List.mem_flatten_of_mem ht hc
  exact (unbrace_sublist source).subset (List.mem_filter.mp hkept).1

/-- A structural character is a whole token: the text is cut at each of them. -/
theorem structural_of_mem_tokens {source t : List Char} (ht : t ∈ tokens source) :
    (∃ c ∈ structural, t = [c]) ∨ ∀ c ∈ structural, c ∉ t := by
  by_cases hcut : ∃ c ∈ structural, c ∈ source
  · obtain ⟨c, hc, hmem⟩ := hcut
    obtain ⟨u, v, rfl⟩ := List.append_of_mem hmem
    rw [tokens_append_structural hc, List.mem_append, List.mem_cons] at ht
    obtain hfront | rfl | hback := ht
    · exact structural_of_mem_tokens hfront
    · exact .inl ⟨c, hc, rfl⟩
    · exact structural_of_mem_tokens hback
  · exact .inr fun c hc hmem => hcut ⟨c, hc, mem_of_mem_tokens ht hmem⟩
termination_by source.length
decreasing_by
  all_goals
    subst_vars
    simp only [List.length_append, List.length_cons]
    omega

/-- Where a name ends before a point, a space has been put between them. -/
theorem not_infix_spaceDots (named : Bool) (cs : List Char) :
    (named = true → (spaceDots named cs).head? ≠ some '.') ∧
      ∀ c, isNameChar c = true → ¬ [c, '.'] <:+: spaceDots named cs := by
  induction cs generalizing named with
  | nil => simp [spaceDots]
  | cons d cs ih =>
    have hspace : isNameChar ' ' = false := by decide
    have hpoint : isNameChar '.' = false := by decide
    rw [spaceDots]
    split
    · next hcut =>
      obtain ⟨rfl, -⟩ := hcut
      refine ⟨by simp, fun c hc hinfix => ?_⟩
      simp only [List.infix_cons_iff, List.cons_prefix_cons] at hinfix
      obtain ⟨rfl, -⟩ | ⟨rfl, -⟩ | ⟨rfl, -⟩ | hinfix := hinfix
      · simp [hspace] at hc
      · simp [hpoint] at hc
      · simp [hspace] at hc
      · exact (ih _).2 c hc hinfix
    · next hkept =>
      refine ⟨?_, fun c hc hinfix => ?_⟩
      · rintro rfl hhead
        exact hkept ⟨Option.some.inj hhead, .inl rfl⟩
      · simp only [List.infix_cons_iff, List.cons_prefix_cons] at hinfix
        obtain ⟨rfl, hprefix⟩ | hinfix := hinfix
        · apply (ih _).1 hc
          obtain ⟨rest, hrest⟩ := hprefix
          simp [← hrest]
        · exact (ih _).2 c hc hinfix

theorem not_isNameChar_before_point {source u v : List Char} (ht : u ++ '.' :: v ∈ tokens source) :
    ∀ c ∈ u.getLast?, isNameChar c = false := by
  intro c hlast
  obtain ⟨front, rfl⟩ := List.getLast?_eq_some_iff.mp hlast
  rw [Bool.eq_false_iff]
  intro hname
  have hpair : [c, '.'] <:+: front ++ [c] ++ '.' :: v := ⟨front, v, by simp⟩
  exact (not_infix_spaceDots _ _).2 c hname (hpair.trans (Text.mem_words ht).2.2)

theorem isToken_of_mem_tokens {source t : List Char} (ht : t ∈ tokens source) : IsToken t := by
  obtain ⟨hne, hvisible, -⟩ := Text.mem_words ht
  refine ⟨hne, hvisible, ?_⟩
  obtain ⟨c, hc, rfl⟩ | hfree := structural_of_mem_tokens ht
  · left
    simp only [structural, List.mem_cons, List.not_mem_nil, or_false] at hc
    simp only [Token.marks, List.mem_cons, List.cons.injEq, and_true, List.not_mem_nil, or_false]
    tauto
  · obtain rfl | hdigits := pointsBeforeDigits_of_mem_tokens ht
    · exact .inl (by decide)
    · refine .inr ⟨hfree, fun u v hsplit => ⟨hdigits u v hsplit, ?_⟩⟩
      rw [hsplit] at ht
      exact not_isNameChar_before_point ht

/-- Structural characters and blanks cut a text into parts with tokens of their own, wherever they stand. All tokens
    look as tokens should, and one after another they are the text without the braces of placeholders and without
    blanks. -/
theorem tokens_compositional :
    (∀ u v : List Char,
      (∀ c ∈ ['+', '-', '*', '@', '^', '(', ')', ','], tokens (u ++ c :: v) = tokens u ++ [c] :: tokens v) ∧
      ∀ b, Text.isBlank b = true → tokens (u ++ b :: v) = tokens u ++ tokens v) ∧
    ∀ source, (∀ t ∈ tokens source, IsToken t) ∧
      (tokens source).flatten = (unbrace source).filter fun c => !Text.isBlank c :=
  ⟨fun u v => ⟨fun _ hc => tokens_append_structural hc u v, fun _ hb => tokens_append_blank hb u v⟩,
    fun source => ⟨fun _ ht => isToken_of_mem_tokens ht, flatten_tokens source⟩⟩

/-- A cut inside a placeholder, and one between a point and its digit. -/
theorem tokens_compositional_cuts :
    tokens "{A-}.5".toList = [['{', 'A'], ['-'], ['}', '.', '5']] ∧
      tokens "x. 5".toList = [['x'], ['.'], ['5']] ∧ IsToken ['}', '.', '5'] := by
  obtain ⟨hcuts, hall⟩ := tokens_compositional
  have hopen : tokens ['{', 'A'] = [['{', 'A']] := by decide +kernel
  have hclose : tokens ['}', '.', '5'] = [['}', '.', '5']] := by decide +kernel
  have hpoint : tokens ['x', '.'] = [['x'], ['.']] := by decide +kernel
  have hdigit : tokens ['5'] = [['5']] := by decide +kernel
  have hminus := (hcuts ['{', 'A'] ['}', '.', '5']).1 '-' (by decide)
  have hblank := (hcuts ['x', '.'] ['5']).2 ' ' (by decide)
  rw [hopen, hclose] at hminus
  rw [hpoint, hdigit] at hblank
  exact ⟨hminus, hblank, (hall ['}', '.', '5']).1 _ (by simp [hclose])⟩

end ArrayCalc.Lexer
