import ArrayCalc.Expr.Lexer
import ArrayCalc.Proofs.Text.Words

namespace ArrayCalc.Lexer

theorem toNat_of_isUpper {c : Char} (h : isUpper c = true) : 65 ≤ c.toNat ∧ c.toNat ≤ 90 := by
  simpa [isUpper, Char.le_def, UInt32.le_iff_toNat_le] using h

theorem toNat_of_isDigit {c : Char} (h : c.isDigit = true) : 48 ≤ c.toNat ∧ c.toNat ≤ 57 := by
  simpa [Char.isDigit, UInt32.le_iff_toNat_le] using h

theorem toNat_of_isNameChar {c : Char} (h : isNameChar c = true) : 65 ≤ c.toNat ∧ c.toNat ≤ 122 := by
  simp only [isNameChar, Bool.or_eq_true, Bool.and_eq_true, decide_eq_true_eq] at h
  rcases h with (hupper | ⟨hlow, hhigh⟩) | rfl
  · have hrange := toNat_of_isUpper hupper
    omega
  · rw [Char.le_def, UInt32.le_iff_toNat_le] at hlow hhigh
    change 97 ≤ c.toNat at hlow
    change c.toNat ≤ 122 at hhigh
    omega
  · decide

theorem not_isNameChar_of_isBlank {c : Char} (h : Text.isBlank c = true) : isNameChar c = false := by
  have hbounds := Text.bounds_of_isBlank h
  rw [Bool.eq_false_iff]
  intro hname
  have hrange := toNat_of_isNameChar hname
  omega

theorem not_isUpper_of_isDigit {c : Char} (h : c.isDigit = true) : isUpper c = false := by
  have hdigit := toNat_of_isDigit h
  rw [Bool.eq_false_iff]
  intro hupper
  have hrange := toNat_of_isUpper hupper
  omega

theorem not_isDigit_of_isUpper {c : Char} (h : isUpper c = true) : c.isDigit = false := by
  rw [Bool.eq_false_iff]
  intro hdigit
  rw [not_isUpper_of_isDigit hdigit] at h
  contradiction

theorem not_isNameChar_of_isDigit {c : Char} (h : c.isDigit = true) : isNameChar c = false := by
  have hdigit := toNat_of_isDigit h
  rw [Bool.eq_false_iff]
  intro hname
  have hrange := toNat_of_isNameChar hname
  omega

theorem not_isDigit_of_isBlank {c : Char} (h : Text.isBlank c = true) : c.isDigit = false := by
  have hbounds := Text.bounds_of_isBlank h
  rw [Bool.eq_false_iff]
  intro hdigit
  have hrange := toNat_of_isDigit hdigit
  omega

theorem not_isBlank_of_isDigit {c : Char} (h : c.isDigit = true) : Text.isBlank c = false := by
  rw [Bool.eq_false_iff]
  intro hblank
  rw [not_isDigit_of_isBlank hblank] at h
  contradiction

theorem not_isBlank_of_isUpper {c : Char} (h : isUpper c = true) : Text.isBlank c = false := by
  have hrange := toNat_of_isUpper h
  rw [Bool.eq_false_iff]
  intro hblank
  have hbounds := Text.bounds_of_isBlank hblank
  omega

/-- A structural character is no blank, digit or capital letter, and no point or brace. -/
theorem unlike_of_structural {c : Char} (hc : c ∈ structural) :
    Text.isBlank c = false ∧ c.isDigit = false ∧ isUpper c = false ∧ c ≠ '.' ∧ c ≠ '{' ∧ c ≠ '}' := by
  simp only [structural, List.mem_cons, List.not_mem_nil, or_false] at hc
  rcases hc with rfl | rfl | rfl | rfl | rfl | rfl | rfl | rfl <;> decide

theorem not_isBlank_of_structural {c : Char} (hc : c ∈ structural) : Text.isBlank c = false :=
  (unlike_of_structural hc).1

/-- A literal at the front of a text that goes on with a character it does not have lies before that character. -/
theorem prefix_of_prefix_append {literal u v : List Char} {c : Char} (hc : c ∉ literal)
    (h : literal <+: u ++ c :: v) : literal <+: u := by
  obtain ⟨rest, hrest⟩ := h
  rcases List.append_eq_append_iff.mp hrest with ⟨k, hu, -⟩ | ⟨k, hliteral, hv⟩
  · exact ⟨k, hu.symm⟩
  · cases k with
    | nil => exact ⟨[], by rw [hliteral, List.append_nil, List.append_nil]⟩
    | cons d k =>
      cases hv
      exact absurd (by simp [hliteral]) hc

/-- The placeholder of piped data, written out. -/
def pipeBraces : List Char := ['{', 'P', 'I', 'P', 'E', '}']

theorem letterForPipe_cons {c : Char} {cs : List Char} (h : ¬ pipeBraces <+: c :: cs) :
    letterForPipe (c :: cs) = c :: letterForPipe cs := by
  rw [letterForPipe]
  rintro rest rfl rfl
  exact h ⟨rest, rfl⟩

/-- The rest of a text does not close a brace: it begins otherwise than with a capital letter and a closing brace. -/
theorem dropBraces_cons {c : Char} {cs : List Char}
    (h : ∀ x rest, cs = x :: '}' :: rest → c = '{' → isUpper x = false) :
    dropBraces (c :: cs) = c :: dropBraces cs := by
  by_cases hpattern : ∃ x rest, cs = x :: '}' :: rest ∧ c = '{'
  · obtain ⟨x, rest, rfl, rfl⟩ := hpattern
    rw [dropBraces, if_neg (by simp [h x rest rfl rfl])]
  · rw [dropBraces]
    rintro x rest rfl rfl
    exact hpattern ⟨x, rest, rfl, rfl⟩

/-- A character other than an opening brace stands before the removal of the mark for piped data where it stands
    after it. -/
theorem of_letterForPipe_eq_cons {cs rest : List Char} {x : Char} (hx : x ≠ '{') (h : letterForPipe cs = x :: rest) :
    ∃ tail, cs = x :: tail ∧ letterForPipe tail = rest := by
  fun_cases letterForPipe cs with
  | case1 tail =>
    rw [letterForPipe] at h
    cases h
    contradiction
  | case2 c tail hne =>
    rw [letterForPipe] at h
    · cases h
      exact ⟨tail, rfl, rfl⟩
    · exact hne
  | case3 => cases h

theorem unbrace_pipe (cs : List Char) : unbrace ('{' :: 'P' :: 'I' :: 'P' :: 'E' :: '}' :: cs) = 'P' :: unbrace cs := by
  rw [unbrace, letterForPipe, dropBraces, if_pos (by decide), unbrace]

/-- A placeholder in braces becomes its letter. -/
theorem unbrace_letter {c : Char} (hc : isUpper c = true) (cs : List Char) :
    unbrace ('{' :: c :: '}' :: cs) = c :: unbrace cs := by
  have hopen : ¬ pipeBraces <+: '{' :: c :: '}' :: cs := by
    rintro ⟨rest, hrest⟩
    cases hrest
  have hletter : ¬ pipeBraces <+: c :: '}' :: cs := by
    rintro ⟨rest, hrest⟩
    cases hrest
  have hclose : ¬ pipeBraces <+: '}' :: cs := by
    rintro ⟨rest, hrest⟩
    cases hrest
  rw [unbrace, letterForPipe_cons hopen, letterForPipe_cons hletter, letterForPipe_cons hclose, dropBraces, if_pos hc,
    unbrace]

/-- A character that no placeholder in braces begins with is kept. -/
theorem unbrace_cons {c : Char} {cs : List Char} (hpipe : ¬ pipeBraces <+: c :: cs)
    (hletter : ∀ x rest, cs = x :: '}' :: rest → c = '{' → isUpper x = false) : unbrace (c :: cs) = c :: unbrace cs := by
  rw [unbrace, letterForPipe_cons hpipe, dropBraces_cons, unbrace]
  intro x rest hrest hc
  by_cases hx : x = '{'
  · rw [hx]
    decide
  · obtain ⟨tail, rfl, htail⟩ := of_letterForPipe_eq_cons hx hrest
    obtain ⟨rest, rfl, -⟩ := of_letterForPipe_eq_cons (by decide) htail
    exact hletter x rest rfl hc

/-- A character that no placeholder in braces has. -/
def Apart (c : Char) : Prop :=
  c ≠ '{' ∧ c ≠ '}' ∧ isUpper c = false

section

variable {c : Char} (hc : Apart c) (u v : List Char)

include hc

theorem letterForPipe_append : letterForPipe (u ++ c :: v) = letterForPipe u ++ c :: letterForPipe v := by
  have hpipe : c ∉ pipeBraces := by
    obtain ⟨hopen, hclose, hupper⟩ := hc
    intro h
    simp only [pipeBraces, List.mem_cons, List.not_mem_nil, or_false] at h
    rcases h with rfl | rfl | rfl | rfl | rfl | rfl <;> contradiction
  have hcons : letterForPipe (c :: v) = c :: letterForPipe v := by
    refine letterForPipe_cons fun h => ?_
    have hnil := prefix_of_prefix_append (u := []) hpipe h
    simp [pipeBraces] at hnil
  fun_induction letterForPipe u with
  | case1 cs ih =>
    simp only [List.cons_append, letterForPipe]
    rw [ih]
  | case2 d cs hne ih =>
    have hpattern : ¬ pipeBraces <+: d :: cs := by
      rintro ⟨rest, hrest⟩
      cases hrest
      exact hne rest rfl rfl
    have hcopied : ¬ pipeBraces <+: d :: (cs ++ c :: v) := fun h =>
      hpattern (prefix_of_prefix_append (u := d :: cs) hpipe h)
    rw [List.cons_append, letterForPipe_cons hcopied, ih, List.cons_append]
  | case3 => exact hcons

theorem dropBraces_append : dropBraces (u ++ c :: v) = dropBraces u ++ c :: dropBraces v := by
  obtain ⟨hopen, hclose, hupper⟩ := hc
  have hcons : dropBraces (c :: v) = c :: dropBraces v := dropBraces_cons fun _ _ _ h => absurd h hopen
  fun_induction dropBraces u with
  | case1 d cs h ih => simp [dropBraces, h, ih]
  | case2 d cs h ih =>
    simp only [List.cons_append] at ih ⊢
    rw [dropBraces, if_neg h, ih]
  | case3 d cs hne ih =>
    rw [List.cons_append, dropBraces_cons, ih, List.cons_append]
    -- the brace could only be closed by the characters after `u`
    rintro x rest hx rfl
    match cs, hx with
    | [], hx =>
      cases hx
      exact hupper
    | [y], hx =>
      cases hx
      contradiction
    | _ :: _ :: cs, hx =>
      cases hx
      exact absurd rfl (hne x cs rfl)
  | case4 => exact hcons

theorem unbrace_append : unbrace (u ++ c :: v) = unbrace u ++ c :: unbrace v := by
  rw [unbrace, letterForPipe_append hc, dropBraces_append hc, unbrace, unbrace]

end

theorem spaceStructural_append (u v : List Char) :
    spaceStructural (u ++ v) = spaceStructural u ++ spaceStructural v :=
  List.flatMap_append

/-- A blank ends whatever stands before it and lets a point begin a number. -/
theorem spaceDots_append {b : Char} (hb : Text.isBlank b = true) (u v : List Char) (named : Bool) :
    spaceDots named (u ++ b :: v) = spaceDots named u ++ b :: spaceDots false v := by
  have hdot : b ≠ '.' := by
    rintro rfl
    contradiction
  have hdigit : b.isDigit = false := not_isDigit_of_isBlank hb
  have hname : isNameChar b = false := not_isNameChar_of_isBlank hb
  induction u generalizing named with
  | nil => simp [spaceDots, hdot, hname]
  | cons d u ih =>
    have hhead : (u ++ b :: v).head?.all (fun d => !d.isDigit) = u.head?.all fun d => !d.isDigit := by
      cases u <;> simp [hdigit]
    simp only [List.cons_append, spaceDots, ih, hhead]
    split <;> rfl

theorem apart_of_isBlank {c : Char} (hc : Text.isBlank c = true) : Apart c := by
  refine ⟨?_, ?_, ?_⟩
  · rintro rfl
    contradiction
  · rintro rfl
    contradiction
  · rw [Bool.eq_false_iff]
    intro hupper
    rw [not_isBlank_of_isUpper hupper] at hc
    contradiction

theorem apart_of_structural {c : Char} (hc : c ∈ structural) : Apart c := by
  obtain ⟨-, -, hupper, -, hopen, hclose⟩ := unlike_of_structural hc
  exact ⟨hopen, hclose, hupper⟩

/-- A structural character is a token of its own and has no part in those around it. -/
theorem tokens_append_structural {c : Char} (hc : c ∈ structural) (u v : List Char) :
    tokens (u ++ c :: v) = tokens u ++ [c] :: tokens v := by
  obtain ⟨hvisible, -, -, hdot, -, -⟩ := unlike_of_structural hc
  have hspace : spaceStructural (c :: unbrace v) = ' ' :: [c] ++ ' ' :: spaceStructural (unbrace v) := by
    simp [spaceStructural, hc]
  have halone : spaceDots false [c] = [c] := by simp [spaceDots, hdot]
  have hword : Text.words [c] = [[c]] := Text.words_of_not_isBlank (by simp) (by simpa using hvisible)
  rw [tokens, unbrace_append (apart_of_structural hc), spaceStructural_append, hspace, List.cons_append,
    spaceDots_append Text.isBlank_space, spaceDots_append Text.isBlank_space, halone,
    Text.words_append_blank Text.isBlank_space, Text.words_append_blank Text.isBlank_space, hword]
  rfl

theorem tokens_nil : tokens [] = [] := by
  rw [tokens, unbrace, letterForPipe, dropBraces]
  rfl

theorem tokens_cons_structural {c : Char} (hc : c ∈ structural) (cs : List Char) :
    tokens (c :: cs) = [c] :: tokens cs := by
  have happend := tokens_append_structural hc [] cs
  rwa [tokens_nil] at happend

theorem tokens_concat_structural {c : Char} (hc : c ∈ structural) (cs : List Char) :
    tokens (cs ++ [c]) = tokens cs ++ [[c]] := by
  rw [tokens_append_structural hc, tokens_nil]

/-- A blank stands between tokens. -/
theorem tokens_append_blank {b : Char} (hb : Text.isBlank b = true) (u v : List Char) :
    tokens (u ++ b :: v) = tokens u ++ tokens v := by
  have hstructural : b ∉ structural := by
    intro hmem
    rw [not_isBlank_of_structural hmem] at hb
    contradiction
  have hspace : spaceStructural (b :: unbrace v) = b :: spaceStructural (unbrace v) := by
    simp [spaceStructural, hstructural]
  rw [tokens, unbrace_append (apart_of_isBlank hb), spaceStructural_append, hspace, spaceDots_append hb,
    Text.words_append_blank hb]
  rfl

theorem tokens_cons_blank {b : Char} (hb : Text.isBlank b = true) (cs : List Char) : tokens (b :: cs) = tokens cs := by
  have happend := tokens_append_blank hb [] cs
  rwa [tokens_nil] at happend

end ArrayCalc.Lexer
