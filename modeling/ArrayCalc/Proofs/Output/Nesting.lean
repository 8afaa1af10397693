import ArrayCalc.Output.Columns
import ArrayCalc.Proofs.Text.Words
import ArrayCalc.Proofs.Tensor.Nested
import ArrayCalc.Proofs.Tensor.Order

namespace ArrayCalc

namespace Nested

/-- A text with every bracket set off from what stands beside it. -/
def spaced (cs : List Char) : List Char :=
  cs.flatMap fun c => if c = '[' ∨ c = ']' then [' ', c, ' '] else [c]

/-- The brackets of a text and the words between them. -/
def pieces (cs : List Char) : List (List Char) :=
  Text.words (spaced cs)

/-- Takes one piece in. A state has the lists that are not closed yet, the innermost first, and the items of
    each, the last first. -/
def step (state : List (List (Nested (List Char)))) (piece : List Char) :
    Option (List (List (Nested (List Char)))) :=
  match state with
  | [] => none
  | items :: rest =>
    if piece = ['['] then some ([] :: items :: rest)
    else if piece = [']'] then
      match rest with
      | [] => none
      | outer :: rest => some ((.list items.reverse :: outer) :: rest)
    else some ((.leaf piece :: items) :: rest)

/-- Reads lists in brackets whose items are divided by white space. -/
def read? (cs : List Char) : Option (Nested (List Char)) :=
  match (pieces cs).foldlM step [[]] with
  | some [[v]] => some v
  | _ => none

/-- Inside every list that is open, a text stands for the given items. -/
def Reads (cs : List Char) (vs : List (Nested (List Char))) : Prop :=
  ∀ items rest, (pieces cs).foldlM step (items :: rest) = some ((vs.reverse ++ items) :: rest)

theorem read?_of_reads {cs : List Char} {v : Nested (List Char)} (h : Reads cs [v]) : read? cs = some v := by
  rw [read?, h]
  rfl

section

variable {cs : List Char}

theorem spaced_append (cs ds : List Char) : spaced (cs ++ ds) = spaced cs ++ spaced ds :=
  List.flatMap_append

theorem spaced_of_notMem (hopen : '[' ∉ cs) (hclose : ']' ∉ cs) : spaced cs = cs := by
  have hkept : ∀ c ∈ cs, (if c = '[' ∨ c = ']' then [' ', c, ' '] else [c]) = [c] := by
    intro c hc
    rw [if_neg]
    rintro (rfl | rfl)
    · exact hopen hc
    · exact hclose hc
  rw [spaced, List.flatMap_congr hkept, List.flatMap_singleton']

theorem pieces_of_notMem (hopen : '[' ∉ cs) (hclose : ']' ∉ cs) : pieces cs = Text.words cs := by
  rw [pieces, spaced_of_notMem hopen hclose]

/-- Blanks divide pieces. -/
theorem pieces_append_blanks_append {run : List Char} (hne : run ≠ []) (hrun : ∀ c ∈ run, Text.isBlank c = true)
    (cs ds : List Char) : pieces (cs ++ run ++ ds) = pieces cs ++ pieces ds := by
  have hopen : '[' ∉ run := fun hmem => absurd (hrun '[' hmem) (by decide)
  have hclose : ']' ∉ run := fun hmem => absurd (hrun ']' hmem) (by decide)
  rw [pieces, spaced_append, spaced_append, spaced_of_notMem hopen hclose, Text.words_append_blanks_append hne hrun,
    pieces, pieces]

/-- Brackets are pieces of their own. -/
theorem pieces_bracketed (cs : List Char) : pieces ('[' :: cs ++ [']']) = ['['] :: pieces cs ++ [[']']] := by
  have hspaced : spaced ('[' :: cs ++ [']']) = [' ', '['] ++ [' '] ++ (spaced cs ++ [' '] ++ [']', ' ']) := by
    rw [spaced_append, ← List.singleton_append, spaced_append]
    simp [spaced]
  have hspace : ∀ c ∈ [' '], Text.isBlank c = true := by simp [Text.isBlank_space]
  have hopen : Text.words [' ', '['] = [['[']] := by decide
  have hclose : Text.words [']', ' '] = [[']']] := by decide
  rw [pieces, hspaced, Text.words_append_blanks_append (by simp) hspace, Text.words_append_blanks_append (by simp) hspace,
    hopen, hclose]
  rfl

/-- Pieces that are no brackets become items one by one. -/
theorem foldlM_step_leaves {ws : List (List Char)} (h : ∀ w ∈ ws, w ≠ ['['] ∧ w ≠ [']'])
    (items : List (Nested (List Char))) (rest : List (List (Nested (List Char)))) :
    ws.foldlM step (items :: rest) = some (((ws.map leaf).reverse ++ items) :: rest) := by
  induction ws generalizing items with
  | nil => rfl
  | cons w ws ih =>
    obtain ⟨hopen, hclose⟩ := h w List.mem_cons_self
    have hstep : step (items :: rest) w = some ((leaf w :: items) :: rest) := by
      simp [step, hopen, hclose]
    rw [List.foldlM_cons, hstep]
    simpa using ih (fun w hw => h w (List.mem_cons_of_mem _ hw)) (leaf w :: items)

/-- A text without brackets stands for its words. -/
theorem reads_words (hopen : '[' ∉ cs) (hclose : ']' ∉ cs) : Reads cs ((Text.words cs).map leaf) := by
  intro items rest
  rw [pieces_of_notMem hopen hclose]
  apply foldlM_step_leaves
  intro w hw
  have hsub := (Text.mem_words hw).2.2.subset
  constructor
  · rintro rfl
    exact hopen (hsub (by simp))
  · rintro rfl
    exact hclose (hsub (by simp))

/-- Texts with blanks between them stand for the items of all of them. -/
theorem reads_intercalate {sep : List Char} (hne : sep ≠ []) (hsep : ∀ c ∈ sep, Text.isBlank c = true)
    {parts : List (List Char)} {vss : List (List (Nested (List Char)))} (h : List.Forall₂ Reads parts vss) :
    Reads (sep.intercalate parts) vss.flatten := by
  induction h with
  | nil => exact fun items rest => rfl
  | @cons part vs parts vss hpart htail ih =>
    cases htail with
    | nil => simpa using hpart
    | cons hnext htail =>
      intro items rest
      rw [List.intercalate_cons_cons, pieces_append_blanks_append hne hsep, List.foldlM_append, hpart]
      simpa using ih (vs.reverse ++ items) rest

/-- A text in brackets stands for one list. -/
theorem reads_bracketed {vs : List (Nested (List Char))} (h : Reads cs vs) : Reads ('[' :: cs ++ [']']) [list vs] := by
  intro items rest
  have hopen : step (items :: rest) ['['] = some ([] :: items :: rest) := rfl
  have hclose : step ((vs.reverse ++ []) :: items :: rest) [']'] = some ((list vs :: items) :: rest) := by
    simp [step]
  rw [pieces_bracketed, List.cons_append, List.foldlM_cons, hopen]
  simp only [Option.bind_eq_bind, Option.bind_some, List.foldlM_append, h [] (items :: rest), List.foldlM_cons, hclose]
  rfl

end

end Nested

namespace Output

open Nested

/-- What the block at a given place of an array stands for: a list for each axis, and in the innermost ones the words
    of its texts. -/
def block (texts : Array (List Char)) : Shape → Nat → List (Nested (List Char))
  | [], start => (Text.words (texts.getD start [])).map leaf
  | d :: ds, start => [list ((List.range d).flatMap fun i => block texts ds (start + i * Shape.size ds))]

theorem getD_mem_or_eq_nil (texts : Array (List Char)) (k : Nat) :
    texts.getD k [] ∈ texts.toList ∨ texts.getD k [] = [] := by
  rw [Array.getD]
  split
  · exact .inl (by simp)
  · exact .inr rfl

theorem reads_brackets {texts : Array (List Char)} (h : ∀ text ∈ texts.toList, '[' ∉ text ∧ ']' ∉ text) (depth : Nat)
    (ds : Shape) (start : Nat) : Reads (brackets texts depth ds start) (block texts ds start) := by
  induction ds generalizing depth start with
  | nil =>
    obtain hmem | hnil := getD_mem_or_eq_nil texts start
    · exact reads_words (h _ hmem).1 (h _ hmem).2
    · rw [brackets, block, hnil]
      exact reads_words List.not_mem_nil List.not_mem_nil
  | cons d ds ih =>
    have hnewline : Text.isBlank '\n' = true := by decide
    rw [brackets, block, List.flatMap_def]
    apply reads_bracketed
    apply reads_intercalate
    · split <;> simp
    · intro c hc
      split at hc
      · rw [List.mem_singleton.mp hc]
        exact Text.isBlank_space
      · rcases List.mem_append.mp hc with hc | hc
        · rwa [List.eq_of_mem_replicate hc]
        · rw [List.eq_of_mem_replicate hc]
          exact Text.isBlank_space
    · rw [List.forall₂_map_left_iff, List.forall₂_map_right_iff, List.forall₂_same]
      exact fun i _ => ih (depth + 1) (start + i * Shape.size ds)

section

variable {α β : Type} {f : α → List β} {xs : List α}

theorem flatMap_eq_of_forall₂ {ys : List β} (h : List.Forall₂ (fun x y => f x = [y]) xs ys) : xs.flatMap f = ys := by
  induction h with
  | nil => rfl
  | cons hxy _ ih => rw [List.flatMap_cons, hxy, ih, List.singleton_append]

theorem length_le_length_flatMap (hne : ∀ x ∈ xs, f x ≠ []) : xs.length ≤ (xs.flatMap f).length := by
  induction xs with
  | nil => exact Nat.le_refl 0
  | cons x xs ih =>
    have hx := List.length_pos_iff.mpr (hne x List.mem_cons_self)
    have hxs := ih fun y hy => hne y (List.mem_cons_of_mem x hy)
    rw [List.flatMap_cons, List.length_append, List.length_cons]
    omega

/-- Lists that are not empty have, put together, as many items as there are lists only if each is a single item. -/
theorem forall₂_singleton_of_length (hne : ∀ x ∈ xs, f x ≠ []) (h : (xs.flatMap f).length = xs.length) :
    List.Forall₂ (fun x y => f x = [y]) xs (xs.flatMap f) := by
  induction xs with
  | nil => exact .nil
  | cons x xs ih =>
    have htail : ∀ y ∈ xs, f y ≠ [] := fun y hy => hne y (List.mem_cons_of_mem x hy)
    have hx := List.length_pos_iff.mpr (hne x List.mem_cons_self)
    have hxs := length_le_length_flatMap htail
    rw [List.flatMap_cons, List.length_append, List.length_cons] at h
    obtain ⟨y, hy⟩ := List.length_eq_one_iff.mp (by omega : (f x).length = 1)
    rw [List.flatMap_cons, hy]
    exact .cons hy (ih htail (by omega))

end

/-- Where every text is one word, a block is one value, and it has the lengths of the block everywhere. -/
theorem exists_flatten?_block {texts : Array (List Char)} {ds : Shape} {start : Nat}
    (h : ∀ k ∈ List.range' start (Shape.size ds), ∃ token, Text.words (texts.getD k []) = [token]) :
    ∃ v tokens, block texts ds start = [v] ∧ v.flatten? ds = some tokens := by
  induction ds generalizing start with
  | nil =>
    obtain ⟨token, htoken⟩ := h start (by simp)
    refine ⟨.leaf token, [token], ?_, by rw [flatten?]⟩
    rw [block, htoken]
    rfl
  | cons d ds ih =>
    rw [Shape.size_cons, Shape.range'_mul] at h
    have hparts : ∀ i ∈ List.range d, ∃ v, block texts ds (start + i * Shape.size ds) = [v] ∧
        ∃ tokens, v.flatten? ds = some tokens := by
      intro i hi
      obtain ⟨v, tokens, hv, htokens⟩ := ih fun k hk => h k (List.mem_flatMap.mpr ⟨i, hi, hk⟩)
      exact ⟨v, hv, tokens, htokens⟩
    obtain ⟨vs, hvs⟩ := exists_forall₂_iff.mpr hparts
    have hsome : ∀ v ∈ vs, ∃ tokens, v.flatten? ds = some tokens := by
      intro v hv
      obtain ⟨i, -, hpart⟩ := exists_of_mem_forall₂ hvs v hv
      exact hpart.2
    obtain ⟨xss, hxss⟩ := exists_forall₂_iff.mpr hsome
    have hitems := flatMap_eq_of_forall₂ (hvs.imp fun _ _ hpart => hpart.1)
    refine ⟨.list vs, xss.flatten, by rw [block, hitems], ?_⟩
    rw [flatten?_list_eq_some_iff, ← hvs.length_eq, List.length_range]
    exact ⟨rfl, xss, hxss, rfl⟩

theorem block_ne_nil {texts : Array (List Char)} {ds : Shape} {start : Nat}
    (hne : ∀ k ∈ List.range' start (Shape.size ds), Text.words (texts.getD k []) ≠ []) : block texts ds start ≠ [] := by
  cases ds with
  | nil =>
    rw [block, ne_eq, List.map_eq_nil_iff]
    exact hne start (by simp)
  | cons d ds =>
    rw [block]
    exact List.cons_ne_nil _ _

/-- A block that has the lengths of its shape everywhere has one word at every place. -/
theorem forall₂_of_flatten?_block {texts : Array (List Char)} {ds : Shape} {start : Nat} {v : Nested (List Char)}
    {tokens : List (List Char)} (hne : ∀ k ∈ List.range' start (Shape.size ds), Text.words (texts.getD k []) ≠ [])
    (hblock : block texts ds start = [v]) (hflatten : v.flatten? ds = some tokens) :
    List.Forall₂ (fun k token => Text.words (texts.getD k []) = [token]) (List.range' start (Shape.size ds)) tokens := by
  induction ds generalizing start v tokens with
  | nil =>
    rw [block, List.map_eq_singleton_iff] at hblock
    obtain ⟨token, hwords, rfl⟩ := hblock
    rw [flatten?, Option.some_inj] at hflatten
    rw [← hflatten]
    exact .cons hwords .nil
  | cons d ds ih =>
    rw [block, List.cons.injEq] at hblock
    obtain ⟨rfl, -⟩ := hblock
    obtain ⟨hlength, xss, hxss, rfl⟩ := flatten?_list_eq_some_iff.mp hflatten
    rw [Shape.size_cons, Shape.range'_mul] at hne ⊢
    have hpart : ∀ i ∈ List.range d, ∀ k ∈ List.range' (start + i * Shape.size ds) (Shape.size ds),
        Text.words (texts.getD k []) ≠ [] :=
      fun i hi k hk => hne k (List.mem_flatMap.mpr ⟨i, hi, hk⟩)
    have hitems := forall₂_singleton_of_length (fun i hi => block_ne_nil (hpart i hi))
      (by rw [hlength, List.length_range])
    rw [List.flatMap_def]
    apply List.rel_flatten
    rw [List.forall₂_map_left_iff]
    exact forall₂_trans hitems hxss fun i hi v ys hv hys => ih (hpart i hi) hv hys

/-- An array in brackets is read as nested lists with the lengths of its shape exactly if each text is a single word;
    then these words are read, in their order. -/
theorem read?_brackets {texts : Array (List Char)} (h : ∀ text ∈ texts.toList, '[' ∉ text ∧ ']' ∉ text)
    (hne : ∀ text ∈ texts.toList, Text.words text ≠ []) {s : Shape} (hrank : s ≠ [])
    (hsize : texts.size = Shape.size s) :
    ∃ v, read? (brackets texts 0 s 0) = some v ∧ ∀ tokens, v.flatten? s = some tokens ↔
      List.Forall₂ (fun text token => Text.words text = [token]) texts.toList tokens := by
  have hplaces (tokens : List (List Char)) :
      List.Forall₂ (fun text token => Text.words text = [token]) texts.toList tokens ↔
        List.Forall₂ (fun k token => Text.words (texts.getD k []) = [token]) (List.range' 0 (Shape.size s)) tokens := by
    rw [← hsize, ← map_getD_range' texts [], List.forall₂_map_left_iff]
  obtain ⟨v, hv⟩ : ∃ v, block texts s 0 = [v] := by
    cases s with
    | nil => contradiction
    | cons d ds => exact ⟨_, by rw [block]⟩
  have hreads := reads_brackets h 0 s 0
  rw [hv] at hreads
  refine ⟨v, read?_of_reads hreads, fun tokens => ?_⟩
  rw [hplaces]
  constructor
  · intro hflatten
    refine forall₂_of_flatten?_block (fun k hk => hne _ ?_) hv hflatten
    rw [← map_getD_range' texts [], hsize]
    exact List.mem_map_of_mem hk
  · intro hwords
    have hsingle : ∀ k ∈ List.range' 0 (Shape.size s), ∃ token, Text.words (texts.getD k []) = [token] :=
      exists_forall₂_iff.mp ⟨tokens, hwords⟩
    obtain ⟨v', tokens', hv', hflatten⟩ := exists_flatten?_block hsingle
    obtain rfl : v = v' := List.singleton_inj.mp (hv.symm.trans hv')
    have hwords' := forall₂_of_flatten?_block (fun k hk => ?_) hv hflatten
    · have hunique : Relator.RightUnique fun k token => Text.words (texts.getD k []) = [token] :=
        fun k token token' htoken htoken' => List.singleton_inj.mp (htoken.symm.trans htoken')
      rw [hflatten, hunique.forall₂ hwords' hwords]
    · obtain ⟨token, htoken⟩ := hsingle k hk
      rw [htoken]
      exact List.cons_ne_nil _ _

end Output

end ArrayCalc
