import Mathlib
import ArrayCalc.Text.Split

namespace ArrayCalc.Text

/-- No blank lies among the visible characters of ASCII. -/
theorem bounds_of_isBlank {c : Char} (h : isBlank c = true) : c.toNat ≤ 32 ∨ 127 < c.toNat := by
  have hall : ∀ code ∈ blankCodes, code ≤ 32 ∨ 127 < code := by decide
  exact hall c.toNat (List.contains_iff_mem.mp h)

theorem isBlank_space : isBlank ' ' = true := by
  decide

/-- A text is a run of characters at which it is not cut, or such a run before a cut and a shorter text. -/
theorem cut_induction (p : Char → Bool) {motive : List Char → Prop}
    (run : ∀ w, (∀ c ∈ w, p c = false) → motive w)
    (cut : ∀ w b rest, (∀ c ∈ w, p c = false) → p b = true → motive rest → motive (w ++ b :: rest))
    (cs : List Char) : motive cs := by
  generalize hlength : cs.length = n
  induction n using Nat.strongRecOn generalizing cs with
  | ind n ih =>
    have hwhole := List.takeWhile_append_dropWhile (p := fun c => !p c) (l := cs)
    have hrun : ∀ c ∈ cs.takeWhile fun c => !p c, p c = false := fun c hc => by
      simpa using List.all_eq_true.mp List.all_takeWhile c hc
    cases hrest : cs.dropWhile fun c => !p c with
    | nil =>
      rw [hrest, List.append_nil] at hwhole
      rw [← hwhole]
      exact run _ hrun
    | cons b rest =>
      have hb : p b = true := by
        have hhead := List.head_dropWhile_not (l := cs) (fun c => !p c) (by simp [hrest])
        simpa [hrest] using hhead
      rw [hrest] at hwhole
      have hshort : rest.length < n := by
        rw [← hlength, ← hwhole, List.length_append, List.length_cons]
        omega
      rw [← hwhole]
      exact cut _ b rest hrun hb (ih rest.length hshort rest rfl)

/-- A text is a run of visible characters, or such a run before a blank and a shorter text. -/
theorem runs_induction {motive : List Char → Prop}
    (run : ∀ w, (∀ c ∈ w, isBlank c = false) → motive w)
    (cut : ∀ w b rest, (∀ c ∈ w, isBlank c = false) → isBlank b = true → motive rest → motive (w ++ b :: rest))
    (cs : List Char) : motive cs :=
  cut_induction isBlank run cut cs

/-- A text with a visible character is not trimmed away. -/
theorem trim_ne_nil {cs : List Char} {c : Char} (hc : c ∈ cs) (h : isBlank c = false) : trim cs ≠ [] := by
  intro htrim
  rw [trim, List.reverse_eq_nil_iff, List.dropWhile_eq_nil_iff] at htrim
  rw [← List.takeWhile_append_dropWhile (p := isBlank) (l := cs), List.mem_append] at hc
  have hblank : isBlank c = true :=
    hc.elim (List.all_eq_true.mp List.all_takeWhile c) fun hrest => htrim c (List.mem_reverse.mpr hrest)
  rw [h] at hblank
  cases hblank

theorem words_nil : words [] = [] :=
  rfl

/-- A text without blanks is a single word. -/
theorem words_of_not_isBlank {cs : List Char} (hne : cs ≠ []) (h : ∀ c ∈ cs, isBlank c = false) :
    words cs = [cs] := by
  rw [words, List.splitOnP_eq_singleton (by simpa using h)]
  simp [hne]

/-- Words with a blank between them are read back one by one. -/
theorem words_intercalate {blank : Char} (hblank : isBlank blank = true) {ws : List (List Char)}
    (hne : ∀ w ∈ ws, w ≠ []) (h : ∀ w ∈ ws, ∀ c ∈ w, isBlank c = false) : words ([blank].intercalate ws) = ws := by
  induction ws with
  | nil => rfl
  | cons w ws ih =>
    have hw := words_of_not_isBlank (hne w List.mem_cons_self) (h w List.mem_cons_self)
    cases ws with
    | nil => simpa using hw
    | cons next ws =>
      have hrest := ih (fun w hmem => hne w (List.mem_cons_of_mem _ hmem)) fun w hmem => h w (List.mem_cons_of_mem _ hmem)
      rw [List.intercalate_cons_cons, List.append_assoc, List.singleton_append, words_append_blank hblank, hw, hrest]
      rfl

theorem mem_intercalate {sep : List Char} {parts : List (List Char)} {c : Char} (h : c ∈ sep.intercalate parts) :
    c ∈ sep ∨ ∃ part ∈ parts, c ∈ part := by
  induction parts with
  | nil => cases h
  | cons part parts ih =>
    cases parts with
    | nil => exact .inr ⟨part, List.mem_cons_self, by simpa using h⟩
    | cons next parts =>
      rw [List.intercalate_cons_cons, List.append_assoc, List.mem_append, List.mem_append] at h
      obtain h | h | h := h
      · exact .inr ⟨part, List.mem_cons_self, h⟩
      · exact .inl h
      · obtain h | ⟨other, hother, h⟩ := ih h
        · exact .inl h
        · exact .inr ⟨other, List.mem_cons_of_mem _ hother, h⟩

theorem mem_intercalate_of_mem {sep part : List Char} {parts : List (List Char)} (hpart : part ∈ parts) {c : Char}
    (hc : c ∈ part) : c ∈ sep.intercalate parts := by
  induction parts with
  | nil => cases hpart
  | cons first parts ih =>
    cases parts with
    | nil => simpa [List.mem_singleton.mp hpart] using hc
    | cons next parts =>
      rw [List.intercalate_cons_cons, List.append_assoc, List.mem_append, List.mem_append]
      rcases List.mem_cons.mp hpart with rfl | hpart
      · exact .inl hc
      · exact .inr (.inr (ih hpart))

theorem length_intercalate (sep : List Char) (parts : List (List Char)) :
    (sep.intercalate parts).length = (parts.map List.length).sum + sep.length * (parts.length - 1) := by
  induction parts with
  | nil => rfl
  | cons part parts ih =>
    cases parts with
    | nil => simp
    | cons next parts =>
      rw [List.intercalate_cons_cons, List.length_append, List.length_append, ih]
      simp only [List.map_cons, List.sum_cons, List.length_cons, Nat.add_sub_cancel, Nat.mul_succ]
      omega

/-- A separator between the last two parts. -/
theorem intercalate_concat (sep : List Char) {parts : List (List Char)} (hne : parts ≠ []) (last : List Char) :
    sep.intercalate (parts ++ [last]) = sep.intercalate parts ++ sep ++ last := by
  induction parts with
  | nil => contradiction
  | cons part parts ih =>
    cases parts with
    | nil => simp [List.intercalate_cons_cons]
    | cons next parts =>
      have hrest := ih (List.cons_ne_nil next parts)
      rw [List.cons_append] at hrest
      rw [List.cons_append, List.cons_append, List.intercalate_cons_cons, hrest, List.intercalate_cons_cons]
      simp only [List.append_assoc]

theorem eq_of_mem_words {cs w : List Char} (h : ∀ c ∈ cs, isBlank c = false) (hw : w ∈ words cs) : w = cs := by
  by_cases hne : cs = []
  · rw [hne, words_nil] at hw
    cases hw
  · rwa [words_of_not_isBlank hne h, List.mem_singleton] at hw

/-- A word is a piece of its text, not empty and with no blank in it. -/
theorem mem_words {cs w : List Char} (hw : w ∈ words cs) : w ≠ [] ∧ (∀ c ∈ w, isBlank c = false) ∧ w <:+: cs := by
  induction cs using runs_induction with
  | run run hrun =>
    obtain rfl := eq_of_mem_words hrun hw
    refine ⟨?_, hrun, List.infix_rfl⟩
    rintro rfl
    simp [words_nil] at hw
  | cut run b rest hrun hb ih =>
    rw [words_append_blank hb, List.mem_append] at hw
    obtain hfront | hrest := hw
    · obtain rfl := eq_of_mem_words hrun hfront
      refine ⟨?_, hrun, List.infix_append' [] w (b :: rest)⟩
      rintro rfl
      simp [words_nil] at hfront
    · obtain ⟨hne, hvisible, hinfix⟩ := ih hrest
      exact ⟨hne, hvisible, hinfix.trans ((List.suffix_cons b rest).trans (List.suffix_append run _)).isInfix⟩

theorem flatten_words_of_not_isBlank {w : List Char} (h : ∀ c ∈ w, isBlank c = false) : (words w).flatten = w := by
  by_cases hne : w = []
  · simp [hne, words_nil]
  · simp [words_of_not_isBlank hne h]

/-- The words of a text hold all of it but the blanks. -/
theorem flatten_words (cs : List Char) : (words cs).flatten = cs.filter fun c => !isBlank c := by
  induction cs using runs_induction with
  | run w hw =>
    have hkept : w.filter (fun c => !isBlank c) = w := by simpa using hw
    rw [flatten_words_of_not_isBlank hw, hkept]
  | cut w b rest hw hb ih =>
    have hkept : w.filter (fun c => !isBlank c) = w := by simpa using hw
    rw [words_append_blank hb, List.flatten_append, flatten_words_of_not_isBlank hw, ih, List.filter_append, hkept]
    simp [hb]

theorem words_cons_blank {b : Char} (hb : isBlank b = true) (cs : List Char) : words (b :: cs) = words cs := by
  have happend := words_append_blank hb [] cs
  rwa [words_nil] at happend

theorem words_blanks_append {run : List Char} (hrun : ∀ c ∈ run, isBlank c = true) (cs : List Char) :
    words (run ++ cs) = words cs := by
  induction run with
  | nil => rfl
  | cons b run ih =>
    rw [List.cons_append, words_cons_blank (hrun b (by simp)), ih fun c hc => hrun c (by simp [hc])]

/-- A run of blanks cuts a text, however long it is. -/
theorem words_append_blanks_append {run : List Char} (hne : run ≠ []) (hrun : ∀ c ∈ run, isBlank c = true)
    (u v : List Char) : words (u ++ run ++ v) = words u ++ words v := by
  cases run with
  | nil => contradiction
  | cons b run =>
    rw [List.append_assoc, List.cons_append, words_append_blank (hrun b (by simp)),
      words_blanks_append fun c hc => hrun c (by simp [hc])]

theorem words_append_blanks {run : List Char} (hrun : ∀ c ∈ run, isBlank c = true) (cs : List Char) :
    words (cs ++ run) = words cs := by
  by_cases hne : run = []
  · rw [hne, List.append_nil]
  · have happend := words_append_blanks_append hne hrun cs []
    rwa [words_nil, List.append_nil, List.append_nil] at happend

theorem words_of_blanks {run : List Char} (hrun : ∀ c ∈ run, isBlank c = true) : words run = [] :=
  words_append_blanks hrun []

/-- What is trimmed away on either side is blank. -/
theorem exists_trim (cs : List Char) : ∃ before after, (∀ c ∈ before, isBlank c = true) ∧
    (∀ c ∈ after, isBlank c = true) ∧ cs = before ++ trim cs ++ after := by
  refine ⟨cs.takeWhile isBlank, ((cs.dropWhile isBlank).reverse.takeWhile isBlank).reverse, ?_, ?_, ?_⟩
  · exact fun c hc => List.all_eq_true.mp List.all_takeWhile c hc
  · exact fun c hc => List.all_eq_true.mp List.all_takeWhile c (List.mem_reverse.mp hc)
  · rw [trim, List.append_assoc, ← List.reverse_append, List.takeWhile_append_dropWhile, List.reverse_reverse,
      List.takeWhile_append_dropWhile]

/-- Blanks in front of a text that does not begin with one. -/
theorem dropWhile_blanks_append {run cs : List Char} (hrun : ∀ c ∈ run, isBlank c = true)
    (hhead : ∀ c ∈ cs.head?, isBlank c = false) : (run ++ cs).dropWhile isBlank = cs := by
  rw [List.dropWhile_append_of_pos hrun]
  cases cs with
  | nil => rfl
  | cons c cs => exact List.dropWhile_cons_of_neg (by simp [hhead c rfl])

/-- Blanks around a text are trimmed away, and no more than these if the text does not begin or end with one. -/
theorem trim_surrounded {before cs after : List Char} (hbefore : ∀ c ∈ before, isBlank c = true)
    (hafter : ∀ c ∈ after, isBlank c = true) (hhead : ∀ c ∈ cs.head?, isBlank c = false)
    (hlast : ∀ c ∈ cs.getLast?, isBlank c = false) : trim (before ++ cs ++ after) = cs := by
  by_cases hne : cs = []
  · subst hne
    rw [List.append_nil, trim, List.dropWhile_append_of_pos hbefore, List.dropWhile_eq_nil_iff.mpr hafter]
    rfl
  · have hfront : ∀ c ∈ (cs ++ after).head?, isBlank c = false := by
      rwa [List.head?_append_of_ne_nil cs hne]
    have hback : ∀ c ∈ cs.reverse.head?, isBlank c = false := by
      rwa [List.head?_reverse]
    rw [trim, List.append_assoc, dropWhile_blanks_append hbefore hfront, List.reverse_append,
      dropWhile_blanks_append (by simpa using hafter) hback, List.reverse_reverse]

/-- A text without blanks is not trimmed. -/
theorem trim_eq_self {cs : List Char} (h : ∀ c ∈ cs, isBlank c = false) : trim cs = cs := by
  have hwhole : trim ([] ++ cs ++ []) = cs :=
    trim_surrounded nofun nofun (fun c hc => h c (List.mem_of_mem_head? hc)) fun c hc => h c (List.mem_of_mem_getLast? hc)
  simpa using hwhole

theorem words_trim (cs : List Char) : words (trim cs) = words cs := by
  obtain ⟨before, after, hbefore, hafter, hwhole⟩ := exists_trim cs
  conv_rhs => rw [hwhole, words_append_blanks hafter, words_blanks_append hbefore]

theorem trim_eq_nil_iff {cs : List Char} : trim cs = [] ↔ words cs = [] := by
  constructor
  · intro htrim
    rw [← words_trim, htrim, words_nil]
  · intro hwords
    by_contra htrim
    have hall : ∀ c ∈ cs, isBlank c = true := by
      have hflatten := flatten_words cs
      rw [hwords, List.flatten_nil, eq_comm, List.filter_eq_nil_iff] at hflatten
      simpa using hflatten
    rw [trim, List.dropWhile_eq_nil_iff.mpr hall] at htrim
    exact htrim rfl

end ArrayCalc.Text
