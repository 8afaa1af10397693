import ArrayCalc.Input.Error
import ArrayCalc.Proofs.Input.TextMatrix

namespace ArrayCalc.TextMatrix

/-- The rows of a text as words: each line is cut at its first comment mark and trimmed, lines with nothing left are
    dropped, and the others are split at their blanks. -/
def tokenRows (text : List Char) : List (List (List Char)) :=
  (((text.splitOn '\n').map fun line => Text.trim (line.takeWhile (· ≠ '#'))).filter (· ≠ [])).map Text.words

/-- Lines that have words, as the reader sees them. -/
def wordRows (lines : List (List Char)) : List (List (List Char)) :=
  (lines.map lineWords).filter (· ≠ [])

theorem tokenRows_eq (text : List Char) : tokenRows text = wordRows (text.splitOn '\n') := by
  have hwords (line : List Char) : Text.words (Text.trim (line.takeWhile (· ≠ '#'))) = lineWords line :=
    Text.words_trim _
  have hkept (line : List Char) : Text.trim (line.takeWhile (· ≠ '#')) ≠ [] ↔ lineWords line ≠ [] :=
    not_congr Text.trim_eq_nil_iff
  rw [tokenRows, wordRows, List.filter_map, List.filter_map, List.map_map]
  congr 1
  · exact funext hwords
  · congr 1
    funext line
    exact decide_eq_decide.mpr (hkept line)

theorem tokenRows_append (u v : List Char) : tokenRows (u ++ '\n' :: v) = tokenRows u ++ tokenRows v := by
  have hsplit : (u ++ '\n' :: v).splitOn '\n' = u.splitOn '\n' ++ v.splitOn '\n' :=
    List.splitOnP_append_cons u v (by simp)
  rw [tokenRows_eq, tokenRows_eq, tokenRows_eq, hsplit, wordRows, List.map_append, List.filter_append]
  rfl

theorem tokenRows_line {line : List Char} (h : '\n' ∉ line) :
    tokenRows line = if lineWords line = [] then [] else [lineWords line] := by
  have hsplit : line.splitOn '\n' = [line] := by
    rw [List.splitOn_eq_splitOnP]
    apply List.splitOnP_eq_singleton
    intro c hc
    simpa using ne_of_mem_of_not_mem hc h
  rw [tokenRows_eq, hsplit, wordRows]
  split
  · next hnil => simp [hnil]
  · next hne => simp [hne]

section

variable {l : List Char}

/-- A comment hides the rest of its line. -/
theorem lineWords_append_of_mem (hl : '#' ∈ l) (x : List Char) : lineWords (l ++ x) = lineWords l := by
  obtain ⟨before, after, rfl, hbefore⟩ := List.eq_append_cons_of_mem hl
  have hkept : ∀ c ∈ before, decide (c ≠ '#') = true := fun c hc => by simpa using ne_of_mem_of_not_mem hc hbefore
  have hcut (rest : List Char) : (before ++ '#' :: rest).takeWhile (fun c => decide (c ≠ '#')) = before := by
    rw [List.takeWhile_append_of_pos hkept]
    simp
  rw [List.append_assoc, List.cons_append, lineWords, lineWords, hcut, hcut]

theorem lineWords_append_of_notMem (hl : '#' ∉ l) (x : List Char) :
    lineWords (l ++ x) = Text.words (l ++ x.takeWhile (· ≠ '#')) := by
  rw [lineWords, List.takeWhile_append_of_pos]
  intro c hc
  simpa using ne_of_mem_of_not_mem hc hl

theorem lineWords_append_comment (note : List Char) : lineWords (l ++ '#' :: note) = lineWords l := by
  by_cases hl : '#' ∈ l
  · exact lineWords_append_of_mem hl _
  · have hself := lineWords_append_of_notMem hl []
    rw [lineWords_append_of_notMem hl]
    simpa using hself.symm

/-- Blanks at the end of a line count for nothing, nor does a carriage return there. -/
theorem lineWords_append_blanks {run : List Char} (hrun : ∀ c ∈ run, Text.isBlank c = true) :
    lineWords (l ++ run) = lineWords l := by
  by_cases hl : '#' ∈ l
  · exact lineWords_append_of_mem hl _
  · have hself := lineWords_append_of_notMem hl []
    rw [List.append_nil, List.takeWhile_nil, List.append_nil] at hself
    have hkept : run.takeWhile (fun c => decide (c ≠ '#')) = run := by
      rw [List.takeWhile_eq_self_iff]
      intro c hc
      rw [decide_eq_true_iff]
      rintro rfl
      exact absurd (hrun '#' hc) (by decide)
    rw [lineWords_append_of_notMem hl, hkept, Text.words_append_blanks hrun, hself]

/-- Between words one run of blanks is as good as another. -/
theorem lineWords_append_blanks_append {run : List Char} (hne : run ≠ []) (hrun : ∀ c ∈ run, Text.isBlank c = true)
    (hl : '#' ∉ l) (r : List Char) :
    lineWords (l ++ run ++ r) = Text.words l ++ lineWords r := by
  have hcomment : '#' ∉ run := fun hmem => absurd (hrun '#' hmem) (by decide)
  have hfront : '#' ∉ l ++ run := by simp [hl, hcomment]
  rw [lineWords_append_of_notMem hfront, Text.words_append_blanks_append hne hrun, lineWords]

end

/-- A piece of a line can be exchanged for another one, if that makes no difference to the words of this line. -/
theorem tokenRows_splice {x y : List Char} (hx : '\n' ∉ x) (hy : '\n' ∉ y) (v : List Char)
    (h : ∀ l, lineWords (l ++ x ++ v.takeWhile (· ≠ '\n')) = lineWords (l ++ y ++ v.takeWhile (· ≠ '\n')))
    (u : List Char) : tokenRows (u ++ x ++ v) = tokenRows (u ++ y ++ v) := by
  induction u using Text.cut_induction (fun c => decide (c = '\n')) with
  | cut l b rest _ hb ih =>
    obtain rfl : b = '\n' := by simpa using hb
    simp only [List.append_assoc, List.cons_append] at ih ⊢
    rw [tokenRows_append, tokenRows_append, ih]
  | run l hl =>
    have hlast : '\n' ∉ l := fun hmem => by simpa using hl '\n' hmem
    have hfirst : '\n' ∉ v.takeWhile (· ≠ '\n') := fun hmem => by
      simpa using List.all_eq_true.mp List.all_takeWhile '\n' hmem
    have hline {z : List Char} (hz : '\n' ∉ z) : '\n' ∉ l ++ z ++ v.takeWhile (· ≠ '\n') := by
      simp only [List.mem_append, not_or]
      exact ⟨⟨hlast, hz⟩, hfirst⟩
    have hsame : tokenRows (l ++ x ++ v.takeWhile (· ≠ '\n')) = tokenRows (l ++ y ++ v.takeWhile (· ≠ '\n')) := by
      rw [tokenRows_line (hline hx), tokenRows_line (hline hy), h]
    have hwhole := List.takeWhile_append_dropWhile (p := (· ≠ '\n')) (l := v)
    cases hrest : v.dropWhile (· ≠ '\n') with
    | nil =>
      rw [hrest, List.append_nil] at hwhole
      rwa [hwhole] at hsame
    | cons b rest =>
      have hb : b = '\n' := by
        have hhead := List.head_dropWhile_not (l := v) (· ≠ '\n') (by rw [hrest]; exact List.cons_ne_nil b rest)
        simp only [hrest, List.head_cons] at hhead
        simpa using hhead
      rw [hrest, hb] at hwhole
      rw [← hwhole, ← List.append_assoc, ← List.append_assoc, tokenRows_append, tokenRows_append, hsame]

/-- Blanks within a line. -/
def IsGap (run : List Char) : Prop :=
  run ≠ [] ∧ ∀ c ∈ run, Text.isBlank c = true ∧ c ≠ '\n'

/-- A line with nothing in front of its comment, or a blank one. -/
def IsIdle (line : List Char) : Prop :=
  '\n' ∉ line ∧ ∀ c ∈ line.takeWhile (· ≠ '#'), Text.isBlank c = true

/-- Where a line ends, the text ends or a new line begins. -/
def AtLineEnd (v : List Char) : Prop :=
  v = [] ∨ ∃ rest, v = '\n' :: rest

/-- Ways to write a text differently: another form of line end, a comment, an idle line at the top or below some line, and
    other blanks between words. -/
inductive Respells : List Char → List Char → Prop where
  | lineEnd (u v : List Char) : Respells (u ++ '\n' :: v) (u ++ '\r' :: '\n' :: v)
  | comment {v note : List Char} (u : List Char) (hv : AtLineEnd v) (hnote : '\n' ∉ note) :
      Respells (u ++ v) (u ++ '#' :: note ++ v)
  | lineOnTop {line : List Char} (v : List Char) (hline : IsIdle line) : Respells v (line ++ '\n' :: v)
  | lineBelow {v line : List Char} (u : List Char) (hv : AtLineEnd v) (hline : IsIdle line) :
      Respells (u ++ v) (u ++ '\n' :: line ++ v)
  | gap {run run' : List Char} (u v : List Char) (hrun : IsGap run) (hrun' : IsGap run') :
      Respells (u ++ run ++ v) (u ++ run' ++ v)

theorem AtLineEnd.takeWhile {v : List Char} (h : AtLineEnd v) : v.takeWhile (· ≠ '\n') = [] := by
  obtain rfl | ⟨rest, rfl⟩ := h
  · rfl
  · simp

theorem tokenRows_idle {line : List Char} (h : IsIdle line) : tokenRows line = [] := by
  have hwords : lineWords line = [] := Text.words_of_blanks h.2
  rw [tokenRows_line h.1, if_pos hwords]

theorem lineWords_gap {run run' : List Char} (hrun : IsGap run) (hrun' : IsGap run') (l r : List Char) :
    lineWords (l ++ run ++ r) = lineWords (l ++ run' ++ r) := by
  by_cases hl : '#' ∈ l
  · rw [List.append_assoc, List.append_assoc, lineWords_append_of_mem hl, lineWords_append_of_mem hl]
  · rw [lineWords_append_blanks_append hrun.1 (fun c hc => (hrun.2 c hc).1) hl,
      lineWords_append_blanks_append hrun'.1 (fun c hc => (hrun'.2 c hc).1) hl]

/-- Each of these ways keeps the words of all rows. -/
theorem Respells.tokenRows_eq {text text' : List Char} (h : Respells text text') : tokenRows text' = tokenRows text := by
  cases h with
  | lineEnd u v =>
    have hreturn : ∀ c ∈ ['\r'], Text.isBlank c = true := by simp [Text.isBlank, Text.blankCodes]
    have hsplice := tokenRows_splice (x := []) (y := ['\r']) (by simp) (by simp) ('\n' :: v) (fun l => ?_) u
    · simpa using hsplice.symm
    · simp [lineWords_append_blanks hreturn]
  | @comment v note u hv hnote =>
    have hsplice := tokenRows_splice (x := []) (y := '#' :: note) (by simp) (by simp [hnote]) v (fun l => ?_) u
    · simpa using hsplice.symm
    · rw [hv.takeWhile]
      simp [lineWords_append_comment]
  | lineOnTop v hline => rw [tokenRows_append, tokenRows_idle hline, List.nil_append]
  | @lineBelow v line u hv hline =>
    obtain rfl | ⟨rest, rfl⟩ := hv
    · rw [List.append_nil, List.append_nil, tokenRows_append, tokenRows_idle hline, List.append_nil]
    · rw [tokenRows_append, tokenRows_append, tokenRows_append, tokenRows_idle hline, List.append_nil]
  | gap u v hrun hrun' =>
    have hline {run : List Char} (hrun : IsGap run) : '\n' ∉ run := fun hmem => (hrun.2 '\n' hmem).2 rfl
    exact (tokenRows_splice (hline hrun) (hline hrun') v (fun l => lineWords_gap hrun hrun' l _) u).symm

theorem tokenRows_eq_of_eqvGen {text text' : List Char} (h : Relation.EqvGen Respells text text') :
    tokenRows text' = tokenRows text := by
  induction h with
  | rel _ _ h => exact h.tokenRows_eq
  | refl => rfl
  | symm _ _ _ ih => exact ih.symm
  | trans _ _ _ _ _ ih ih' => exact ih'.trans ih

/-- The numbers that words stand for. -/
def Values : List (List Char) → List Float → Prop :=
  List.Forall₂ fun token x => number? token = some x

theorem row_eq_ok_iff {line : Nat} {tokens : List (List Char)} {xs : List Float} :
    row line tokens = .ok xs ↔ Values tokens xs := by
  rw [row, mapM_eq_ok_iff_forall₂, Values]
  constructor
  · intro h
    apply h.imp
    intro token x hcell
    cases hnumber : number? token <;> simp_all
  · intro h
    apply h.imp
    intro token x hnumber
    rw [hnumber]

/-- One line: its numbers are added to the rows, if it has words and is as wide as the first row. -/
theorem readRows_cons_eq_ok_iff {done rows : List (List Float)} {line : Nat} {text : List Char}
    {texts : List (List Char)} (hwords : lineWords text ≠ []) :
    readRows done line (text :: texts) = .ok rows ↔
      ∃ xs, Values (lineWords text) xs ∧ (∀ first ∈ done.head?, xs.length = first.length) ∧
        readRows (done ++ [xs]) (line + 1) texts = .ok rows := by
  simp only [readRows, if_neg hwords, bind_eq_ok_iff, row_eq_ok_iff]
  refine exists_congr fun xs => and_congr_right fun _ => ?_
  cases done with
  | nil => simp
  | cons first done =>
    by_cases hwidth : xs.length = first.length
    · simp [hwidth]
    · simp [hwidth]

/-- All lines: those with words stand for rows of the width of the first one. -/
theorem readRows_eq_ok_iff {done all : List (List Float)} {line : Nat} {texts : List (List Char)} :
    readRows done line texts = .ok all ↔
      ∃ rows, List.Forall₂ Values (wordRows texts) rows ∧ all = done ++ rows ∧
        ∀ first ∈ all.head?, ∀ row ∈ rows, row.length = first.length := by
  induction texts generalizing done line with
  | nil => simp [readRows, wordRows, eq_comm]
  | cons text texts ih =>
    by_cases hwords : lineWords text = []
    · have hrows : wordRows (text :: texts) = wordRows texts := by simp [wordRows, hwords]
      rw [readRows, if_pos hwords, ih, hrows]
    · have hrows : wordRows (text :: texts) = lineWords text :: wordRows texts := by simp [wordRows, hwords]
      rw [readRows_cons_eq_ok_iff hwords, hrows]
      simp only [ih, List.forall₂_cons_left_iff]
      constructor
      · rintro ⟨xs, hxs, hfirst, rows, hrows, rfl, hwidth⟩
        refine ⟨xs :: rows, ⟨xs, rows, hxs, hrows, rfl⟩, by simp, ?_⟩
        intro first hhead row hrow
        obtain rfl | hrow := List.mem_cons.mp hrow
        · cases done with
          | nil => simp_all
          | cons d done => exact hfirst first hhead
        · exact hwidth first hhead row hrow
      · rintro ⟨_, ⟨xs, rows, hxs, hrows, rfl⟩, rfl, hwidth⟩
        refine ⟨xs, hxs, ?_, rows, hrows, by simp, fun first hhead row hrow => ?_⟩
        · intro first hhead
          cases done with
          | nil => simp at hhead
          | cons d done => exact hwidth first hhead xs (by simp)
        · exact hwidth first hhead row (by simp [hrow])

theorem parse_eq_ok_iff {text : List Char} {t : Tensor Float} :
    parse text = .ok t ↔
      ∃ rows, List.Forall₂ Values (tokenRows text) rows ∧ rows ≠ [] ∧
        (∀ first ∈ rows.head?, ∀ row ∈ rows, row.length = first.length) ∧ t = squeeze rows := by
  rw [parse, bind_eq_ok_iff, tokenRows_eq]
  simp only [readRows_eq_ok_iff, List.nil_append]
  constructor
  · rintro ⟨rows, ⟨_, hrows, rfl, hwidth⟩, hresult⟩
    split at hresult
    · cases hresult
    · next hne => exact ⟨rows, hrows, hne, hwidth, (Except.ok.inj hresult).symm⟩
  · rintro ⟨rows, hrows, hne, hwidth, rfl⟩
    exact ⟨rows, ⟨rows, hrows, rfl, hwidth⟩, if_neg hne⟩

/-- Only the words of the rows matter to the array, and to whether there is one. -/
theorem parse_congr {text text' : List Char} (h : tokenRows text' = tokenRows text) :
    (parse text').toOption = (parse text).toOption := by
  apply Option.ext
  intro t
  have hsame : parse text' = .ok t ↔ parse text = .ok t := by rw [parse_eq_ok_iff, parse_eq_ok_iff, h]
  have hoption (x : Except TextError (Tensor Float)) : x.toOption = some t ↔ x = .ok t := by
    cases x <;> simp [Except.toOption]
  rw [hoption, hoption, hsame]

theorem exists_values_iff {rows : List (List (List Char))} :
    (∃ values, List.Forall₂ Values rows values) ↔ ∀ row ∈ rows, ∀ token ∈ row, ∃ x, number? token = some x := by
  simp only [Values, exists_forall₂_iff]

section

variable {rows : List (List (List Char))} {values : List (List Float)} (h : List.Forall₂ Values rows values)

include h

theorem forall_length_iff (P : Nat → Prop) : (∀ xs ∈ values, P xs.length) ↔ ∀ row ∈ rows, P row.length := by
  induction h with
  | nil => simp
  | cons hrow _ ih => simp only [List.forall_mem_cons, ih, hrow.length_eq]

/-- All rows are as wide as the first one where any two of them are equally wide. -/
theorem forall_length_eq_iff :
    (∀ first ∈ values.head?, ∀ xs ∈ values, xs.length = first.length) ↔
      ∀ row ∈ rows, ∀ row' ∈ rows, row.length = row'.length := by
  cases h with
  | nil => simp
  | @cons row first rows values hrow hrows =>
    have hall := forall_length_iff (h := .cons hrow hrows) (· = first.length)
    rw [← hrow.length_eq] at hall
    simp only [List.head?_cons, Option.mem_some_iff, forall_eq', ← hrow.length_eq, hall]
    constructor
    · intro hwidth row hmem row' hmem'
      rw [hwidth row hmem, hwidth row' hmem']
    · exact fun hwidth row' hmem => hwidth row' hmem row (by simp)

end

/-- The sizes of a table without those of one. -/
theorem filter_ne_one (m n : Nat) :
    [m, n].filter (· ≠ 1) = if m = 1 ∧ n = 1 then [] else if m = 1 ∨ n = 1 then [m * n] else [m, n] := by
  by_cases hm : m = 1
  · by_cases hn : n = 1 <;> simp [hm, hn]
  · by_cases hn : n = 1 <;> simp [hm, hn]

/-- Everything about a text but the words of its rows is left out of account. It is accepted exactly if it has rows, all
    with equally many words, and all words are numbers; then the array holds these numbers row after row, and its axes
    are those of the table that are not of size one. Otherwise the error is the one for texts. So other line ends,
    comments, idle lines and other blanks between words change neither the array nor whether the text is accepted. -/
theorem parse_spec (text : List Char) :
    ((∃ t, parse text = .ok t) ↔
      tokenRows text ≠ [] ∧ (∀ row ∈ tokenRows text, ∀ row' ∈ tokenRows text, row.length = row'.length) ∧
        ∀ row ∈ tokenRows text, ∀ token ∈ row, ∃ x, number? token = some x) ∧
    (∀ t, parse text = .ok t → ∃ m n rows, IsTable m n t.data.toList rows ∧
      List.Forall₂ (List.Forall₂ fun token x => number? token = some x) (tokenRows text) rows ∧
      t.shape = if m = 1 ∧ n = 1 then [] else if m = 1 ∨ n = 1 then [m * n] else [m, n]) ∧
    (∀ e, parse text = .error e → (InputError.text e).code? = some "MC_LOAD_TEXT") ∧
    ∀ text', tokenRows text' = tokenRows text ∨ Relation.EqvGen Respells text text' →
      (parse text').toOption = (parse text).toOption := by
  refine ⟨?_, fun t ht => ?_, fun e _ => rfl, fun text' h => parse_congr (h.elim id tokenRows_eq_of_eqvGen)⟩
  · simp only [parse_eq_ok_iff]
    rw [← exists_values_iff]
    constructor
    · rintro ⟨t, rows, hrows, hne, hwidth, -⟩
      refine ⟨?_, (forall_length_eq_iff hrows).mp hwidth, rows, hrows⟩
      rintro hnil
      rw [hnil, List.forall₂_nil_left_iff] at hrows
      exact hne hrows
    · rintro ⟨hne, hwidth, rows, hrows⟩
      refine ⟨_, rows, hrows, ?_, (forall_length_eq_iff hrows).mpr hwidth, rfl⟩
      rintro rfl
      exact hne (List.forall₂_nil_right_iff.mp hrows)
  · obtain ⟨rows, hrows, hne, hwidth, rfl⟩ := parse_eq_ok_iff.mp ht
    obtain ⟨first, rest, rfl⟩ := List.exists_cons_of_ne_nil hne
    have htable : IsTable (first :: rest).length first.length (first :: rest).flatten (first :: rest) :=
      ⟨rfl, hwidth first rfl, rfl⟩
    rw [squeeze_of_isTable htable (Nat.succ_pos _)]
    exact ⟨_, _, _, htable, hrows, filter_ne_one _ _⟩

/-- Two rows, written again with another line end, another gap and a comment, and a row with a word that is no number. -/
theorem parse_spec_two_rows :
    let t : Tensor Float := ⟨[2, 2], #[1, 2, 3, 4]⟩
    parse "1 2\n3 4".toList = .ok t ∧
      (parse "1 2\r\n3 \t4# end".toList).toOption = some t ∧
      (∃ rows, List.Forall₂ (List.Forall₂ fun token x => number? token = some x) (tokenRows "1 2\n3 4".toList) rows) ∧
      parse "1 x".toList = .error (.notNumber ['x'] 1) ∧
      (InputError.text (.notNumber ['x'] 1)).code? = some "MC_LOAD_TEXT" := by
  intro t
  have hok : parse "1 2\n3 4".toList = .ok t := by decide +kernel
  have herror : parse "1 x".toList = .error (.notNumber ['x'] 1) := by decide +kernel
  have hspace : IsGap [' '] := by simp [IsGap, Text.isBlank_space]
  have htab : IsGap [' ', '\t'] := by simp [IsGap, Text.isBlank, Text.blankCodes]
  have hnote : '\n' ∉ " end".toList := by simp
  have hspelled : Relation.EqvGen Respells "1 2\n3 4".toList "1 2\r\n3 \t4# end".toList := by
    apply Relation.EqvGen.trans
    · exact .rel _ _ (.lineEnd ['1', ' ', '2'] ['3', ' ', '4'])
    · apply Relation.EqvGen.trans
      · exact .rel _ _ (.gap ['1', ' ', '2', '\r', '\n', '3'] ['4'] hspace htab)
      · exact .rel _ _ (.comment (v := []) "1 2\r\n3 \t4".toList (.inl rfl) hnote)
  obtain ⟨-, hrows, -, hsame⟩ := parse_spec "1 2\n3 4".toList
  obtain ⟨-, -, hcode, -⟩ := parse_spec "1 x".toList
  obtain ⟨m, n, rows, -, hvalues, -⟩ := hrows t hok
  refine ⟨hok, ?_, ⟨rows, hvalues⟩, herror, hcode _ herror⟩
  rw [hsame _ (.inr hspelled), hok]
  rfl

end ArrayCalc.TextMatrix
