import ArrayCalc.Input.TextMatrix
import ArrayCalc.Proofs.Number.Written
import ArrayCalc.Proofs.Text.Table

namespace ArrayCalc.TextMatrix

open Number (isNumberChar Written)

/-- A word of a table that is read as a number. -/
structure Reads (cell : List Char) (x : Float) : Prop where
  number : number? cell = some x
  ne_nil : cell ≠ []
  notBlank : ∀ c ∈ cell, Text.isBlank c = false
  notComment : '#' ∉ cell

theorem toLower_ne_of_isNumberChar {c : Char} (h : isNumberChar c = true) : c.toLower ≠ 'n' := by
  rw [isNumberChar, Bool.or_eq_true, decide_eq_true_eq] at h
  rcases h with hdigit | hmark
  · have hsame : c.toLower = c := by
      have hrange : 48 ≤ c.toNat ∧ c.toNat ≤ 57 := by
        simpa [Char.isDigit, UInt32.le_iff_toNat_le] using hdigit
      refine dif_neg fun hupper => ?_
      have hcode := UInt32.le_iff_toNat_le.mp hupper.1
      have hfirst : 'A'.val.toNat = 65 := rfl
      have hval : c.val.toNat = c.toNat := rfl
      omega
    rw [hsame]
    rintro rfl
    exact absurd hdigit (by decide)
  · have hmarks : ∀ mark ∈ ['.', 'e', 'E', '+', '-'], mark.toLower ≠ 'n' := by simp
    exact hmarks c hmark

/-- A text without letters other than the mark of an exponent is none of the words, so it is read as a literal. -/
theorem number?_of_isNumberChar {cell : List Char} (h : ∀ c ∈ cell, isNumberChar c = true) :
    number? cell = Number.ofText? cell := by
  have hword {words : List String} (hwords : ∀ w ∈ words, 'n' ∈ w.toList) :
      String.ofList (cell.map Char.toLower) ∉ words := by
    intro hmem
    have hletter := hwords _ hmem
    rw [String.toList_ofList] at hletter
    obtain ⟨c, hc, hlower⟩ := List.mem_map.mp hletter
    exact toLower_ne_of_isNumberChar (h c hc) hlower
  rw [number?, if_neg (hword (by decide)), if_neg (hword (by decide)), if_neg (hword (by decide))]

/-- Every written number is read: as something that is no number either, as the same infinity, or as a literal. -/
theorem exists_reads_of_written {x : Float} {cell : List Char} (h : Written x cell) :
    ∃ y, Reads cell y ∧
      ((Number.read x = .nan ∧ Number.read y = .nan) ∨ (∃ negative, Number.read x = .infinite negative ∧ y = x) ∨
        ∃ negative mant exp, Number.read x = .finite negative mant exp ∧ Number.ofText? cell = some y) := by
  have hreads {y : Float} (hnumber : number? cell = some y) : Reads cell y :=
    ⟨hnumber, h.ne_nil, h.notBlank, h.notMem (by decide) (by decide)⟩
  cases h with
  | nan hread =>
    have hnan : Number.read (Number.ofCode false (Number.infiniteCode + 1)) = .nan :=
      Number.read_ofCode_nan (Nat.lt_succ_self _) (by decide) false
    exact ⟨_, hreads rfl, .inl ⟨hread, hnan⟩⟩
  | @infinite negative hread =>
    have hnumber : number? (Number.signText negative ++ "inf".toList) =
        some (Number.ofCode negative Number.infiniteCode) := by
      cases negative <;> rfl
    exact ⟨_, hreads hnumber, .inr (.inl ⟨negative, hread, (Number.eq_of_read_infinite hread).symm⟩)⟩
  | @finite negative mant exp body d hread hbody =>
    have hnumber : number? (Number.signText negative ++ body) = some (d.toFloat negative) := by
      rw [number?_of_isNumberChar, hbody.ofText?]
      intro c hc
      exact (List.mem_append.mp hc).elim (Number.isNumberChar_signText negative c) (hbody.chars c)
    exact ⟨_, hreads hnumber, .inr (.inr ⟨negative, mant, exp, hread, hbody.ofText? negative⟩)⟩

theorem row_eq {value : List Char → Float} (line : Nat) {cells : List (List Char)}
    (h : ∀ cell ∈ cells, Reads cell (value cell)) : row line cells = .ok (cells.map value) := by
  rw [row, mapM_eq_ok_iff_forall₂, List.forall₂_map_right_iff, List.forall₂_same]
  intro cell hcell
  rw [(h cell hcell).number]

theorem lineWords_intercalate {cells : List (List Char)} (h : ∀ cell ∈ cells, ∃ x, Reads cell x) :
    lineWords (['\t'].intercalate cells) = cells := by
  have hcomment : ∀ c ∈ ['\t'].intercalate cells, decide (c ≠ '#') = true := by
    intro c hc
    refine decide_eq_true fun hmark => ?_
    subst hmark
    rcases Text.mem_intercalate hc with hsep | ⟨cell, hcell, hmem⟩
    · exact absurd (List.mem_singleton.mp hsep) (by decide)
    · obtain ⟨x, hx⟩ := h cell hcell
      exact hx.notComment hmem
  rw [lineWords, List.takeWhile_eq_self_iff.mpr hcomment]
  refine Text.words_intercalate (by decide) (fun cell hcell => ?_) (fun cell hcell => ?_)
  · obtain ⟨x, hx⟩ := h cell hcell
    exact hx.ne_nil
  · obtain ⟨x, hx⟩ := h cell hcell
    exact hx.notBlank

/-- The lines of a table are read as its rows, after the rows that came before them, and the empty line after the last
    new line counts for nothing. -/
theorem readRows_lines {value : List Char → Float} {n : Nat} (hn : 0 < n) {rows : List (List (List Char))}
    (hwidth : ∀ row ∈ rows, row.length = n) (hcells : ∀ row ∈ rows, ∀ cell ∈ row, Reads cell (value cell))
    (done : List (List Float)) (hdone : ∀ row ∈ done, row.length = n) (line : Nat) :
    readRows done line (rows.map ['\t'].intercalate ++ [[]]) = .ok (done ++ rows.map (List.map value)) := by
  induction rows generalizing done line with
  | nil =>
    have hempty : lineWords [] = [] := rfl
    rw [List.map_nil, List.nil_append, readRows, hempty, List.map_nil, List.append_nil]
    rfl
  | cons cells rows ih =>
    have hhere := hcells cells List.mem_cons_self
    have hlength := hwidth cells List.mem_cons_self
    have hwords := lineWords_intercalate fun cell hcell => ⟨_, hhere cell hcell⟩
    have hne : cells ≠ [] := List.ne_nil_of_length_pos (by omega)
    have hnext := ih (fun row hrow => hwidth row (List.mem_cons_of_mem _ hrow))
      (fun row hrow => hcells row (List.mem_cons_of_mem _ hrow)) (done ++ [cells.map value])
      (fun row hrow => (List.mem_append.mp hrow).elim (hdone row) fun hlast => by
        rw [List.mem_singleton.mp hlast, List.length_map, hlength]) (line + 1)
    rw [List.append_assoc, List.singleton_append] at hnext
    rw [List.map_cons, List.cons_append, readRows, hwords, if_neg hne, row_eq line hhere]
    cases done with
    | nil => exact hnext
    | cons first done =>
      have hsame : (cells.map value).length = first.length := by
        rw [List.length_map, hlength, hdone first List.mem_cons_self]
      change (if (cells.map value).length = first.length then _ else _) = _
      rw [if_pos hsame]
      exact hnext

/-- A table with a single row or column has one axis, a single number none. -/
theorem squeeze_of_isTable {m n : Nat} {xs : List Float} {rows : List (List Float)} (h : IsTable m n xs rows)
    (hm : 0 < m) : squeeze rows = ⟨[m, n].filter (· ≠ 1), xs.toArray⟩ := by
  have hwidth : (rows.head?.map List.length).getD 0 = n := by
    cases rows with
    | nil =>
      have hheight := h.height
      rw [List.length_nil] at hheight
      omega
    | cons row rows => exact h.width row List.mem_cons_self
  rw [squeeze, hwidth, h.height, h.elements, List.size_toArray, h.length_eq]
  by_cases hone : m = 1
  · by_cases hone' : n = 1
    · simp [hone, hone']
    · simp [hone, hone']
  · by_cases hone' : n = 1
    · simp [hone, hone']
    · simp [hone, hone']

/-- The text of a table, with tabs and new lines, is read as the array of its numbers. -/
theorem parse_lines {value : List Char → Float} {m n : Nat} {cells : List (List Char)}
    {rows : List (List (List Char))} (h : IsTable m n cells rows) (hm : 0 < m) (hn : 0 < n)
    (hcells : ∀ cell ∈ cells, Reads cell (value cell)) :
    parse (['\n'].intercalate (rows.map ['\t'].intercalate) ++ ['\n']) =
      .ok ⟨[m, n].filter (· ≠ 1), (cells.map value).toArray⟩ := by
  have hblank : Text.isBlank '\n' = true := by decide
  have hline : ∀ cell ∈ cells, '\n' ∉ cell := fun cell hcell hmem => by
    have hvisible := (hcells cell hcell).notBlank '\n' hmem
    rw [hblank] at hvisible
    cases hvisible
  have hlines : (['\n'].intercalate (rows.map ['\t'].intercalate) ++ ['\n']).splitOn '\n' =
      rows.map ['\t'].intercalate ++ [[]] := by
    rw [List.splitOn_eq_splitOnP, List.splitOnP_append_cons _ _ (by rfl), ← List.splitOn_eq_splitOnP,
      h.splitOn_lines hm (by decide) hline]
    rfl
  have hread := readRows_lines hn h.width (fun row hrow cell hcell => hcells cell (h.mem hrow hcell))
    [] nofun 1
  have hne : rows.map (List.map value) ≠ [] := by
    rw [ne_eq, List.map_eq_nil_iff, ← List.length_eq_zero_iff, h.height]
    omega
  rw [List.nil_append] at hread
  rw [parse, hlines, hread]
  change (if rows.map (List.map value) = [] then _ else _) = _
  rw [if_neg hne, squeeze_of_isTable (h.map value) hm]

end ArrayCalc.TextMatrix
