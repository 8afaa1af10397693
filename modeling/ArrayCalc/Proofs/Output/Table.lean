import ArrayCalc.Proofs.Output.Cells
import ArrayCalc.Proofs.Output.Rows

namespace ArrayCalc.Output

/-- There is one cell for each column, and none of them is wider than its column. -/
def HasRoom (widths : List Nat) (cells : List (List Char)) : Prop :=
  List.Forall₂ (fun w cell => cell.length ≤ w) widths cells

/-- The widths of columns under their titles, each that of the widest text in the column. -/
def columnWidths (header : List (List Char)) (body : List (List (List Char))) : List Nat :=
  header.mapIdx fun i title => width (title :: body.map fun row => row.getD i [])

section

variable {header cells : List (List Char)} {body : List (List (List Char))}

theorem hasRoom_columnWidths (hlength : cells.length = header.length)
    (hcells : ∀ (i : Nat) (hi : i < header.length) (hi' : i < cells.length),
      cells[i] ∈ header[i] :: body.map fun row => row.getD i []) :
    HasRoom (columnWidths header body) cells := by
  refine List.forall₂_iff_get.mpr ⟨by rw [columnWidths, List.length_mapIdx, hlength], fun i hi hi' => ?_⟩
  have hheader : i < header.length := hlength ▸ hi'
  have hwidest := length_le_width (hcells i hheader hi')
  simpa [columnWidths] using hwidest

theorem hasRoom_header (header : List (List Char)) (body : List (List (List Char))) :
    HasRoom (columnWidths header body) header :=
  hasRoom_columnWidths rfl fun _ _ _ => List.mem_cons_self

theorem hasRoom_row (hrow : cells ∈ body) (hlength : cells.length = header.length) :
    HasRoom (columnWidths header body) cells := by
  refine hasRoom_columnWidths hlength fun i _ hi => List.mem_cons_of_mem _ ?_
  exact List.mem_map.mpr ⟨cells, hrow, List.getD_eq_getElem cells [] hi⟩

end

/-- What stands between the bars of a line, without the blanks around it. -/
def cellsBetween (bar : Char) (line : List Char) : List (List Char) :=
  (line.splitOn bar).tail.dropLast.map Text.trim

/-- A line that begins and ends with a bar is cut at its bars into its parts, with nothing before and after them. -/
theorem splitOn_framed (bar : Char) {parts : List (List Char)} (hne : parts ≠ []) (h : ∀ part ∈ parts, bar ∉ part) :
    (bar :: [bar].intercalate parts ++ [bar]).splitOn bar = [] :: parts ++ [[]] := by
  have hframed : bar :: [bar].intercalate parts ++ [bar] = [bar].intercalate ([] :: parts ++ [[]]) := by
    obtain ⟨part, rest, rfl⟩ := List.exists_cons_of_ne_nil hne
    have hconcat := Text.intercalate_concat [bar] hne []
    have hcons : [bar].intercalate ([] :: part :: (rest ++ [[]])) =
        [] ++ [bar] ++ [bar].intercalate (part :: (rest ++ [[]])) := List.intercalate_cons_cons
    simp only [List.cons_append] at hconcat ⊢
    rw [hcons, hconcat]
    simp
  -- The bars at the ends separate an empty part from the others on each side.
  rw [hframed]
  refine List.splitOn_intercalate bar (fun part hpart => ?_) (by simp)
  simp only [List.cons_append, List.mem_cons, List.mem_append, List.not_mem_nil, or_false] at hpart
  rcases hpart with rfl | hpart | rfl
  · exact List.not_mem_nil
  · exact h part hpart
  · exact List.not_mem_nil

namespace Edge

/-- A cell in its column, with a space on each side. -/
def place (w : Nat) (cell : List Char) : List Char :=
  ' ' :: Text.padRight w ' ' cell ++ [' ']

/-- How long the lines over columns of given widths are. -/
def lineLength (widths : List Nat) : Nat :=
  (widths.map (· + 2)).sum + (widths.length - 1) + 2

section

variable {e : Edge} {widths : List Nat} {cells : List (List Char)}

theorem length_rule (e : Edge) (fill : Char) (widths : List Nat) : (e.rule fill widths).length = lineLength widths := by
  have hlengths : (widths.map fun w => List.replicate (w + 2) fill).map List.length = widths.map (· + 2) := by
    rw [List.map_map]
    exact List.map_congr_left fun w _ => List.length_replicate
  rw [rule, List.length_append, List.length_cons, Text.length_intercalate, hlengths, List.length_map, lineLength]
  simp

theorem length_place {w : Nat} {cell : List Char} (h : cell.length ≤ w) : (place w cell).length = w + 2 := by
  simp only [place, Text.padRight, List.length_append, List.length_cons, List.length_replicate, List.length_nil]
  omega

theorem line_eq (e : Edge) (widths : List Nat) (cells : List (List Char)) :
    e.line widths cells = e.left :: [e.join].intercalate (List.zipWith place widths cells) ++ [e.right] :=
  rfl

/-- Where there is room for the cells, a line of cells is as long as a rule. -/
theorem length_line (e : Edge) (h : HasRoom widths cells) : (e.line widths cells).length = lineLength widths := by
  have hlengths : (List.zipWith place widths cells).map List.length = widths.map (· + 2) := by
    induction h with
    | nil => rfl
    | cons hcell _ ih => rw [List.zipWith_cons_cons, List.map_cons, length_place hcell, ih, List.map_cons]
  rw [line_eq, List.length_append, List.length_cons, Text.length_intercalate, hlengths, List.length_zipWith,
    h.length_eq, Nat.min_self, lineLength, h.length_eq]
  simp

theorem trim_place (w : Nat) {cell : List Char} (h : ∀ c ∈ cell, Text.isBlank c = false) :
    Text.trim (place w cell) = cell := by
  have hspaces : ∀ c ∈ List.replicate (w - cell.length) ' ' ++ [' '], Text.isBlank c = true := by
    intro c hc
    rw [← List.replicate_succ'] at hc
    rw [List.eq_of_mem_replicate hc]
    exact Text.isBlank_space
  have htrim : Text.trim ([' '] ++ cell ++ (List.replicate (w - cell.length) ' ' ++ [' '])) = cell :=
    Text.trim_surrounded (by simp [Text.isBlank_space]) hspaces (fun c hc => h c (List.mem_of_mem_head? hc))
      fun c hc => h c (List.mem_of_mem_getLast? hc)
  simpa [place, Text.padRight] using htrim

theorem mem_place {w : Nat} {cell : List Char} {c : Char} (h : c ∈ place w cell) : c = ' ' ∨ c ∈ cell := by
  simp only [place, Text.padRight, List.mem_append, List.mem_cons, List.mem_replicate, List.not_mem_nil, or_false] at h
  tauto

theorem forall₂_place (h : HasRoom widths cells) :
    List.Forall₂ (fun cell part => ∃ w, part = place w cell) cells (List.zipWith place widths cells) := by
  induction h with
  | nil => exact .nil
  | cons _ _ ih => exact .cons ⟨_, rfl⟩ ih

/-- What is on a line beside its cells. -/
theorem mem_line (h : HasRoom widths cells) {c : Char} (hc : c ∈ e.line widths cells) :
    c ∈ [e.left, e.join, e.right, ' '] ∨ ∃ cell ∈ cells, c ∈ cell := by
  rw [line_eq, List.mem_append, List.mem_cons, List.mem_singleton] at hc
  rcases hc with (rfl | hc) | rfl
  · simp
  · rcases Text.mem_intercalate hc with hjoin | ⟨part, hpart, hc⟩
    · simp [List.mem_singleton.mp hjoin]
    · obtain ⟨cell, hcell, w, rfl⟩ := exists_of_mem_forall₂ (forall₂_place h) part hpart
      rcases mem_place hc with rfl | hc
      · simp
      · exact .inr ⟨cell, hcell, hc⟩
  · simp

theorem mem_rule {fill c : Char} (hc : c ∈ e.rule fill widths) : c ∈ [e.left, e.join, e.right, fill] := by
  rw [rule, List.mem_append, List.mem_cons, List.mem_singleton] at hc
  rcases hc with (rfl | hc) | rfl
  · simp
  · rcases Text.mem_intercalate hc with hjoin | ⟨part, hpart, hc⟩
    · simp [List.mem_singleton.mp hjoin]
    · obtain ⟨w, -, rfl⟩ := List.mem_map.mp hpart
      simp [List.eq_of_mem_replicate hc]
  · simp

/-- Between the bars of a line stand its cells. -/
theorem cellsBetween_line {bar : Char} (hbar : bar ≠ ' ') (h : HasRoom widths cells) (hne : cells ≠ [])
    (hcells : ∀ cell ∈ cells, bar ∉ cell ∧ ∀ c ∈ cell, Text.isBlank c = false) :
    cellsBetween bar (line ⟨bar, bar, bar⟩ widths cells) = cells := by
  have hplaced := forall₂_place h
  have hparts : List.zipWith place widths cells ≠ [] := by
    rw [ne_eq, ← List.length_eq_zero_iff, ← hplaced.length_eq, List.length_eq_zero_iff]
    exact hne
  have hsplit := splitOn_framed bar hparts fun part hpart hmem => by
    obtain ⟨cell, hcell, w, rfl⟩ := exists_of_mem_forall₂ hplaced part hpart
    exact (mem_place hmem).elim hbar (hcells cell hcell).1
  -- A cell is read back from its part without the width of its column, as it has no blank at its ends.
  have htrimmed : List.Forall₂ (fun cell part => cell = Text.trim part) cells (List.zipWith place widths cells) := by
    refine ((List.forall₂_and_left _ _).mpr ⟨fun cell hcell => hcell, hplaced⟩).imp ?_
    rintro cell part ⟨hcell, w, rfl⟩
    exact (trim_place w (hcells cell hcell).2).symm
  rw [cellsBetween, line_eq, hsplit, List.cons_append, List.tail_cons, List.dropLast_concat]
  rwa [← List.forall₂_map_right_iff (f := Text.trim), List.forall₂_eq_eq_eq, eq_comm] at htrimmed

end

end Edge

theorem length_center (width : Nat) (text : List Char) : (center width text).length = max width text.length := by
  simp only [center, List.length_append, List.length_replicate]
  omega

theorem center_of_le {width : Nat} {text : List Char} (h : width ≤ text.length) : center width text = text := by
  rw [center, Nat.sub_eq_zero_of_le h]
  simp

theorem mem_center {width : Nat} {text : List Char} {c : Char} (h : c ∈ center width text) : c = ' ' ∨ c ∈ text := by
  simp only [center, List.mem_append, List.mem_replicate] at h
  tauto

theorem tableTitle_eq : tableTitle = ['M', 'a', 't', 'r', 'i', 'x', ' ', 'R', 'e', 's', 'u', 'l', 't'] := by
  decide +kernel

theorem trim_center_tableTitle (width : Nat) : Text.trim (center width tableTitle) = tableTitle := by
  have hspaces (n : Nat) : ∀ c ∈ List.replicate n ' ', Text.isBlank c = true := fun c hc => by
    rw [List.eq_of_mem_replicate hc]
    exact Text.isBlank_space
  rw [center]
  apply Text.trim_surrounded (hspaces _) (hspaces _)
  · simp [tableTitle_eq, Text.isBlank, Text.blankCodes]
  · simp [tableTitle_eq, Text.isBlank, Text.blankCodes]

/-- The lines of a table: a title, and below it a line of column titles between two rules, the rows, and a last rule. -/
structure Box where
  title : List Char
  top : List Char
  header : List Char
  rule : List Char
  body : List (List Char)
  foot : List Char

/-- The lines below the title. -/
def Box.lines (b : Box) : List (List Char) :=
  b.top :: b.header :: b.rule :: b.body ++ [b.foot]

/-- The titles of columns: their numbers in brackets, from zero. -/
def columnTitles (columns : Nat) : List (List Char) :=
  (List.range columns).map fun i => '[' :: Number.digits i ++ [']']

/-- The box that is drawn around a line of titles and rows of cells. -/
def Box.around (header : List (List Char)) (body : List (List (List Char))) : Box :=
  let widths := columnWidths header body
  let top := Edge.rule ⟨'┏', '┳', '┓'⟩ '━' widths
  { title := center top.length tableTitle
    top := top
    header := Edge.line ⟨'┃', '┃', '┃'⟩ widths header
    rule := Edge.rule ⟨'┡', '╇', '┩'⟩ '━' widths
    body := body.map (Edge.line ⟨'│', '│', '│'⟩ widths)
    foot := Edge.rule ⟨'└', '┴', '┘'⟩ '─' widths }

/-- A text for a cell: it has no white space and no bar in it. -/
def Tidy (cell : List Char) : Prop :=
  ∀ c ∈ cell, Text.isBlank c = false ∧ c ∉ ['┃', '│']

theorem tidy_of_general {x precision : Float} {cell : List Char} (h : Number.general x precision = .ok cell) :
    Tidy cell := by
  have hwritten := Number.written_general h
  intro c hc
  refine ⟨hwritten.notBlank c hc, fun hbar => ?_⟩
  simp only [List.mem_cons, List.not_mem_nil, or_false] at hbar
  rcases hbar with rfl | rfl
  · exact hwritten.notMem (by decide) (by decide) hc
  · exact hwritten.notMem (by decide) (by decide) hc

theorem tidy_of_mem_columnTitles {columns : Nat} {title : List Char} (h : title ∈ columnTitles columns) : Tidy title := by
  obtain ⟨i, -, rfl⟩ := List.mem_map.mp h
  intro c hc
  rw [List.mem_append, List.mem_cons, List.mem_singleton] at hc
  have hbrackets : ∀ c ∈ ['[', ']'], Text.isBlank c = false ∧ c ∉ ['┃', '│'] := by
    simp [Text.isBlank, Text.blankCodes]
  rcases hc with (rfl | hdigit) | rfl
  · exact hbrackets '[' (by simp)
  · have hdigit := Number.allDigits_digits i c hdigit
    refine ⟨Lexer.not_isBlank_of_isDigit hdigit, fun hbar => ?_⟩
    simp only [List.mem_cons, List.not_mem_nil, or_false] at hbar
    rcases hbar with rfl | rfl <;> exact absurd hdigit (by decide)
  · exact hbrackets ']' (by simp)

namespace Box

section

variable {header : List (List Char)} {body : List (List (List Char))}
  (hwidth : ∀ row ∈ body, row.length = header.length)

include hwidth

theorem length_of_mem_lines {line : List Char} (h : line ∈ (around header body).lines) :
    line.length = (around header body).top.length := by
  have hrow {row : List (List Char)} (hrow : row ∈ body) : HasRoom (columnWidths header body) row :=
    hasRoom_row hrow (hwidth row hrow)
  simp only [lines, around, List.cons_append, List.mem_cons, List.mem_append, List.mem_map, List.not_mem_nil,
    or_false] at h ⊢
  rw [Edge.length_rule]
  rcases h with rfl | rfl | rfl | ⟨row, hmem, rfl⟩ | rfl
  · exact Edge.length_rule ..
  · exact Edge.length_line _ (hasRoom_header header body)
  · exact Edge.length_rule ..
  · exact Edge.length_line _ (hrow hmem)
  · exact Edge.length_rule ..

theorem newline_notMem (hheader : ∀ cell ∈ header, Tidy cell) (hbody : ∀ row ∈ body, ∀ cell ∈ row, Tidy cell)
    {line : List Char} (h : line ∈ (around header body).title :: (around header body).lines) : '\n' ∉ line := by
  have hcell {cell : List Char} (htidy : Tidy cell) : '\n' ∉ cell := fun hmem =>
    absurd (htidy '\n' hmem).1 (by decide)
  simp only [lines, around, List.cons_append, List.mem_cons, List.mem_append, List.mem_map, List.not_mem_nil,
    or_false] at h
  intro hmem
  rcases h with rfl | rfl | rfl | rfl | ⟨row, hrow, rfl⟩ | rfl
  · rcases mem_center hmem with hspace | htitle
    · exact absurd hspace (by decide)
    · simp [tableTitle_eq] at htitle
  · exact absurd (Edge.mem_rule hmem) (by simp)
  · rcases Edge.mem_line (hasRoom_header header body) hmem with hedge | ⟨cell, hin, hmem⟩
    · simp at hedge
    · exact hcell (hheader cell hin) hmem
  · exact absurd (Edge.mem_rule hmem) (by simp)
  · rcases Edge.mem_line (hasRoom_row hrow (hwidth row hrow)) hmem with hedge | ⟨cell, hin, hmem⟩
    · simp at hedge
    · exact hcell (hbody row hrow cell hin) hmem
  · exact absurd (Edge.mem_rule hmem) (by simp)

theorem splitOn_intercalate (hheader : ∀ cell ∈ header, Tidy cell) (hbody : ∀ row ∈ body, ∀ cell ∈ row, Tidy cell) :
    (['\n'].intercalate ((around header body).title :: (around header body).lines)).splitOn '\n' =
      (around header body).title :: (around header body).lines :=
  List.splitOn_intercalate '\n' (fun _ hline => newline_notMem hwidth hheader hbody hline) (List.cons_ne_nil _ _)

/-- Between the bars of the rows stand their cells, if there are columns at all. -/
theorem cells_body (hcolumns : 0 < header.length) (hbody : ∀ row ∈ body, ∀ cell ∈ row, Tidy cell) :
    (around header body).body.map (cellsBetween '│') = body := by
  have hrow (row : List (List Char)) (hmem : row ∈ body) :
      cellsBetween '│' (Edge.line ⟨'│', '│', '│'⟩ (columnWidths header body) row) = row := by
    have hne : row ≠ [] := List.ne_nil_of_length_pos (hwidth row hmem ▸ hcolumns)
    refine Edge.cellsBetween_line (by decide) (hasRoom_row hmem (hwidth row hmem)) hne fun cell hcell => ?_
    have htidy := hbody row hmem cell hcell
    exact ⟨fun hbar => (htidy '│' hbar).2 (by simp), fun c hc => (htidy c hc).1⟩
  rw [around, List.map_map]
  exact (List.map_congr_left hrow).trans (List.map_id body)

end

theorem cells_header {header : List (List Char)} (hcolumns : 0 < header.length) (hheader : ∀ cell ∈ header, Tidy cell)
    (body : List (List (List Char))) : cellsBetween '┃' (around header body).header = header := by
  have hline : (around header body).header = Edge.line ⟨'┃', '┃', '┃'⟩ (columnWidths header body) header := rfl
  rw [hline]
  refine Edge.cellsBetween_line (by decide) (hasRoom_header header body) (List.ne_nil_of_length_pos hcolumns)
    fun cell hcell => ?_
  exact ⟨fun hbar => (hheader cell hcell '┃' hbar).2 (by simp), fun c hc => (hheader cell hcell c hc).1⟩

end Box

section

variable {t : Tensor Float} (hwell : t.WellFormed)

include hwell

theorem isTable_tableRows (hcolumns : 0 < tableColumns t) :
    IsTable (t.data.size / tableColumns t) (tableColumns t) t.data.toList (tableRows t) := by
  by_cases hrank : t.rank ≤ 1
  · rw [tableColumns, if_pos hrank, tableRows, if_pos hrank]
    refine isTable_chunks (by omega) ?_
    rw [Array.length_toList]
    -- A table of no elements has one column all the same, and no row in it.
    by_cases hnone : t.data.size = 0
    · rw [hnone, Nat.zero_div, Nat.zero_mul]
    · have hmax : max t.data.size 1 = t.data.size := by omega
      rw [hmax, Nat.div_self (by omega), Nat.one_mul]
  · have hne : t.shape ≠ [] := fun hnil => hrank (by simp [Tensor.rank, hnil])
    obtain ⟨lead, n, hshape⟩ := t.shape.eq_nil_or_concat'.resolve_left hne
    have hlast : tableColumns t = n := by
      rw [tableColumns, if_neg hrank, hshape, List.getLast?_concat, Option.getD_some]
    rw [hlast] at hcolumns ⊢
    have htable := isTable_rows_concat hshape hwell hcolumns
    have hcount := htable.length_eq
    rw [Array.length_toList] at hcount
    rw [tableRows, if_neg hrank, hcount, Nat.mul_div_cancel _ hcolumns]
    exact htable

/-- Without columns there are no rows, and nothing to write. -/
theorem tableRows_of_not_pos (hcolumns : ¬ 0 < tableColumns t) : tableRows t = [] ∧ t.data.toList = [] := by
  have hrank : ¬ t.rank ≤ 1 := fun hrank => hcolumns (by rw [tableColumns, if_pos hrank]; omega)
  have hne : t.shape ≠ [] := fun hnil => hrank (by simp [Tensor.rank, hnil])
  obtain ⟨lead, n, hshape⟩ := t.shape.eq_nil_or_concat'.resolve_left hne
  have hlast : t.shape.getLast? = some n := by rw [hshape, List.getLast?_concat]
  rw [tableColumns, if_neg hrank, hlast, Option.getD_some] at hcolumns
  obtain rfl : n = 0 := by omega
  have hsize : t.data.size = 0 := by rw [hwell, Shape.size_eq_zero_iff, hshape]; simp
  refine ⟨?_, by simpa using hsize⟩
  rw [tableRows, if_neg hrank, rows, hlast]
  dsimp only
  rw [chunks, if_pos (.inl rfl)]

theorem flatten_tableRows : (tableRows t).flatten = t.data.toList := by
  by_cases hcolumns : 0 < tableColumns t
  · exact (isTable_tableRows hwell hcolumns).elements
  · obtain ⟨hrows, hdata⟩ := tableRows_of_not_pos hwell hcolumns
    rw [hrows, hdata, List.flatten_nil]

theorem length_of_mem_tableRows : ∀ row ∈ tableRows t, row.length = tableColumns t := by
  by_cases hcolumns : 0 < tableColumns t
  · exact (isTable_tableRows hwell hcolumns).width
  · rw [(tableRows_of_not_pos hwell hcolumns).1]
    nofun

end

/-- A table is drawn around the texts of its numbers. -/
theorem table_eq_ok_iff {t : Tensor Float} {precision : Float} {text : List Char} :
    table t precision = .ok text ↔ ∃ body,
      List.Forall₂ (List.Forall₂ fun x cell => Number.general x precision = .ok cell) (tableRows t) body ∧
        text = ['\n'].intercalate ((Box.around (columnTitles (tableColumns t)) body).title ::
          (Box.around (columnTitles (tableColumns t)) body).lines) := by
  have htable : table t precision = (tableRows t).mapM (generalTexts precision) >>= fun body =>
      .ok (['\n'].intercalate ((Box.around (columnTitles (tableColumns t)) body).title ::
        (Box.around (columnTitles (tableColumns t)) body).lines)) := rfl
  rw [htable, bind_eq_ok_iff]
  refine exists_congr fun body => and_congr ?_ ?_
  · simp only [mapM_eq_ok_iff_forall₂, generalTexts_eq_ok_iff]
  · rw [Except.ok.injEq, eq_comm]

theorem exists_table_iff {t : Tensor Float} (hwell : t.WellFormed) {precision : Float} :
    (∃ text, table t precision = .ok text) ↔
      ∀ x ∈ t.data.toList, ∃ cell, Number.general x precision = .ok cell := by
  have hbody : (∃ text, table t precision = .ok text) ↔ ∃ body,
      List.Forall₂ (List.Forall₂ fun x cell => Number.general x precision = .ok cell) (tableRows t) body := by
    simp only [table_eq_ok_iff]
    exact ⟨fun ⟨_, body, hbody, _⟩ => ⟨body, hbody⟩, fun ⟨body, hbody⟩ => ⟨_, body, hbody, rfl⟩⟩
  rw [hbody, exists_forall₂_iff, ← flatten_tableRows hwell]
  simp only [exists_forall₂_iff, List.mem_flatten]
  exact ⟨fun h x ⟨row, hrow, hx⟩ => h row hrow x hx, fun h row hrow x hx => h x ⟨row, hrow, hx⟩⟩

end ArrayCalc.Output

namespace ArrayCalc

open Output

/-- A table is drawn for every well-formed array whose numbers can be written. All lines below the title have one length.
    The title is in the middle of a line of this length, and stands alone if it is longer than that. Where there are
    columns, the bars of the second of these lines separate the column numbers, and the bars of the rows below separate the
    texts of all numbers, in row-major order, with all axes but the last folded into the rows. -/
theorem render_table {t : Tensor Float} (hwell : t.WellFormed) (precision : Float) :
    ((∃ text, t.render .table precision = .ok text) ↔
        ∀ x ∈ t.data.toList, ∃ cell, Number.general x precision = .ok cell) ∧
      ∀ text, t.render .table precision = .ok text → ∃ (box : Box) (cells : List (List Char)),
        text.splitOn '\n' = box.title :: box.lines ∧
        (∀ line ∈ box.lines, line.length = box.top.length) ∧
        Text.trim box.title = tableTitle ∧
        (tableTitle.length ≤ box.top.length → box.title.length = box.top.length) ∧
        (box.top.length < tableTitle.length → box.title = tableTitle) ∧
        List.Forall₂ (fun x cell => Number.general x precision = .ok cell) t.data.toList cells ∧
        (0 < tableColumns t →
          cellsBetween '┃' box.header = columnTitles (tableColumns t) ∧
          IsTable (t.data.size / tableColumns t) (tableColumns t) cells (box.body.map (cellsBetween '│'))) := by
  refine ⟨exists_table_iff hwell, fun text h => ?_⟩
  obtain ⟨body, hbody, rfl⟩ := table_eq_ok_iff.mp h
  have hheader : ∀ title ∈ columnTitles (tableColumns t), Tidy title := fun title => tidy_of_mem_columnTitles
  have hcolumns : (columnTitles (tableColumns t)).length = tableColumns t := by
    rw [columnTitles, List.length_map, List.length_range]
  have hwidth : ∀ row ∈ body, row.length = (columnTitles (tableColumns t)).length := by
    intro row' hrow'
    obtain ⟨row, hrow, hrelated⟩ := exists_of_mem_forall₂ hbody row' hrow'
    rw [← hrelated.length_eq, length_of_mem_tableRows hwell row hrow, hcolumns]
  have htidy : ∀ row ∈ body, ∀ cell ∈ row, Tidy cell := by
    intro row' hrow' cell hcell
    obtain ⟨row, -, hrelated⟩ := exists_of_mem_forall₂ hbody row' hrow'
    obtain ⟨x, -, hx⟩ := exists_of_mem_forall₂ hrelated cell hcell
    exact tidy_of_general hx
  have hcells : List.Forall₂ (fun x cell => Number.general x precision = .ok cell) t.data.toList body.flatten := by
    rw [← flatten_tableRows hwell]
    exact List.rel_flatten hbody
  refine ⟨Box.around (columnTitles (tableColumns t)) body, body.flatten, Box.splitOn_intercalate hwidth hheader htidy,
    fun line => Box.length_of_mem_lines hwidth, trim_center_tableTitle _, fun hle => ?_, fun hlt => center_of_le hlt.le,
    hcells, fun hpos => ?_⟩
  · exact (length_center _ _).trans (max_eq_left hle)
  · rw [← hcolumns] at hpos
    have hrows : IsTable (t.data.size / tableColumns t) (tableColumns t) body.flatten body := by
      obtain ⟨cells, htable, -⟩ := (isTable_tableRows hwell (hcolumns ▸ hpos)).forall₂ hbody
      rwa [htable.elements]
    refine ⟨Box.cells_header hpos hheader body, ?_⟩
    rw [Box.cells_body hwidth hpos htidy]
    exact hrows

/-- Two blocks of one row and two columns, with a number that has an exponent and one that is none. -/
theorem render_table_blocks :
    let t : Tensor Float := ⟨[2, 1, 2], #[1, -2.5, 1e10, 0.0 / 0.0]⟩
    let cells := ["1".toList, "-2.5".toList, "1e+10".toList, "nan".toList]
    t.WellFormed ∧ ∃ (text : List Char) (box : Box), t.render .table 4 = .ok text ∧
      text.splitOn '\n' = box.title :: box.lines ∧ (∀ line ∈ box.lines, line.length = box.top.length) ∧
      IsTable 2 2 cells (box.body.map (cellsBetween '│')) := by
  intro t cells
  have hwell : t.WellFormed := by decide
  have htexts : generalTexts 4 t.data.toList = .ok cells := by decide +kernel
  obtain ⟨hexists, htable⟩ := render_table hwell 4
  obtain ⟨text, htext⟩ := hexists.mpr (exists_forall₂_iff.mp ⟨cells, generalTexts_eq_ok_iff.mp htexts⟩)
  obtain ⟨box, cells', hlines, hlength, -, -, -, hcells, hbody⟩ := htable text htext
  obtain rfl : cells' = cells := Except.ok.inj ((generalTexts_eq_ok_iff.mpr hcells).symm.trans htexts)
  have hcolumns : tableColumns t = 2 := by decide
  have hrows : t.data.size / tableColumns t = 2 := by decide
  obtain ⟨-, hbody⟩ := hbody (by decide)
  rw [hrows, hcolumns] at hbody
  exact ⟨hwell, text, box, htext, hlines, hlength, hbody⟩

end ArrayCalc
