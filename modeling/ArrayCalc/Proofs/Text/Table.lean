import ArrayCalc.Proofs.Except
import ArrayCalc.Proofs.Text.Words

namespace ArrayCalc

/-- Rows of one length, and what stands in them, row after row. -/
structure IsTable {α : Type} (m n : Nat) (xs : List α) (rows : List (List α)) : Prop where
  height : rows.length = m
  width : ∀ row ∈ rows, row.length = n
  elements : rows.flatten = xs

section

variable {α β : Type} {m n : Nat} {xs : List α} {rows : List (List α)}

theorem isTable_row (xs : List α) : IsTable 1 xs.length xs [xs] where
  height := rfl
  width row hrow := by rw [List.mem_singleton.mp hrow]
  elements := List.flatten_singleton

theorem isTable_column (xs : List α) : IsTable xs.length 1 xs (xs.map fun x => [x]) where
  height := List.length_map _
  width row hrow := by
    obtain ⟨x, -, rfl⟩ := List.mem_map.mp hrow
    rfl
  elements := by
    rw [← List.flatMap_def, List.flatMap_singleton']

theorem IsTable.map (h : IsTable m n xs rows) (f : α → β) : IsTable m n (xs.map f) (rows.map (List.map f)) where
  height := by rw [List.length_map, h.height]
  width row hrow := by
    obtain ⟨row, hmem, rfl⟩ := List.mem_map.mp hrow
    rw [List.length_map, h.width row hmem]
  elements := by rw [← List.map_flatten, h.elements]

theorem IsTable.mem (h : IsTable m n xs rows) {row : List α} (hrow : row ∈ rows) {x : α} (hx : x ∈ row) : x ∈ xs := by
  rw [← h.elements]
  exact List.mem_flatten_of_mem hrow hx

/-- What belongs to the elements of a table makes up a table of the same size. -/
theorem IsTable.forall₂ {R : α → β → Prop} (h : IsTable m n xs rows) {rows' : List (List β)}
    (hrows : List.Forall₂ (List.Forall₂ R) rows rows') :
    ∃ ys, IsTable m n ys rows' ∧ List.Forall₂ R xs ys := by
  refine ⟨rows'.flatten, ⟨by rw [← hrows.length_eq, h.height], fun row' hrow' => ?_, rfl⟩, ?_⟩
  · obtain ⟨row, hrow, hrelated⟩ := exists_of_mem_forall₂ hrows row' hrow'
    rw [← hrelated.length_eq, h.width row hrow]
  · rw [← h.elements]
    exact List.rel_flatten hrows

theorem IsTable.length_eq (h : IsTable m n xs rows) : xs.length = m * n := by
  rw [← h.elements, List.length_flatten, List.map_congr_left h.width, List.map_const', List.sum_replicate, h.height]
  rfl

end

section

variable {m n : Nat} {cells : List (List Char)} {rows : List (List (List Char))} {mark : Char}

/-- The lines of a table are told apart, if no cell and no mark between cells ends a line. -/
theorem IsTable.splitOn_lines (h : IsTable m n cells rows) (hm : 0 < m) (hmark : mark ≠ '\n')
    (hcells : ∀ cell ∈ cells, '\n' ∉ cell) :
    (['\n'].intercalate (rows.map [mark].intercalate)).splitOn '\n' = rows.map [mark].intercalate := by
  refine List.splitOn_intercalate '\n' (fun line hline hmem => ?_) ?_
  · obtain ⟨row, hrow, rfl⟩ := List.mem_map.mp hline
    rcases Text.mem_intercalate hmem with hsep | ⟨cell, hcell, hmem⟩
    · exact hmark (List.mem_singleton.mp hsep).symm
    · exact hcells cell (h.mem hrow hcell) hmem
  · rw [ne_eq, List.map_eq_nil_iff, ← List.length_eq_zero_iff, h.height]
    omega

/-- So are the cells of its lines, if no cell has the mark in it. -/
theorem IsTable.splitOn_cells (h : IsTable m n cells rows) (hn : 0 < n) (hcells : ∀ cell ∈ cells, mark ∉ cell) :
    (rows.map [mark].intercalate).map (List.splitOn mark) = rows := by
  have hrow (row : List (List Char)) (hrow : row ∈ rows) : ([mark].intercalate row).splitOn mark = row := by
    refine List.splitOn_intercalate mark (fun cell hcell => hcells cell (h.mem hrow hcell)) ?_
    rw [ne_eq, ← List.length_eq_zero_iff, h.width row hrow]
    omega
  calc (rows.map [mark].intercalate).map (List.splitOn mark) = rows.map id := by
        rw [List.map_map]
        exact List.map_congr_left hrow
    _ = rows := List.map_id rows

end

end ArrayCalc
