import ArrayCalc.Output.Render
import ArrayCalc.Proofs.Number.Lossless
import ArrayCalc.Proofs.Text.Table

namespace ArrayCalc

namespace Output

theorem generalTexts_eq_ok_iff {precision : Float} {xs : List Float} {cells : List (List Char)} :
    generalTexts precision xs = .ok cells ↔
      List.Forall₂ (fun x cell => Number.general x precision = .ok cell) xs cells :=
  mapM_eq_ok_iff_forall₂

theorem isTable_chunks {α : Type} {m n : Nat} {xs : List α} (hn : 0 < n) (hxs : xs.length = m * n) :
    IsTable m n xs (chunks n xs) := by
  induction m generalizing xs with
  | zero =>
    have hnil : xs = [] := List.length_eq_zero_iff.mp (by omega)
    rw [hnil, chunks, if_pos (.inr rfl)]
    exact ⟨rfl, nofun, rfl⟩
  | succ m ih =>
    rw [Nat.succ_mul] at hxs
    have hne : xs ≠ [] := List.ne_nil_of_length_pos (by omega)
    have hlength : (xs.drop n).length = m * n := by
      rw [List.length_drop]
      omega
    have hrest := ih hlength
    rw [chunks, if_neg (not_or.mpr ⟨by omega, hne⟩)]
    refine ⟨congrArg Nat.succ hrest.height, fun row hrow => ?_, ?_⟩
    · rcases List.mem_cons.mp hrow with rfl | hrow
      · rw [List.length_take]
        omega
      · exact hrest.width row hrow
    · rw [List.flatten_cons, hrest.elements, List.take_append_drop]

/-- An array that has room along its last axis has rows of that length; all other axes are folded into one. -/
theorem isTable_rows_concat {t : Tensor Float} {lead : Shape} {n : Nat} (hshape : t.shape = lead ++ [n])
    (hwell : t.WellFormed) (hn : 0 < n) : IsTable lead.size n t.data.toList (rows t) := by
  have hcount : t.data.toList.length = lead.size * n := by
    rw [Array.length_toList, hwell, hshape, Shape.size_append, Shape.size_singleton]
  rw [rows, hshape, List.getLast?_concat]
  exact isTable_chunks hn hcount

/-- An array with two axes that holds anything has the rows that its axes say. -/
theorem isTable_rows {t : Tensor Float} {m n : Nat} (hshape : t.shape = [m, n]) (hwell : t.WellFormed)
    (hsize : 0 < t.data.size) : IsTable m n t.data.toList (rows t) := by
  have hn : 0 < n := by
    refine Nat.pos_of_ne_zero fun hzero => ?_
    rw [hwell, hshape, hzero, Shape.size_cons, Shape.size_cons, Nat.zero_mul, Nat.mul_zero] at hsize
    exact absurd hsize (Nat.lt_irrefl 0)
  have htable : IsTable (Shape.size [m]) n t.data.toList (rows t) := isTable_rows_concat hshape hwell hn
  rwa [Shape.size_singleton] at htable

end Output

/-- How many rows and columns an array with at most two axes is written in, where one axis is a row. -/
def Shape.wide : Shape → Nat × Nat
  | [m, n] => (m, n)
  | s => (1, s.size)

section

variable {t : Tensor Float} (hwell : t.WellFormed) (hrank : t.rank ≤ 2) (hsize : 0 < t.data.size)

include hwell hrank hsize

theorem Output.isTable_wideRows : IsTable t.shape.wide.1 t.shape.wide.2 t.data.toList (wideRows t) := by
  have hrow := isTable_row t.data.toList
  rw [Array.length_toList, hwell] at hrow
  obtain ⟨shape, data⟩ := t
  match shape, hrank with
  | [], _ => exact hrow
  | [n], _ => exact hrow
  | [m, n], _ => exact isTable_rows rfl hwell hsize

/-- Comma-separated text keeps everything: split at its new lines and its commas it gives the rows and columns of the
    array, and every cell is the number in full. Such a text is read as the number, bit for bit, if the number is finite;
    it has a point or an exponent, and an exponent below `1e-4` and from `1e16` on. -/
theorem render_csv (precision : Float) :
    (∃ text, t.render .csv precision = .ok text ∧
      IsTable t.shape.wide.1 t.shape.wide.2 (t.data.toList.map Number.lossless)
        ((text.splitOn '\n').map (List.splitOn ','))) ∧
      ∀ x : Float,
        (Number.read x = .nan → Number.lossless x = "nan".toList) ∧
        (∀ negative, Number.read x = .infinite negative →
          Number.lossless x = if negative then "-inf".toList else "inf".toList) ∧
        (∀ negative mant exp, Number.read x = .finite negative mant exp →
          Number.ofText? (Number.lossless x) = some x ∧ ('e' ∈ Number.lossless x ∨ '.' ∈ Number.lossless x) ∧
          ('e' ∈ Number.lossless x ↔ mant ≠ 0 ∧
            (Number.magnitude mant exp < 10 ^ (-4 : Int) ∨ 10 ^ (16 : Int) ≤ Number.magnitude mant exp))) := by
  refine ⟨⟨Output.csv t, rfl, ?_⟩, fun x => ⟨fun hread => ?_, fun negative hread => ?_, fun negative mant exp hread =>
    ⟨Number.ofText?_lossless hread, Number.mark_or_point_mem_lossless hread, Number.mark_mem_lossless_iff hread⟩⟩⟩
  · have htable := (Output.isTable_wideRows hwell hrank hsize).map Number.lossless
    have hcells {mark : Char} (hchar : Number.isNumberChar mark = false) (hletter : mark ∉ ['n', 'a', 'i', 'f']) :
        ∀ cell ∈ t.data.toList.map Number.lossless, mark ∉ cell := by
      intro cell hcell
      obtain ⟨x, -, rfl⟩ := List.mem_map.mp hcell
      exact (Number.written_lossless x).notMem hchar hletter
    have harea : 0 < t.shape.wide.1 * t.shape.wide.2 := by
      rwa [← htable.length_eq, List.length_map, Array.length_toList]
    have hlines : Output.csv t = ['\n'].intercalate
        (((Output.wideRows t).map (List.map Number.lossless)).map [','].intercalate) := by
      rw [Output.csv, List.map_map]
      rfl
    rw [hlines, htable.splitOn_lines (Nat.pos_of_mul_pos_right harea) (by decide) (hcells (by decide) (by decide)),
      htable.splitOn_cells (Nat.pos_of_mul_pos_left harea) (hcells (by decide) (by decide))]
    exact htable
  · rw [Number.lossless, hread]
  · rw [Number.lossless, hread]
    cases negative <;> rfl

end

/-- Two rows, with a number that is not one, a negative zero and one number with an exponent. -/
theorem render_csv_two_rows :
    let t : Tensor Float := ⟨[2, 2], #[0.0 / 0.0, -0.0, 0.1, 1e300]⟩
    t.WellFormed ∧ t.rank ≤ 2 ∧ 0 < t.data.size ∧
      (t.render .csv 4).toOption = some "nan,-0.0\n0.1,1e+300".toList ∧
      Number.ofText? (Number.lossless (-0.0)) = some (-0.0) := by
  intro t
  have hread : Number.read (-0.0) = .finite true 0 (-1074) := by decide +kernel
  obtain ⟨-, hcells⟩ := render_csv (t := t) (by decide) (by decide) (by decide) 4
  obtain ⟨-, -, hfinite⟩ := hcells (-0.0)
  exact ⟨by decide, by decide, by decide, by decide +kernel, (hfinite _ _ _ hread).1⟩

end ArrayCalc
