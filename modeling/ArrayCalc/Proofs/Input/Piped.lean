import ArrayCalc.Input.Piped
import ArrayCalc.Proofs.Input.TextMatrix
import ArrayCalc.Proofs.Npy.Bounds
import ArrayCalc.Proofs.Npy.HeaderText
import ArrayCalc.Proofs.Output.Rows
import ArrayCalc.Proofs.Text.Ascii

namespace ArrayCalc

/-- How many rows and columns an array with at most two axes is written in, where one axis is a column. -/
def Shape.tall : Shape → Nat × Nat
  | [m, n] => (m, n)
  | s => (s.size, 1)

theorem Shape.filter_tall {s : Shape} (h : s.length ≤ 2) :
    [s.tall.1, s.tall.2].filter (· ≠ 1) = s.filter (· ≠ 1) := by
  match s, h with
  | [], _ => rfl
  | [n], _ =>
    have hcolumn : tall [n] = (n * 1, 1) := rfl
    rw [hcolumn, Nat.mul_one]
    by_cases hone : n = 1 <;> simp [hone]
  | [m, n], _ => rfl

/-- Plain text is a table of the numbers, with tabs between them. -/
theorem exists_table_of_plain {t : Tensor Float} (hwell : t.WellFormed) (hrank : t.rank ≤ 2) (hsize : 0 < t.data.size)
    {precision : Float} {text : List Char} (h : Output.plain t precision = .ok text) :
    ∃ cells rows, IsTable t.shape.tall.1 t.shape.tall.2 cells rows ∧
      List.Forall₂ (fun x cell => Number.general x precision = .ok cell) t.data.toList cells ∧
      text = ['\n'].intercalate (rows.map ['\t'].intercalate) := by
  have hcolumn (hrank : t.rank ≤ 1) : ∃ cells rows, IsTable t.shape.size 1 cells rows ∧
      List.Forall₂ (fun x cell => Number.general x precision = .ok cell) t.data.toList cells ∧
      text = ['\n'].intercalate (rows.map ['\t'].intercalate) := by
    rw [Output.plain, if_pos hrank] at h
    cases hcells : Output.generalTexts precision t.data.toList with
    | error e =>
      rw [hcells] at h
      cases h
    | ok cells =>
      rw [hcells] at h
      obtain rfl := Except.ok.inj h
      have hrelated := Output.generalTexts_eq_ok_iff.mp hcells
      have htable := isTable_column cells
      rw [← hrelated.length_eq, Array.length_toList, hwell] at htable
      refine ⟨cells, _, htable, hrelated, congrArg _ ?_⟩
      rw [List.map_map]
      exact (List.map_id'' (fun cell => List.append_nil cell) cells).symm
  obtain ⟨shape, data⟩ := t
  match shape, hrank with
  | [], _ => exact hcolumn (Nat.zero_le 1)
  | [n], _ => exact hcolumn (Nat.le_refl 1)
  | [m, n], hrank =>
    have hwide : ¬ (⟨[m, n], data⟩ : Tensor Float).rank ≤ 1 := Nat.not_succ_le_self 1
    rw [Output.plain, if_neg hwide, bind_eq_ok_iff] at h
    obtain ⟨rows, hrows, h⟩ := h
    obtain rfl := Except.ok.inj h
    rw [mapM_eq_ok_iff_forall₂] at hrows
    obtain ⟨cells, htable, hrelated⟩ := (Output.isTable_rows rfl hwell hsize).forall₂
      (hrows.imp fun _ _ => Output.generalTexts_eq_ok_iff.mp)
    exact ⟨cells, rows, htable, hrelated, rfl⟩

theorem Number.Written.isAscii {x : Float} {cell : List Char} (h : Number.Written x cell) : Text.IsAscii cell := by
  intro c hc
  rcases h.chars c hc with hchar | hletter
  · exact Npy.toNat_lt_of_isNumberChar hchar
  · have hletters : ∀ letter ∈ ['n', 'a', 'i', 'f'], letter.toNat < 0x80 := by simp
    exact hletters c hletter

theorem IsTable.isAscii {m n : Nat} {cells : List (List Char)} {rows : List (List (List Char))}
    (h : IsTable m n cells rows) (hcells : ∀ cell ∈ cells, Text.IsAscii cell) :
    Text.IsAscii (['\n'].intercalate (rows.map ['\t'].intercalate)) := by
  intro c hc
  rcases Text.mem_intercalate hc with hsep | ⟨line, hline, hc⟩
  · rw [List.mem_singleton.mp hsep]
    decide
  · obtain ⟨row, hrow, rfl⟩ := List.mem_map.mp hline
    rcases Text.mem_intercalate hc with hsep | ⟨cell, hcell, hc⟩
    · rw [List.mem_singleton.mp hsep]
      decide
    · exact hcells cell (h.mem hrow hcell) c hc

/-- A text in ASCII that is not blank is read as a table. -/
theorem decodePiped_of_isAscii {text : List Char} (h : Text.IsAscii text) {c : Char} (hc : c ∈ text)
    (hvisible : Text.isBlank c = false) :
    decodePiped (Text.encodeUtf8 text) = ((TextMatrix.parse text).map some).mapError .text := by
  have hne : Text.asciiBytes text ≠ [] := fun hnil => List.ne_nil_of_mem hc (List.map_eq_nil_iff.mp hnil)
  have hmagic : Npy.hasMagic (Text.asciiBytes text) = false := by
    refine Bool.eq_false_iff.mpr fun hmagic => ?_
    exact Text.asciiBytes_ne_cons h (b := 0x93) (by decide) _ (Npy.eq_of_hasMagic hmagic)
  rw [Text.encodeUtf8_eq_asciiBytes h, decodePiped, if_neg hne, hmagic, if_neg Bool.false_ne_true,
    Text.decodeUtf8?_asciiBytes h]
  exact if_neg (Text.trim_ne_nil hc hvisible)

/-- The lines of a table whose cells can be read are read as the array of its numbers, byte by byte as they are written. -/
theorem decodePiped_lines {value : List Char → Float} {m n : Nat} {cells : List (List Char)}
    {rows : List (List (List Char))} (h : IsTable m n cells rows) (hm : 0 < m) (hn : 0 < n)
    (hcells : ∀ cell ∈ cells, Text.IsAscii cell ∧ TextMatrix.Reads cell (value cell)) :
    decodePiped (Text.encodeUtf8 (['\n'].intercalate (rows.map ['\t'].intercalate) ++ ['\n'])) =
      .ok (some ⟨[m, n].filter (· ≠ 1), (cells.map value).toArray⟩) := by
  have harea : 0 < cells.length := by
    rw [h.length_eq]
    exact Nat.mul_pos hm hn
  obtain ⟨cell, hcell⟩ := List.exists_mem_of_length_pos harea
  have hreads := (hcells cell hcell).2
  obtain ⟨c, hc⟩ := List.exists_mem_of_ne_nil cell hreads.ne_nil
  have hmem : c ∈ ['\n'].intercalate (rows.map ['\t'].intercalate) := by
    rw [← h.elements] at hcell
    obtain ⟨row, hrow, hcell⟩ := List.mem_flatten.mp hcell
    exact Text.mem_intercalate_of_mem (List.mem_map_of_mem hrow) (Text.mem_intercalate_of_mem hcell hc)
  have htext : Text.IsAscii (['\n'].intercalate (rows.map ['\t'].intercalate) ++ ['\n']) :=
    Text.isAscii_append.mpr ⟨h.isAscii fun cell hcell => (hcells cell hcell).1, by simp⟩
  rw [decodePiped_of_isAscii htext (List.mem_append_left _ hmem) (hreads.notBlank c hc),
    TextMatrix.parse_lines h hm hn fun cell hcell => (hcells cell hcell).2]
  rfl

/-- What becomes of a number that is written with a count of significant digits, when the text is read again. What is no
    number stays so, and infinities are kept. A finite number becomes what its text says: with up to 21 digits that is
    the double nearest to the number rounded to these digits, if that is not past all of them. -/
inductive Echo (precision x : Float) (cell : List Char) (y : Float) : Prop where
  | nan (hx : Number.read x = .nan) (hy : Number.read y = .nan)
  | infinite {negative : Bool} (hx : Number.read x = .infinite negative) (hy : y = x)
  | finite {negative : Bool} {mant : Nat} {exp : Int} (hx : Number.read x = .finite negative mant exp)
      (hy : Number.ofText? cell = some y)
      (hnearest : ∀ p : Nat, Number.truncated? precision = some (p : Int) → 1 ≤ p → p ≤ 21 →
        ∃ d, (∀ d', Number.RoundsTo p (Number.magnitude mant exp) d' ↔ d' = d) ∧ y = d.toFloat negative ∧
          (d.nearestCode < Number.infiniteCode → ∀ code,
            |d.value - Number.codeValue d.nearestCode| ≤ |d.value - Number.codeValue code|))

theorem exists_echo {precision x : Float} {cell : List Char} (h : Number.general x precision = .ok cell) :
    ∃ y, TextMatrix.Reads cell y ∧ Echo precision x cell y := by
  obtain ⟨y, hreads, ⟨hx, hy⟩ | ⟨negative, hx, hy⟩ | ⟨negative, mant, exp, hx, hy⟩⟩ :=
    TextMatrix.exists_reads_of_written (Number.written_general h)
  · exact ⟨y, hreads, .nan hx hy⟩
  · exact ⟨y, hreads, .infinite hx hy⟩
  · refine ⟨y, hreads, .finite hx hy fun p hp hone hmost => ?_⟩
    obtain ⟨d, hround, hd⟩ := Number.ofText?_general hx hp hone hmost h
    exact ⟨d, hround, Option.some.inj (hy.symm.trans hd), d.abs_value_sub_le⟩

/-- Texts of numbers are read one by one, and equal texts alike. -/
theorem exists_values {precision : Float} {xs : List Float} {cells : List (List Char)}
    (h : List.Forall₂ (fun x cell => Number.general x precision = .ok cell) xs cells) :
    ∃ value : List Char → Float, (∀ cell ∈ cells, Text.IsAscii cell ∧ TextMatrix.Reads cell (value cell)) ∧
      List.Forall₂ (fun x y => ∃ cell, Number.general x precision = .ok cell ∧ Echo precision x cell y)
        xs (cells.map value) := by
  let value (cell : List Char) : Float := (TextMatrix.number? cell).getD 0
  have hvalue {cell : List Char} {y : Float} (hreads : TextMatrix.Reads cell y) : value cell = y := by
    rw [show value cell = (TextMatrix.number? cell).getD 0 from rfl, hreads.number, Option.getD_some]
  refine ⟨value, fun cell hcell => ?_, ?_⟩
  · obtain ⟨x, -, hx⟩ := exists_of_mem_forall₂ h cell hcell
    obtain ⟨y, hy, -⟩ := exists_echo hx
    exact ⟨(Number.written_general hx).isAscii, by rwa [hvalue hy]⟩
  · rw [List.forall₂_map_right_iff]
    refine h.imp fun x cell hcell => ?_
    obtain ⟨y, hy, hecho⟩ := exists_echo hcell
    exact ⟨cell, hcell, hvalue hy ▸ hecho⟩

/-- What relates the elements of two arrays one after another relates those in the same place. -/
theorem Tensor.forall_flat {R : Float → Float → Prop} {t u : Tensor Float}
    (h : List.Forall₂ R t.data.toList u.data.toList) :
    u.data.size = t.data.size ∧ ∀ i < t.data.size, R (t.flat i) (u.flat i) := by
  obtain ⟨hlength, hall⟩ := List.forall₂_iff_get.mp h
  rw [Array.length_toList, Array.length_toList] at hlength
  refine ⟨hlength.symm, fun i hi => ?_⟩
  have hplace {v : Tensor Float} (hv : i < v.data.toList.length) : v.flat i = v.data.toList.get ⟨i, hv⟩ := by
    have hsize : i < v.data.size := by rwa [Array.length_toList] at hv
    simp [flat, Array.getD, hsize]
  have hfirst : i < t.data.toList.length := by rwa [Array.length_toList]
  have hsecond : i < u.data.toList.length := by rwa [Array.length_toList, ← hlength]
  rw [hplace hfirst, hplace hsecond]
  exact hall i hfirst hsecond

/-- Plain text can be piped on. The array that is read has the elements of the array that was written, each read from
    its text, and the axes other than those of size one. -/
theorem decodePiped_render_plain {t : Tensor Float} (hwell : t.WellFormed) (hrank : t.rank ≤ 2)
    (hsize : 0 < t.data.size) {precision : Float} {text : List Char} (h : t.render .plain precision = .ok text) :
    ∃ u : Tensor Float, decodePiped (Text.encodeUtf8 (text ++ ['\n'])) = .ok (some u) ∧
      u.data.size = t.data.size ∧ u.shape = t.shape.filter (· ≠ 1) ∧
      ∀ i < t.data.size, ∃ cell, Number.general (t.flat i) precision = .ok cell ∧
        Echo precision (t.flat i) cell (u.flat i) := by
  obtain ⟨cells, rows, htable, hrelated, rfl⟩ := exists_table_of_plain hwell hrank hsize h
  obtain ⟨value, hcells, hechoes⟩ := exists_values hrelated
  have harea : 0 < t.shape.tall.1 * t.shape.tall.2 := by
    rwa [← htable.length_eq, ← hrelated.length_eq, Array.length_toList]
  have hread := decodePiped_lines htable (Nat.pos_of_mul_pos_right harea) (Nat.pos_of_mul_pos_left harea) hcells
  rw [Shape.filter_tall hrank] at hread
  obtain ⟨hcount, hall⟩ := Tensor.forall_flat (t := t) (u := ⟨t.shape.filter (· ≠ 1), (cells.map value).toArray⟩) hechoes
  exact ⟨_, hread, hcount, rfl, hall⟩

/-- A column of two, one of which is no number. -/
theorem decodePiped_render_plain_column :
    let t : Tensor Float := ⟨[2, 1], #[1.5, 0.0 / 0.0]⟩
    t.WellFormed ∧ t.rank ≤ 2 ∧ 0 < t.data.size ∧ t.render .plain 4 = .ok "1.5\nnan".toList ∧
      ∃ u : Tensor Float, decodePiped (Text.encodeUtf8 ("1.5\nnan".toList ++ ['\n'])) = .ok (some u) ∧
        u.data.size = 2 ∧ u.shape = [2] := by
  intro t
  have heval : (t.render .plain 4).toOption = some "1.5\nnan".toList := by decide +kernel
  have htext : t.render .plain 4 = .ok "1.5\nnan".toList := by
    cases hrender : t.render .plain 4 with
    | error e =>
      rw [hrender] at heval
      cases heval
    | ok text =>
      rw [hrender] at heval
      exact congrArg Except.ok (Option.some.inj heval)
  obtain ⟨u, hu, hsize, hshape, -⟩ := decodePiped_render_plain (t := t) (by decide) (by decide) (by decide) htext
  exact ⟨by decide, by decide, by decide, htext, u, hu, hsize, hshape⟩

end ArrayCalc
