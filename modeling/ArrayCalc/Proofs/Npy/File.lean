import ArrayCalc.Npy.File
import ArrayCalc.Proofs.Except
import ArrayCalc.Proofs.Npy.Cell
import ArrayCalc.Proofs.Npy.Header
import ArrayCalc.Proofs.Tensor.Order

namespace ArrayCalc.Npy

/-- How many bytes the length of the header takes. -/
def lengthWidth (major : UInt8) : Nat :=
  if major.toNat = 1 then 2 else 4

/-- The file with a given version, header text and data. -/
def fileOf (major minor : UInt8) (text : List Char) (data : List UInt8) : List UInt8 :=
  magic ++ (major :: minor :: (toLittleEndian (lengthWidth major) text.length ++ (Text.asciiBytes text ++ data)))

/-- In every version, the header text of a file is read and then its data. -/
theorem read_fileOf {major : UInt8} (hmajor : 1 ≤ major.toNat ∧ major.toNat ≤ 3) (minor : UInt8) {text : List Char}
    (htext : Text.IsAscii text) (hlength : text.length < 256 ^ lengthWidth major) (data : List UInt8) :
    read (fileOf major minor text data) =
      (Header.ofText text >>= fun header => readData header data).mapError .format := by
  have hmagic : hasMagic (fileOf major minor text data) = true := rfl
  have hversion : (fileOf major minor text data).drop 6 = major :: minor ::
      (toLittleEndian (lengthWidth major) text.length ++ (Text.asciiBytes text ++ data)) := rfl
  have hwidth := length_toLittleEndian (lengthWidth major) text.length
  have hbytes : (Text.asciiBytes text).length = text.length := List.length_map ..
  have hdecoded : (if major.toNat = 3 then Text.decodeUtf8Lossy (Text.dropMark (Text.asciiBytes text))
      else Text.decodeWestern (Text.asciiBytes text)) = text := by
    rw [Text.decodeUtf8Lossy_asciiBytes htext, Text.decodeWestern_asciiBytes htext, ite_self]
  have hbody : readBody major.toNat (toLittleEndian (lengthWidth major) text.length ++
      (Text.asciiBytes text ++ data)) = Header.ofText text >>= fun header => readData header data := by
    have hfits : ¬ (Text.asciiBytes text ++ data).length < text.length := by
      rw [List.length_append, hbytes]
      omega
    have hcount : ¬ (toLittleEndian (lengthWidth major) text.length ++ (Text.asciiBytes text ++ data)).length <
        lengthWidth major := by
      rw [List.length_append, hwidth]
      omega
    rw [readBody]
    change (if _ < lengthWidth major then _ else _) = _
    rw [if_neg hcount, ← lengthWidth, List.take_left' hwidth, List.drop_left' hwidth,
      ofLittleEndian_toLittleEndian hlength, if_neg hfits, List.take_left' hbytes, List.drop_left' hbytes]
    dsimp only
    rw [hdecoded]
  rw [read, hmagic, if_neg (by decide), hversion]
  dsimp only
  rw [if_pos hmajor, List.drop_succ_cons, List.drop_zero, hbody]

/-- The bytes of as many cells as the shape has elements are read as their values, whatever bytes follow. -/
theorem readData_encode {kind : Kind} {size : Nat} (littleEndian columnMajor : Bool) {s : Shape}
    {cells : List Cell} (hcount : cells.length = s.size) (hcells : ∀ cell ∈ cells, cell.Fits kind size)
    (trailing : List UInt8) :
    readData ⟨⟨kind, size, littleEndian⟩, columnMajor, s⟩
        (cells.flatMap (Cell.encode size littleEndian) ++ trailing) =
      .ok (if columnMajor then rowMajor s (cells.map Cell.value).toArray
        else ⟨s, (cells.map Cell.value).toArray⟩) := by
  have hlength : (cells.flatMap (Cell.encode size littleEndian)).length = s.size * size := by
    rw [Shape.length_flatMap_of_length fun cell _ => Cell.length_encode size littleEndian cell, hcount]
  have hread := Cell.readAll_encode hcells littleEndian trailing
  rw [hcount] at hread
  rw [readData]
  dsimp only
  rw [List.length_append, hlength, if_neg (by omega), hread]

/-- With fewer than two axes, column-major order is row-major order already. -/
theorem offset_columnSteps_of_length_lt {s : Shape} (h : s.length < 2) {k : Nat} (hk : k < s.size) :
    Shape.offset (s.unravel k) (s.columnSteps 1) = k := by
  match s, h with
  | [], _ => exact (Nat.lt_one_iff.mp hk).symm
  | [_], _ => simp [Shape.unravel, Shape.columnSteps, Shape.offset]

theorem rowMajor_eq_generate {s : Shape} {xs : Array Float} (hsize : xs.size = s.size) :
    rowMajor s xs = .generate s fun k => xs.getD (Shape.offset (s.unravel k) (s.columnSteps 1)) 0 := by
  rw [rowMajor]
  split
  · next hrank =>
    refine (Tensor.generate_eq hsize fun k hk => ?_).symm
    rw [offset_columnSteps_of_length_lt hrank (hsize ▸ hk), Array.getD_eq_getD_getElem?,
      Array.getElem?_eq_getElem hk, Option.getD_some]
  · rw [Tensor.traverse_eq_ofIndex, Tensor.ofIndex]

/-- Elements listed in column-major order become the array with them at the same multi-indices. -/
theorem rowMajor_columnOrder (s : Shape) (f : List Nat → Float) :
    rowMajor s (s.columnOrder.map f).toArray = Tensor.ofIndex s f := by
  have hsize : (s.columnOrder.map f).toArray.size = s.size := by
    rw [List.size_toArray, List.length_map, Shape.length_columnOrder]
  rw [rowMajor_eq_generate hsize, Tensor.ofIndex]
  refine Tensor.generate_congr fun k hk => ?_
  have hwithin := Shape.within_unravel hk
  have hplace := Shape.getElem?_columnOrder hwithin
  simp [Shape.offset_columnSteps hwithin, hplace]

/-- A way to write arrays into files: the element type and the order of the elements, how the header is laid
    out, and the version. The header has every key, and spaces and line ends fill it up. -/
structure Format where
  kind : Kind
  size : Nat
  size_mem : size ∈ kind.sizes
  order : ByteOrder
  columnMajor : Bool
  fields : List Field
  key_mem : ∀ key, ∃ field ∈ fields, field.key = key
  /-- The count of spaces after the comma behind the last field, if there is one. -/
  comma : Option Nat
  padding : List Char
  padding_blank : ∀ c ∈ padding, c = ' ' ∨ c = '\n'
  major : UInt8
  minor : UInt8
  major_mem : 1 ≤ major.toNat ∧ major.toNat ≤ 3

namespace Format

variable (f : Format) (s : Shape)

def declared : Declared :=
  ⟨f.kind, f.size, f.order, f.columnMajor, s, Number.digits⟩

def closing : List Char :=
  (match f.comma with
    | some count => ',' :: spaces count
    | none => []) ++ '\x7d' :: f.padding

def headerText : List Char :=
  (f.declared s).fieldsText '\x7b' f.fields ++ f.closing

/-- The multi-indices in the order in which the file has their elements. -/
def indices : List (List Nat) :=
  if f.columnMajor then s.columnOrder else s.rowOrder

/-- The file that holds a cell for each multi-index of a shape, with bytes after the last of them. -/
def file (cells : List Nat → Cell) (trailing : List UInt8) : List UInt8 :=
  fileOf f.major f.minor (f.headerText s)
    ((f.indices s).flatMap (fun idx => (cells idx).encode f.size f.order.littleEndian) ++ trailing)

theorem length_indices : (f.indices s).length = s.size := by
  rw [indices]
  split
  · exact Shape.length_columnOrder s
  · exact Shape.length_rowOrder s

theorem mem_indices {idx : List Nat} : idx ∈ f.indices s ↔ s.Within idx := by
  rw [indices]
  split
  · exact Shape.mem_columnOrder
  · exact Shape.mem_rowOrder

theorem exists_closing : ∃ c cs, f.closing = c :: cs ∧ c ∈ [':', ',', '\x7d'] := by
  rw [closing]
  cases f.comma with
  | none => exact ⟨'\x7d', f.padding, rfl, by simp⟩
  | some count => exact ⟨',', _, rfl, by simp⟩

theorem isAscii_closing : Text.IsAscii f.closing := by
  have hpadding : Text.IsAscii f.padding := by
    intro c hc
    rcases f.padding_blank c hc with rfl | rfl <;> decide
  rw [closing]
  cases f.comma with
  | none => simpa using hpadding
  | some count => simpa [isAscii_spaces] using hpadding

variable {s}

theorem valid_declared (hsizes : ∀ n ∈ s, Number.Representable n) : (f.declared s).Valid :=
  ⟨f.size_mem, fun n hn => isSize_digits (hsizes n hn)⟩

theorem isAscii_headerText (hsizes : ∀ n ∈ s, Number.Representable n) : Text.IsAscii (f.headerText s) := by
  have hfields := Declared.isAscii_fieldsText (f.valid_declared hsizes) (show '\x7b'.toNat < 0x80 by simp) f.fields
  simpa [headerText] using And.intro hfields f.isAscii_closing

theorem ofText_headerText (hsizes : ∀ n ∈ s, Number.Representable n) :
    Header.ofText (f.headerText s) = .ok (f.declared s).header := by
  obtain ⟨c, cs, hclosing, hc⟩ := f.exists_closing
  rw [headerText, hclosing]
  exact Declared.ofText_fieldsText (f.valid_declared hsizes) hc cs f.key_mem

theorem readData_indices {cells : List Nat → Cell} (hcells : ∀ idx, s.Within idx → (cells idx).Fits f.kind f.size)
    (trailing : List UInt8) :
    readData (f.declared s).header
        ((f.indices s).flatMap (fun idx => (cells idx).encode f.size f.order.littleEndian) ++ trailing) =
      .ok (Tensor.ofIndex s fun idx => (cells idx).value) := by
  have hfits : ∀ cell ∈ (f.indices s).map cells, cell.Fits f.kind f.size := by
    intro cell hcell
    obtain ⟨idx, hidx, rfl⟩ := List.mem_map.mp hcell
    exact hcells idx ((f.mem_indices s).mp hidx)
  have hcount : ((f.indices s).map cells).length = s.size := by rw [List.length_map, f.length_indices s]
  have hread := readData_encode f.order.littleEndian f.columnMajor hcount hfits trailing
  rw [List.flatMap_map, List.map_map] at hread
  refine hread.trans (congrArg Except.ok ?_)
  rw [indices]
  cases f.columnMajor with
  | true => exact rowMajor_columnOrder s (Cell.value ∘ cells)
  | false => exact (Tensor.ofIndex_eq s (Cell.value ∘ cells)).symm

/-- A file in any format is read as the array of the values of its cells. -/
theorem read_file_eq_ok {cells : List Nat → Cell} (hsizes : ∀ n ∈ s, Number.Representable n)
    (hlength : (f.headerText s).length < 256 ^ lengthWidth f.major)
    (hcells : ∀ idx, s.Within idx → (cells idx).Fits f.kind f.size) (trailing : List UInt8) :
    read (f.file s cells trailing) = .ok (Tensor.ofIndex s fun idx => (cells idx).value) := by
  rw [file, read_fileOf f.major_mem f.minor (f.isAscii_headerText hsizes) hlength, f.ofText_headerText hsizes]
  change (readData _ _).mapError _ = _
  rw [f.readData_indices hcells]
  rfl

/-- A file in any format is read as the array of its shape with the values that its cells stand for, when the
    sizes are doubles and the field for the length of the header can hold it. Neither the byte order, nor the
    order of the elements, nor the layout and version of the header make a difference. -/
theorem read_file {cells : List Nat → Cell} (hsizes : ∀ n ∈ s, Number.Representable n)
    (hlength : (f.headerText s).length < 256 ^ lengthWidth f.major)
    (hcells : ∀ idx, s.Within idx → (cells idx).Fits f.kind f.size) (trailing : List UInt8) :
    read (f.file s cells trailing) = .ok (Tensor.ofIndex s fun idx => (cells idx).value) ∧
      (∀ idx, s.Within idx → (cells idx).Denotes (cells idx).value) ∧
      ∀ g : Format, g.kind = f.kind → g.size = f.size → (g.headerText s).length < 256 ^ lengthWidth g.major →
        ∀ trailing', read (g.file s cells trailing') = read (f.file s cells trailing) := by
  have hread := f.read_file_eq_ok hsizes hlength hcells trailing
  refine ⟨hread, fun idx hidx => Cell.denotes_value (hcells idx hidx) f.size_mem, ?_⟩
  intro g hkind hsize hlength' trailing'
  rw [hread]
  refine g.read_file_eq_ok hsizes hlength' (fun idx hidx => ?_) trailing'
  rw [hkind, hsize]
  exact hcells idx hidx

/-- Two-byte numbers, most significant byte first and in column-major order, with the keys in an uncommon
    order and the third version of the header. -/
def wide : Format where
  kind := .unsigned
  size := 2
  size_mem := by decide
  order := .big
  columnMajor := true
  fields := [⟨.shape, 0, 0, 1, 0⟩, ⟨.order, 1, 1, 1, 1⟩, ⟨.elementType, 1, 0, 0, 0⟩]
  key_mem := by
    intro key
    cases key <;> simp
  comma := none
  padding := [' ', '\n']
  padding_blank := by simp
  major := 3
  minor := 0
  major_mem := by decide

theorem read_file_wide :
    ∃ cells : List Nat → Cell,
      (∀ n ∈ [2, 3], Number.Representable n) ∧
        (wide.headerText [2, 3]).length < 256 ^ lengthWidth wide.major ∧
        (∀ idx, Shape.Within [2, 3] idx → (cells idx).Fits wide.kind wide.size) ∧
        read (wide.file [2, 3] cells [7]) = .ok (Tensor.ofIndex [2, 3] fun idx => (cells idx).value) := by
  have hsizes : ∀ n ∈ [2, 3], Number.Representable n := by
    intro n hn
    have hsmall : ∀ n ∈ [2, 3], n < 2 ^ 53 := by simp
    exact Number.representable_of_lt (hsmall n hn)
  have hlength : (wide.headerText [2, 3]).length < 256 ^ lengthWidth wide.major := by
    have htwo := Number.digits_of_lt (show 2 < 10 by omega)
    have hthree := Number.digits_of_lt (show 3 < 10 by omega)
    simp [headerText, closing, declared, wide, Declared.fieldsText, Declared.fieldText, Declared.valueText,
      Shape.tupleText, Key.name, ByteOrder.text, quoted, spaces, lengthWidth, htwo, hthree]
  have hcells : ∀ idx, Shape.Within [2, 3] idx →
      (Cell.unsigned (Shape.ravel [2, 3] idx)).Fits wide.kind wide.size := by
    intro idx hidx
    have hplace := Shape.ravel_lt hidx
    exact ⟨rfl, Nat.lt_trans hplace (by decide)⟩
  exact ⟨_, hsizes, hlength, hcells, (wide.read_file hsizes hlength hcells [7]).1⟩

end Format

theorem representable_of_dimension {entry : List Char} {n : Nat} (h : dimension entry = .ok n) :
    Number.Representable n := by
  rw [dimension] at h
  split at h
  · rename_i m hm
    obtain ⟨x, -, hx⟩ := Option.bind_eq_some_iff.mp hm
    cases h
    exact ⟨x, hx⟩
  · cases h

theorem representable_of_ofText {text : List Char} {header : Header} (h : Header.ofText text = .ok header) :
    ∀ n ∈ header.shape, Number.Representable n := by
  rw [Header.ofText] at h
  split at h
  · split at h
    · cases h
    · split at h
      · split at h
        · obtain ⟨s, hs, h⟩ := bind_eq_ok_iff.mp h
          cases h
          intro n hn
          obtain ⟨entry, -, hentry⟩ := exists_of_mapM_eq_ok hs n hn
          exact representable_of_dimension hentry
        · cases h
      · cases h
  · cases h

theorem shape_rowMajor (s : Shape) (xs : Array Float) : (rowMajor s xs).shape = s := by
  unfold rowMajor
  split <;> rfl

theorem shape_of_readData {header : Header} {bytes : List UInt8} {t : Tensor Float}
    (h : readData header bytes = .ok t) : t.shape = header.shape := by
  rw [readData] at h
  split at h
  · cases h
  · cases h
    split
    · exact shape_rowMajor _ _
    · rfl

theorem exists_header_of_readBody {major : Nat} {bytes : List UInt8} {t : Tensor Float}
    (h : readBody major bytes = .ok t) :
    ∃ text header data, Header.ofText text = .ok header ∧ readData header data = .ok t := by
  rw [readBody] at h
  dsimp only at h
  generalize (if major = 1 then 2 else 4) = width at h
  split at h
  · cases h
  · split at h
    · cases h
    · obtain ⟨header, hheader, hdata⟩ := bind_eq_ok_iff.mp h
      exact ⟨_, header, _, hheader, hdata⟩

/-- The array that a file holds is read from data under a header. -/
theorem exists_header_of_read {bytes : List UInt8} {t : Tensor Float} (h : read bytes = .ok t) :
    ∃ text header data, Header.ofText text = .ok header ∧ readData header data = .ok t := by
  rw [read] at h
  split at h
  · cases h
  · split at h
    · cases h
    · split at h
      · rw [mapError_eq_ok_iff] at h
        exact exists_header_of_readBody h
      · split at h
        · cases h
        · cases h

/-- The sizes of an array that a file holds are doubles. -/
theorem representable_of_read {bytes : List UInt8} {t : Tensor Float} (h : read bytes = .ok t) :
    ∀ n ∈ t.shape, Number.Representable n := by
  obtain ⟨text, header, data, hheader, hdata⟩ := exists_header_of_read h
  rw [shape_of_readData hdata]
  exact representable_of_ofText hheader

/-- No file is read as an array with a size past the largest double. -/
theorem read_ne_ok {n k : Nat} (hk : k = 1024) (hn : 2 ^ k ≤ n) {t : Tensor Float} (ht : n ∈ t.shape)
    (bytes : List UInt8) : read bytes ≠ .ok t := by
  intro h
  have hlt := Number.lt_of_representable (representable_of_read h n ht) hk
  exact Nat.not_lt.mpr hn hlt

namespace Format

/-- The element type and the layout in which arrays are written. -/
def plain : Format where
  kind := .float
  size := 8
  size_mem := by decide
  order := .little
  columnMajor := false
  fields := [⟨.elementType, 0, 0, 1, 0⟩, ⟨.order, 1, 0, 1, 0⟩, ⟨.shape, 1, 0, 1, 0⟩]
  key_mem := by
    intro key
    cases key <;> simp
  comma := some 1
  padding := ['\n']
  padding_blank := by simp
  major := 1
  minor := 0
  major_mem := by decide

theorem length_headerText_plain (n : Nat) :
    (plain.headerText [0, n]).length = (Number.digits n).length + 59 := by
  have hzero := Number.digits_of_lt (show 0 < 10 by omega)
  have height := Number.digits_of_lt (show 8 < 10 by omega)
  simp [headerText, closing, declared, plain, Declared.fieldsText, Declared.fieldText, Declared.valueText,
    Shape.tupleText, Key.name, ByteOrder.text, quoted, spaces, hzero, height]

/-- A file of an empty array is not read when a size of it is past the largest double. -/
theorem read_file_past_doubles :
    (plain.headerText [0, 10 ^ 400]).length < 256 ^ lengthWidth plain.major ∧
      (∀ (cells : List Nat → Cell) idx, Shape.Within [0, 10 ^ 400] idx → (cells idx).Fits plain.kind plain.size) ∧
      ∀ cells : List Nat → Cell, read (plain.file [0, 10 ^ 400] cells []) ≠ .ok ⟨[0, 10 ^ 400], #[]⟩ := by
  refine ⟨?_, fun cells idx hidx => ?_, fun cells hread => ?_⟩
  · have hlimit : 400 + 1 + 59 < 256 ^ lengthWidth plain.major := by decide
    rw [length_headerText_plain]
    exact Nat.lt_of_le_of_lt (Nat.add_le_add_right (Number.length_digits_le 400) 59) hlimit
  · cases idx with
    | nil => exact hidx.elim
    | cons i is => exact absurd hidx.1 (Nat.not_lt_zero i)
  · obtain ⟨k, hk⟩ : ∃ k, k = 1024 := ⟨_, rfl⟩
    have hsize : 2 ^ k ≤ 10 ^ 400 := Number.two_pow_le_ten_pow (b := 400) (by omega)
    exact read_ne_ok hk hsize (List.mem_cons_of_mem 0 List.mem_cons_self) _ hread

end Format

end ArrayCalc.Npy
