import ArrayCalc.Input.Piped
import ArrayCalc.Output.Render
import ArrayCalc.Proofs.Npy.File

namespace ArrayCalc

/-- An array that can be written into a file: its sizes are doubles, and its header keeps the length that two
    bytes can tell. -/
structure Tensor.Writable (t : Tensor Float) : Prop where
  wellFormed : t.WellFormed
  representable : ∀ n ∈ t.shape, Number.Representable n
  length_header : (Npy.headerText t.shape).length < 65536

/-- A scalar fits into a file as it is. -/
def Value.Writable : Value → Prop
  | .scalar _ => True
  | .array t => t.Writable

theorem Tensor.Writable.map {t : Tensor Float} (h : t.Writable) (f : Float → Float) : (t.map f).Writable :=
  ⟨h.wellFormed.map f, h.representable, h.length_header⟩

theorem Value.toTensor_map (f : Float → Float) (v : Value) : (v.map f).toTensor = v.toTensor.map f := by
  cases v <;> simp [Value.map, Value.toTensor, Tensor.map, Tensor.single]

namespace Npy

/-- Bytes with the magic, version 1.0, the length of a header in two bytes, the header, and a given count of
    bytes of data, which begins at a multiple of 64. -/
structure Framed (bytes : List UInt8) (count : Nat) : Prop where
  magic : bytes.take 6 = Npy.magic
  version : (bytes.drop 6).take 2 = [1, 0]
  aligned : (10 + ofLittleEndian ((bytes.drop 8).take 2)) % 64 = 0
  length : bytes.length = 10 + ofLittleEndian ((bytes.drop 8).take 2) + count

/-- What the header of a written file declares. -/
def written (s : Shape) : Declared :=
  ⟨.float, 8, .little, false, s, Number.natText⟩

/-- A written header has the fields of the plain format and is filled up with spaces. -/
theorem headerText_eq (s : Shape) :
    ∃ count, headerText s =
      (written s).fieldsText '\x7b' Format.plain.fields ++ ',' :: ' ' :: '\x7d' :: (spaces count ++ ['\n']) := by
  have height := Number.digits_of_lt (show 8 < 10 by omega)
  have hfields : "\x7b'descr': '<f8', 'fortran_order': False, 'shape': ".toList ++ s.text ++ ", \x7d".toList =
      (written s).fieldsText '\x7b' Format.plain.fields ++ [',', ' ', '\x7d'] := by
    simp [written, Format.plain, Declared.fieldsText, Declared.fieldText, Declared.valueText, Shape.text, Key.name,
      ByteOrder.text, Kind.letter, quoted, spaces, height, Number.digitChar]
  unfold headerText
  dsimp only
  rw [hfields]
  generalize (64 - _) % 64 = count
  refine ⟨count, ?_⟩
  simp [spaces]

theorem length_headerText (s : Shape) : (10 + (headerText s).length) % 64 = 0 := by
  unfold headerText
  dsimp only
  generalize "\x7b'descr': '<f8', 'fortran_order': False, 'shape': ".toList ++ s.text ++ ", \x7d".toList = text
  rw [List.length_append, List.length_append, List.length_replicate, List.length_singleton]
  omega

theorem write_eq (t : Tensor Float) :
    write t = fileOf 1 0 (headerText t.shape)
      ((t.data.toList.map fun x => Cell.double x.toBits).flatMap (Cell.encode 8 true)) := by
  rw [write, fileOf, List.flatMap_map]
  simp [Text.asciiBytes, lengthWidth, Cell.encode, Cell.bits]

section

variable {t : Tensor Float} (h : t.Writable)

include h

theorem valid_written : (written t.shape).Valid := by
  refine ⟨?_, fun n hn => isSize_natText (h.representable n hn)⟩
  exact List.mem_cons_of_mem 4 List.mem_cons_self

theorem isAscii_headerText : Text.IsAscii (headerText t.shape) := by
  obtain ⟨count, htext⟩ := headerText_eq t.shape
  have hfields := Declared.isAscii_fieldsText (valid_written h) (show '\x7b'.toNat < 0x80 by simp) Format.plain.fields
  rw [htext]
  simp [hfields, isAscii_spaces]

theorem ofText_headerText : Header.ofText (headerText t.shape) = .ok (written t.shape).header := by
  obtain ⟨count, htext⟩ := headerText_eq t.shape
  rw [htext]
  exact Declared.ofText_fieldsText (valid_written h) (by simp) _ Format.plain.key_mem

/-- The bytes of a written array are framed as the first version of the format has it. -/
theorem framed_write : Framed (write t) (8 * t.data.size) := by
  have hlength : (headerText t.shape).length < 256 ^ 2 := h.length_header
  have hdata : ((t.data.toList.map fun x => Cell.double x.toBits).flatMap (Cell.encode 8 true)).length =
      8 * t.data.size := by
    rw [Shape.length_flatMap_of_length fun cell _ => Cell.length_encode 8 true cell, List.length_map,
      Array.length_toList, Nat.mul_comm]
  have hcount : ofLittleEndian (((write t).drop 8).take 2) = (headerText t.shape).length := by
    have hbytes : ((write t).drop 8).take 2 = toLittleEndian 2 (headerText t.shape).length := by
      rw [write_eq]
      exact List.take_left' (length_toLittleEndian 2 _)
    rw [hbytes, ofLittleEndian_toLittleEndian hlength]
  refine ⟨?_, ?_, ?_, ?_⟩
  · rw [write_eq]
    rfl
  · rw [write_eq]
    rfl
  · rw [hcount]
    exact length_headerText t.shape
  · rw [hcount, write_eq, fileOf]
    simp only [List.length_append, List.length_cons, length_toLittleEndian, Text.asciiBytes, List.length_map, hdata]
    have hmagic : Npy.magic.length = 6 := rfl
    have hwidth : lengthWidth 1 = 2 := rfl
    omega

theorem read_write : read (write t) = .ok t := by
  have hlength : (headerText t.shape).length < 256 ^ lengthWidth 1 := h.length_header
  have hcells : ∀ cell ∈ t.data.toList.map fun x => Cell.double x.toBits, cell.Fits .float 8 := by
    intro cell hcell
    obtain ⟨x, -, rfl⟩ := List.mem_map.mp hcell
    exact ⟨rfl, rfl⟩
  have hcount : (t.data.toList.map fun x => Cell.double x.toBits).length = t.shape.size := by
    rw [List.length_map, Array.length_toList]
    exact h.wellFormed
  have hvalues : (t.data.toList.map fun x => Cell.double x.toBits).map Cell.value = t.data.toList := by
    rw [List.map_map]
    exact (List.map_congr_left fun x _ => Number.ofBits_toBits x).trans (List.map_id _)
  have hdata := readData_encode true false hcount hcells []
  rw [List.append_nil, hvalues] at hdata
  rw [write_eq, read_fileOf (by decide) 0 (isAscii_headerText h) hlength, ofText_headerText h]
  change (readData _ _).mapError _ = _
  rw [written, Declared.header, Declared.element]
  exact congrArg (Except.mapError ReadError.format) hdata

theorem decodePiped_write : decodePiped (write t) = .ok (some t) := by
  have hmagic : hasMagic (write t) = true := by
    rw [write_eq]
    rfl
  have hne : write t ≠ [] := by
    rw [write_eq]
    exact List.cons_ne_nil _ _
  rw [decodePiped, if_neg hne, if_pos hmagic, read_write h]
  rfl

end

theorem length_headerText_le {s : Shape} (h : s.text.length ≤ 1000) : (headerText s).length < 65536 := by
  have hopening : "\x7b'descr': '<f8', 'fortran_order': False, 'shape': ".toList.length = 50 := by decide
  have hclosing : ", \x7d".toList.length = 3 := by decide
  unfold headerText
  dsimp only
  rw [List.length_append, List.length_append, List.length_append, List.length_append, hopening, hclosing,
    List.length_replicate, List.length_singleton]
  omega

theorem writable_toTensor {v : Value} (h : v.Writable) : v.toTensor.Writable := by
  cases v with
  | scalar x =>
    have hshort : Shape.text [] = ['(', ')'] := rfl
    refine ⟨Tensor.wellFormed_single x, ?_, length_headerText_le ?_⟩
    · intro n hn
      cases hn
    · rw [Value.toTensor, Tensor.single, hshort]
      decide
  | array t => exact h

/-- A written value is framed as the first version of the format has it, is read as the same array, both as a file
    and as piped bytes, and a rendered value is read with small elements cut to zero. -/
theorem write_roundTrip {v : Value} (h : v.Writable) :
    Framed (write v.toTensor) (8 * v.toTensor.data.size) ∧
      read (write v.toTensor) = .ok v.toTensor ∧
      decodePiped (write v.toTensor) = .ok (some v.toTensor) ∧
      ∀ options : OutputOptions, options.format = .npy →
        ∃ bytes, (Result.value v).render options = .ok (.binary bytes) ∧
          decodePiped bytes = .ok (some (v.toTensor.map (applyThreshold options.threshold))) := by
  have htensor := writable_toTensor h
  refine ⟨framed_write htensor, read_write htensor, decodePiped_write htensor, fun options hformat => ?_⟩
  refine ⟨v.toNpy options.threshold, ?_, ?_⟩
  · unfold Result.render
    rw [hformat]
  · rw [Value.toNpy, Value.toTensor_map]
    exact decodePiped_write (htensor.map _)

theorem write_roundTrip_row :
    (Value.array ⟨[1, 2], #[0, 1]⟩).Writable ∧ read (write ⟨[1, 2], #[0, 1]⟩) = .ok ⟨[1, 2], #[0, 1]⟩ := by
  have hsizes : ∀ n ∈ [1, 2], Number.Representable n := by
    intro n hn
    have hsmall : ∀ n ∈ [1, 2], n < 2 ^ 53 := by simp
    exact Number.representable_of_lt (hsmall n hn)
  have hone := Number.digits_of_lt (show 1 < 10 by omega)
  have htwo := Number.digits_of_lt (show 2 < 10 by omega)
  have hheader : (headerText [1, 2]).length < 65536 := by
    refine length_headerText_le ?_
    simp [Shape.text, Shape.tupleText, Number.natText, hone, htwo]
  have h : (Value.array ⟨[1, 2], #[0, 1]⟩).Writable := ⟨rfl, hsizes, hheader⟩
  exact ⟨h, (write_roundTrip h).2.1⟩

end Npy

end ArrayCalc
