import ArrayCalc.Input.Load
import ArrayCalc.Proofs.Npy.File

namespace ArrayCalc.Npy

/-- How a reader ends that asks for bytes by their places: the bytes are no array file, or a place lies past
    their end. -/
inductive Stop where
  | format (e : FormatError)
  | outside (place : Nat)

/-- A place past the end is only met in the version. -/
def Stop.toReadError : Stop → ReadError
  | format e => .format e
  | outside _ => .versionCut

def byteAt (bytes : List UInt8) (place : Nat) : Except Stop UInt8 :=
  match bytes[place]? with
  | some b => .ok b
  | none => .error (.outside place)

/-- Consecutive bytes from a place on, each looked up by itself. -/
def bytesAt (bytes : List UInt8) (place : Nat) : (count : Nat) → Except Stop (List UInt8)
  | 0 => .ok []
  | count + 1 => do
    let b ← byteAt bytes place
    let bs ← bytesAt bytes (place + 1) count
    .ok (b :: bs)

/-- Consecutive elements from a place on. -/
def elementsAt (t : ElementType) (bytes : List UInt8) (place : Nat) : (count : Nat) → Except Stop (List Float)
  | 0 => .ok []
  | count + 1 => do
    let element ← bytesAt bytes place t.size
    let xs ← elementsAt t bytes (place + t.size) count
    .ok (t.read element :: xs)

/-- The array whose data begins at a place. -/
def dataAt (header : Header) (bytes : List UInt8) (place : Nat) : Except Stop (Tensor Float) :=
  let count := header.shape.size
  if bytes.length < place + count * header.element.size then
    .error (.format
      (.truncatedData (Shape.floatSize (header.shape.map Number.ofNat)) header.element.size))
  else do
    let xs ← elementsAt header.element bytes place count
    .ok (if header.columnMajor then rowMajor header.shape xs.toArray else ⟨header.shape, xs.toArray⟩)

/-- The characters that the bytes of a header write. -/
def headerChars (major : UInt8) (text : List UInt8) : List Char :=
  if major.toNat = 3 then Text.decodeUtf8Lossy (Text.dropMark text) else Text.decodeWestern text

/-- The array of a file whose version is known: the length of the header is at place 8. -/
def bodyAt (major : UInt8) (bytes : List UInt8) : Except Stop (Tensor Float) :=
  let start := 8 + lengthWidth major
  if bytes.length < start then .error (.format .truncatedHeader)
  else do
    let length := ofLittleEndian (← bytesAt bytes 8 (lengthWidth major))
    if bytes.length < start + length then .error (.format .truncatedHeader)
    else
      let text ← bytesAt bytes start length
      let header ← (Header.ofText (headerChars major text)).mapError .format
      dataAt header bytes (start + length)

/-- Reads a file by the places of its bytes, as `read` does by cutting off what it has read. -/
def readAt (bytes : List UInt8) : Except Stop (Tensor Float) :=
  if bytes.length < 6 then .error (.format .badMagic)
  else do
    let mark ← bytesAt bytes 0 6
    if mark ≠ magic then .error (.format .badMagic)
    else
      let major ← byteAt bytes 6
      if 1 ≤ major.toNat ∧ major.toNat ≤ 3 then bodyAt major bytes
      else
        let minor ← byteAt bytes 7
        .error (.format (.unsupportedVersion major minor))

theorem bytesAt_eq_ok {bytes : List UInt8} {count : Nat} :
    ∀ {place : Nat}, place + count ≤ bytes.length →
      bytesAt bytes place count = .ok ((bytes.drop place).take count) := by
  induction count with
  | zero =>
    intro place _
    rw [List.take_zero]
    rfl
  | succ count ih =>
    intro place h
    have hplace : place < bytes.length := by omega
    have hbyte : byteAt bytes place = .ok bytes[place] := by
      rw [byteAt, List.getElem?_eq_getElem hplace]
    have htail : place + 1 + count ≤ bytes.length := by omega
    rw [bytesAt, hbyte, ih htail, List.drop_eq_getElem_cons hplace, List.take_succ_cons]
    rfl

theorem elementsAt_eq_ok {t : ElementType} {bytes : List UInt8} {count : Nat} :
    ∀ {place : Nat}, place + count * t.size ≤ bytes.length →
      elementsAt t bytes place count = .ok (t.readAll count (bytes.drop place)) := by
  induction count with
  | zero => exact fun _ => rfl
  | succ count ih =>
    intro place h
    rw [Nat.succ_mul] at h
    have htail : place + t.size + count * t.size ≤ bytes.length := by omega
    rw [elementsAt, bytesAt_eq_ok (by omega), ih htail, ElementType.readAll, List.drop_drop]
    rfl

/-- Once the data is as long as the header says, no element lies past its end. -/
theorem dataAt_eq {bytes : List UInt8} {place : Nat} (header : Header) (hplace : place ≤ bytes.length) :
    dataAt header bytes place = (readData header (bytes.drop place)).mapError .format := by
  rw [dataAt, readData]
  dsimp only
  rw [List.length_drop]
  by_cases h : bytes.length < place + header.shape.size * header.element.size
  · rw [if_pos h, if_pos (by omega)]
    rfl
  · rw [if_neg h, if_neg (by omega), elementsAt_eq_ok (by omega)]
    rfl

theorem lengthWidth_pos (major : UInt8) : 0 < lengthWidth major := by
  unfold lengthWidth
  split <;> decide

theorem readBody_eq (major : UInt8) (bytes : List UInt8) :
    readBody major.toNat bytes =
      if bytes.length < lengthWidth major then .error .truncatedHeader
      else
        let length := ofLittleEndian (bytes.take (lengthWidth major))
        let rest := bytes.drop (lengthWidth major)
        if rest.length < length then .error .truncatedHeader
        else
          Header.ofText (headerChars major (rest.take length)) >>= fun header => readData header (rest.drop length) :=
  rfl

theorem bodyAt_eq (major : UInt8) (bytes : List UInt8) :
    bodyAt major bytes = (readBody major.toNat (bytes.drop 8)).mapError .format := by
  have hwidth := lengthWidth_pos major
  rw [bodyAt, readBody_eq]
  dsimp only
  rw [List.length_drop, List.length_drop, List.length_drop]
  by_cases hstart : bytes.length < 8 + lengthWidth major
  · rw [if_pos hstart, if_pos (by omega)]
    rfl
  · rw [if_neg hstart, if_neg (by omega), bytesAt_eq_ok (by omega)]
    change (if bytes.length < _ + ofLittleEndian ((bytes.drop 8).take (lengthWidth major)) then _ else _) = _
    generalize ofLittleEndian ((bytes.drop 8).take (lengthWidth major)) = length
    rw [List.drop_drop, List.drop_drop]
    by_cases hend : bytes.length < 8 + lengthWidth major + length
    · rw [if_pos hend, if_pos (by omega)]
      rfl
    · rw [if_neg hend, if_neg (by omega), bytesAt_eq_ok (by omega)]
      change (Header.ofText (headerChars major _)).mapError Stop.format >>= (fun header => dataAt header bytes _) = _
      cases Header.ofText (headerChars major ((bytes.drop (8 + lengthWidth major)).take length)) with
      | error e => rfl
      | ok header => exact dataAt_eq header (by omega)

theorem eq_of_hasMagic {bytes : List UInt8} (h : hasMagic bytes = true) : bytes = magic ++ bytes.drop 6 := by
  have htake : bytes.take 6 = magic := by simpa [hasMagic] using h
  rw [← htake, List.take_append_drop]

theorem read_of_known {major : UInt8} (h : 1 ≤ major.toNat ∧ major.toNat ≤ 3) (rest : List UInt8) :
    read (magic ++ major :: rest) = (readBody major.toNat (rest.drop 1)).mapError .format :=
  if_pos h

theorem read_of_unknown {major : UInt8} (h : ¬ (1 ≤ major.toNat ∧ major.toNat ≤ 3)) (rest : List UInt8) :
    read (magic ++ major :: rest) =
      match rest with
      | [] => .error .versionCut
      | minor :: _ => .error (.format (.unsupportedVersion major minor)) :=
  if_neg h

/-- Asking for each byte by its place gives the same array and the same errors. So no byte past the end is looked
    at but one of the version. -/
theorem readAt_eq (bytes : List UInt8) : (readAt bytes).mapError Stop.toReadError = read bytes := by
  unfold readAt
  by_cases hlength : bytes.length < 6
  · have hmagic : hasMagic bytes = false := by
      rw [Bool.eq_false_iff]
      intro h
      have hle := congrArg List.length (eq_of_hasMagic h)
      rw [List.length_append] at hle
      have hsix : magic.length = 6 := rfl
      omega
    rw [if_pos hlength, read, if_pos hmagic]
    rfl
  · rw [if_neg hlength, bytesAt_eq_ok (by omega)]
    change Except.mapError _ (if bytes.take 6 ≠ magic then _ else _) = _
    by_cases hmagic : hasMagic bytes = true
    · have htake : bytes.take 6 = magic := by simpa [hasMagic] using hmagic
      rw [if_neg (by simpa using htake)]
      have hbytes := eq_of_hasMagic hmagic
      generalize bytes.drop 6 = rest at hbytes
      subst hbytes
      cases rest with
      | nil => rfl
      | cons major rest =>
        change Except.mapError _ (if _ then _ else _) = _
        by_cases hmajor : 1 ≤ major.toNat ∧ major.toNat ≤ 3
        · rw [if_pos hmajor, bodyAt_eq, read_of_known hmajor]
          have hdrop : (magic ++ major :: rest).drop 8 = rest.drop 1 := rfl
          rw [hdrop]
          cases readBody major.toNat (rest.drop 1) <;> rfl
        · rw [if_neg hmajor, read_of_unknown hmajor]
          cases rest <;> rfl
    · have htake : bytes.take 6 ≠ magic := by simpa [hasMagic] using hmagic
      rw [if_pos htake, read, if_pos (by simpa using hmagic)]
      rfl

/-- The bytes begin like an array file but end before the version can be told: before its first byte, or before
    the second one where the first is no known version. -/
def VersionCut (bytes : List UInt8) : Prop :=
  hasMagic bytes = true ∧
    (bytes.length = 6 ∨
      bytes.length = 7 ∧ ∃ major, bytes[6]? = some major ∧ ¬ (1 ≤ major.toNat ∧ major.toNat ≤ 3))

theorem mapError_format_ne_versionCut {α : Type} (x : Except FormatError α) :
    x.mapError ReadError.format ≠ .error .versionCut := by
  cases x <;> simp [Except.mapError]

theorem read_eq_versionCut_iff (bytes : List UInt8) : read bytes = .error .versionCut ↔ VersionCut bytes := by
  by_cases hmagic : hasMagic bytes = true
  · have hbytes := eq_of_hasMagic hmagic
    generalize bytes.drop 6 = rest at hbytes
    subst hbytes
    cases rest with
    | nil => exact ⟨fun _ => ⟨rfl, .inl rfl⟩, fun _ => rfl⟩
    | cons major rest =>
      have hlength : (magic ++ major :: rest).length = rest.length + 7 := by
        rw [List.length_append, List.length_cons]
        have hsix : magic.length = 6 := rfl
        omega
      have hmajorAt : (magic ++ major :: rest)[6]? = some major := rfl
      unfold VersionCut
      rw [hlength, hmajorAt]
      by_cases hmajor : 1 ≤ major.toNat ∧ major.toNat ≤ 3
      · rw [read_of_known hmajor]
        constructor
        · exact fun h => absurd h (mapError_format_ne_versionCut _)
        · rintro ⟨-, h | ⟨-, major', heq, h⟩⟩
          · omega
          · cases heq
            exact absurd hmajor h
      · rw [read_of_unknown hmajor]
        cases rest with
        | nil => exact ⟨fun _ => ⟨hmagic, .inr ⟨rfl, major, rfl, hmajor⟩⟩, fun _ => rfl⟩
        | cons minor rest =>
          constructor
          · intro h
            cases h
          · rintro ⟨-, h | ⟨h, -⟩⟩
            · omega
            · rw [List.length_cons] at h
              omega
  · have hread : read bytes = .error (.format .badMagic) := by rw [read, if_pos (by simpa using hmagic)]
    rw [hread]
    constructor
    · intro h
      cases h
    · exact fun h => absurd h.1 hmagic

theorem wellFormed_of_readData {header : Header} {bytes : List UInt8} {t : Tensor Float}
    (h : readData header bytes = .ok t) : t.WellFormed := by
  rw [readData] at h
  dsimp only at h
  split at h
  · cases h
  · cases h
    have hcount : (header.element.readAll header.shape.size bytes).toArray.size = header.shape.size := by
      simp
    split
    · rw [rowMajor_eq_generate hcount]
      exact Tensor.wellFormed_generate _ _
    · exact hcount

theorem wellFormed_of_read {bytes : List UInt8} {t : Tensor Float} (h : read bytes = .ok t) : t.WellFormed := by
  obtain ⟨_, _, _, _, hdata⟩ := exists_header_of_read h
  exact wellFormed_of_readData hdata

theorem readArray_eq {store : FileStore} {path : Path} {bytes : List UInt8} (h : store.read path = .ok bytes) :
    readArray store path = (read bytes).mapError (.malformed path) := by
  rw [readArray, h]
  rfl

/-- Reading any bytes gives an array with as many elements as its shape says or an error of the format, unless they
    end before their version can be told. Nothing past their end is looked at otherwise: looking up each byte by
    its place comes to the same. A file with such bytes is reported like one that is not there, and any other file
    without an array as malformed. -/
theorem read_outcome (bytes : List UInt8) :
    ((∃ t, read bytes = .ok t ∧ t.data.size = t.shape.size) ∨
        (∃ e, read bytes = .error (.format e) ∧ (InputError.piped (.format e)).code? = some "MC_LOAD_NPY") ∨
        (read bytes = .error .versionCut ∧ (InputError.piped .versionCut).code? = none)) ∧
      (read bytes = .error .versionCut ↔ VersionCut bytes) ∧
      (readAt bytes).mapError Stop.toReadError = read bytes ∧
      ∀ (store : FileStore) (path : Path), store.read path = .ok bytes →
        (∀ t, readArray store path = .ok t ↔ read bytes = .ok t) ∧
          ((∃ e, readArray store path = .error e ∧ e.code? = some "MC_LOAD_NOT_FOUND") ↔ VersionCut bytes) ∧
          ((∃ e, readArray store path = .error e ∧ e.code? = some "MC_LOAD_NPY") ↔
            ¬ VersionCut bytes ∧ ∀ t, read bytes ≠ .ok t) := by
  refine ⟨?_, read_eq_versionCut_iff bytes, readAt_eq bytes, fun store path hstore => ?_⟩
  · cases hread : read bytes with
    | ok t => exact .inl ⟨t, rfl, wellFormed_of_read hread⟩
    | error e =>
      cases e with
      | format e => exact .inr (.inl ⟨e, rfl, rfl⟩)
      | versionCut => exact .inr (.inr ⟨rfl, rfl⟩)
  · rw [readArray_eq hstore, ← read_eq_versionCut_iff]
    cases read bytes with
    | ok t => simp [Except.mapError]
    | error e => cases e <;> simp [Except.mapError, InputError.code?]

/-- A file with nothing but the first six bytes of every array file. -/
theorem read_outcome_magic :
    let store : FileStore := ⟨[(["A.npy".toList], .file magic)]⟩
    store.read "A.npy".toList = .ok magic ∧
      ∃ e, readArray store "A.npy".toList = .error e ∧ e.code? = some "MC_LOAD_NOT_FOUND" := by
  intro store
  have hstore : store.read "A.npy".toList = .ok magic := by rfl
  exact ⟨hstore, ((read_outcome magic).2.2.2 store _ hstore).2.1.mpr ⟨rfl, .inl rfl⟩⟩

end ArrayCalc.Npy
