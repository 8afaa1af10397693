import ArrayCalc.Npy.Header
import ArrayCalc.Tensor.Walk
import ArrayCalc.Text.Encoding

namespace ArrayCalc.Npy

/-- The bytes that every array file begins with. -/
def magic : List UInt8 := [0x93, 0x4E, 0x55, 0x4D, 0x50, 0x59]

def hasMagic (bytes : List UInt8) : Bool :=
  bytes.take 6 = magic

/-- How reading fails: the bytes are no array file, or they end before the two bytes of its version. -/
inductive ReadError where
  | format (e : FormatError)
  | versionCut

def ReadError.message : ReadError → String
  | format e => e.message
  | versionCut => "Offset is outside the bounds of the DataView"

/-- Elements in column-major order put into row-major order. With fewer than two axes the orders are the same. -/
def rowMajor (shape : Shape) (xs : Array Float) : Tensor Float :=
  if shape.length < 2 then ⟨shape, xs⟩
  else .traverse shape fun idx => xs.getD (Shape.offset idx (shape.columnSteps 1)) 0

/-- The array that the bytes after a header hold; bytes past its last element are ignored. -/
def readData (header : Header) (bytes : List UInt8) : Except FormatError (Tensor Float) :=
  let count := header.shape.size
  if bytes.length < count * header.element.size then
    .error (.truncatedData (Shape.floatSize (header.shape.map Number.ofNat)) header.element.size)
  else
    let xs := (header.element.readAll count bytes).toArray
    .ok (if header.columnMajor then rowMajor header.shape xs else ⟨header.shape, xs⟩)

/-- The array that the bytes after the version hold. The first version has two bytes for the length of
    the header and the others four; the third writes the header in UTF-8. -/
def readBody (major : Nat) (bytes : List UInt8) : Except FormatError (Tensor Float) := do
  let width := if major = 1 then 2 else 4
  if bytes.length < width then .error .truncatedHeader
  else
    let length := ofLittleEndian (bytes.take width)
    let rest := bytes.drop width
    if rest.length < length then .error .truncatedHeader
    else
      let text := rest.take length
      let header ← Header.ofText
        (if major = 3 then Text.decodeUtf8Lossy (Text.dropMark text) else Text.decodeWestern text)
      readData header (rest.drop length)

/-- The array that a file holds. -/
def read (bytes : List UInt8) : Except ReadError (Tensor Float) :=
  if hasMagic bytes = false then .error (.format .badMagic)
  else
    match bytes.drop 6 with
    | [] => .error .versionCut
    | major :: rest =>
      if 1 ≤ major.toNat ∧ major.toNat ≤ 3 then (readBody major.toNat (rest.drop 1)).mapError .format
      else
        match rest with
        | [] => .error .versionCut
        | minor :: _ => .error (.format (.unsupportedVersion major minor))

/-- The header of a file of little-endian doubles in row-major order, filled up so that the data begins
    at a multiple of 64 bytes. -/
def headerText (shape : Shape) : List Char :=
  let text := "\x7b'descr': '<f8', 'fortran_order': False, 'shape': ".toList ++ shape.text ++ ", \x7d".toList
  let unpadded := text.length + 11
  text ++ List.replicate ((64 - unpadded % 64) % 64) ' ' ++ ['\n']

/-- The file that holds an array, in the first version of the format. -/
def write (t : Tensor Float) : List UInt8 :=
  let header := headerText t.shape
  magic ++ [1, 0] ++ toLittleEndian 2 header.length ++ header.map (fun c => UInt8.ofNat c.toNat) ++
    t.data.toList.flatMap fun x => toLittleEndian 8 x.toBits.toNat

end ArrayCalc.Npy
