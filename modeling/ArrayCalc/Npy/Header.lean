import ArrayCalc.Npy.Element
import ArrayCalc.Number.Literal
import ArrayCalc.Tensor.Build

namespace ArrayCalc.Npy

/-- Why bytes are no array file. -/
inductive FormatError where
  | badMagic
  | unsupportedVersion (major minor : UInt8)
  | truncatedHeader
  | missingElementType (header : List Char)
  | unsupportedElementType (kind : Kind) (size : Nat)
  | missingOrder
  | missingShape
  | invalidDimension (entry : List Char)
  | truncatedData (count : Float) (size : Nat)

def FormatError.message : FormatError → String
  | badMagic => "Not an NPY file (bad magic string)"
  | unsupportedVersion major minor =>
    "Unsupported NPY format version " ++ toString major.toNat ++ "." ++ toString minor.toNat
  | truncatedHeader => "Truncated NPY header"
  | missingElementType header => "Unsupported or missing dtype in NPY header: " ++ String.ofList header
  | unsupportedElementType kind size =>
    "Unsupported NPY dtype: " ++ String.ofList (kind.letter :: Number.natText size)
  | missingOrder => "Missing fortran_order in NPY header"
  | missingShape => "Missing shape in NPY header"
  | invalidDimension entry => "Invalid NPY shape entry: " ++ String.ofList entry
  | truncatedData count size =>
    "NPY data truncated: expected " ++ String.ofList (Number.compact count) ++ " elements of " ++
      toString size ++ " bytes"

/-- What a file says about its elements. -/
structure Header where
  element : ElementType
  columnMajor : Bool
  shape : Shape
  deriving DecidableEq, Repr

/-- What `f` gives at the first place in a text where it gives something. -/
def search? {α : Type} (f : List Char → Option α) : List Char → Option α
  | [] => f []
  | c :: cs => f (c :: cs) <|> search? f cs

/-- The text after a quoted key and its colon, blanks around the colon aside. -/
def afterKey? (key : String) (cs : List Char) : Option (List Char) := do
  let rest ← Text.after? ("'" ++ key ++ "'").toList cs
  let rest ← Text.after? [':'] (rest.dropWhile Text.isBlank)
  some (rest.dropWhile Text.isBlank)

/-- The value of the key for the element type: in quotes, a mark for the byte order if need be, a letter
    for the kind and the size. Only the mark `>` means most significant byte first. -/
def elementType? (cs : List Char) : Option ElementType := do
  let rest ← afterKey? "descr" cs
  let rest ← Text.after? "'".toList rest
  let (littleEndian, rest) :=
    match rest with
    | c :: tail => if c ∈ ['<', '>', '|', '='] then (c != '>', tail) else (true, rest)
    | [] => (true, rest)
  match rest with
  | [] => none
  | c :: rest =>
    let kind ← Kind.ofLetter? c
    let (size, rest) := Number.spanDigits rest
    if size = [] then none
    else
      let _ ← Text.after? "'".toList rest
      some ⟨kind, Number.ofDigits size, littleEndian⟩

def columnMajor? (cs : List Char) : Option Bool := do
  let rest ← afterKey? "fortran_order" cs
  match Text.after? "True".toList rest, Text.after? "False".toList rest with
  | some _, _ => some true
  | none, some _ => some false
  | none, none => none

/-- The text between the parentheses after the key for the shape. -/
def shapeText? (cs : List Char) : Option (List Char) := do
  let rest ← afterKey? "shape" cs
  let rest ← Text.after? ['('] rest
  if ')' ∈ rest then some (rest.takeWhile (· ≠ ')')) else none

/-- A size in any notation for numbers; an `L` may follow it. -/
def dimension (entry : List Char) : Except FormatError Nat :=
  let digits := if entry.getLast? = some 'L' then entry.dropLast else entry
  match (Number.ofText? digits).bind Number.toNat? with
  | some n => .ok n
  | none => .error (.invalidDimension entry)

/-- The sizes in a text that commas divide; blank pieces are left out. -/
def shape (text : List Char) : Except FormatError Shape :=
  (((text.splitOn ',').map Text.trim).filter (· ≠ [])).mapM dimension

/-- What a header text says. Each key is looked for wherever it first fits. -/
def Header.ofText (cs : List Char) : Except FormatError Header := do
  let some element := search? elementType? cs | .error (.missingElementType (Text.trim cs))
  if element.size ∉ element.kind.sizes then
    .error (.unsupportedElementType element.kind element.size)
  else
    let some columnMajor := search? columnMajor? cs | .error .missingOrder
    let some text := search? shapeText? cs | .error .missingShape
    let shape ← Npy.shape text
    .ok ⟨element, columnMajor, shape⟩

end ArrayCalc.Npy
