import ArrayCalc.Tensor.Basic

namespace ArrayCalc.Output

/-- The parts of a number that are lined up: what stands before the point, the point with the digits
    after it, and the exponent. -/
structure Cell where
  whole : List Char
  fraction : List Char
  exponent : List Char

/-- Cuts a text before its point; a text without a point gets one at its end. -/
def Cell.ofText (text exponent : List Char) : Cell :=
  let digits := text.dropWhile (· ≠ '.')
  ⟨text.takeWhile (· ≠ '.'), if digits = [] then ['.'] else digits, exponent⟩

/-- The magnitude from which on numbers have exponents. -/
def exponentLimit : Float := 1e8

/-- A number with `precision` digits after the point, without the zeros that the text ends in. -/
def positionalCell (precision x : Float) : Except Number.DigitRange Cell :=
  match Number.read x with
  | .finite negative mant exp =>
    match Number.places? precision with
    | none => .error .fixed
    | some places =>
      let text := Number.signText (negative && mant ≠ 0) ++ Number.fixed x mant exp places
      .ok (Cell.ofText (Text.stripRight '0' text) [])
  | _ => .ok ⟨(Number.special? x).getD [], [], []⟩

/-- How many digits after the point a number needs in scientific notation, when it is rounded to
    `precision` of them. -/
def scientificPlaces (precision x : Float) : Except Number.DigitRange Nat :=
  match Number.read x with
  | .finite _ mant exp =>
    match Number.places? precision with
    | none => .error .exponential
    | some places => .ok (Text.stripRight '0' ((Number.exponential mant exp places).1.drop 1)).length
  | _ => .ok 0

/-- A number in scientific notation with a given count of digits after the point. -/
def scientificCell (places : Nat) (x : Float) : Cell :=
  match Number.read x with
  | .finite negative mant exp =>
    let (digits, order) := Number.exponential mant exp places
    Cell.ofText (Number.signText (negative && mant ≠ 0) ++ Number.pointAfterFirst digits)
      (Number.exponentText order)
  | _ => ⟨(Number.special? x).getD [], [], []⟩

/-- Whether a number is finite and large enough to need an exponent. -/
def needsExponent (x : Float) : Bool :=
  match Number.read x with
  | .finite .. => exponentLimit ≤ x.abs
  | _ => false

/-- The parts of all numbers: positional ones, unless one of them needs an exponent. In scientific
    notation all have as many digits after the point as the one that needs the most. -/
def cells (precision : Float) (xs : List Float) : Except Number.DigitRange (List Cell) :=
  if xs.any needsExponent then do
    let places ← xs.mapM (scientificPlaces precision)
    .ok (xs.map (scientificCell (places.foldl max 0)))
  else xs.mapM (positionalCell precision)

/-- The widest of some texts. -/
def width (texts : List (List Char)) : Nat :=
  (texts.map List.length).foldl max 0

/-- The parts side by side, each filled up to one width: the first and the last on the left, the digits
    after the point on the right. -/
def align (cs : List Cell) : List (List Char) :=
  let wholes := width (cs.map Cell.whole)
  let fractions := width (cs.map Cell.fraction)
  let exponents := width (cs.map Cell.exponent)
  cs.map fun c =>
    Text.padLeft wholes ' ' c.whole ++ Text.padRight fractions ' ' c.fraction ++
      Text.padLeft exponents ' ' c.exponent

/-- The texts from a given place on in nested brackets, inside `depth` open ones. Innermost items are
    divided by a space, rows by a new line, and larger blocks by blank lines too; each new line is
    indented by its open brackets. -/
def brackets (texts : Array (List Char)) (depth : Nat) : Shape → Nat → List Char
  | [], start => texts.getD start []
  | d :: ds, start =>
    let items := (List.range d).map fun i => brackets texts (depth + 1) ds (start + i * Shape.size ds)
    let separator :=
      if ds = [] then [' '] else List.replicate ds.length '\n' ++ List.replicate (depth + 1) ' '
    '[' :: List.intercalate separator items ++ [']']

/-- An array in nested brackets with its numbers lined up. -/
def bracketed (t : Tensor Float) (precision : Float) : Except Number.DigitRange (List Char) :=
  if t.data.isEmpty then .ok ['[', ']']
  else do
    let texts := align (← cells precision t.data.toList)
    if t.shape = [] then .ok (Text.trim (texts.headD []))
    else .ok (brackets texts.toArray 0 t.shape 0)

end ArrayCalc.Output
