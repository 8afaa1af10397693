import ArrayCalc.Number.Decimal

namespace ArrayCalc.Number

/-- A text cut after its leading decimal digits. -/
def spanDigits (cs : List Char) : List Char × List Char :=
  (cs.takeWhile Char.isDigit, cs.dropWhile Char.isDigit)

/-- The exponent part that a whole text is: a mark `e` or `E`, a sign if need be, and digits. -/
def exponentPart? : List Char → Option Int
  | mark :: rest =>
    if mark = 'e' ∨ mark = 'E' then
      let (negative, cs) :=
        match rest with
        | '+' :: cs => (false, cs)
        | '-' :: cs => (true, cs)
        | cs => (false, cs)
      if cs ≠ [] ∧ cs.all Char.isDigit then
        some (if negative then -(ofDigits cs : Int) else ofDigits cs)
      else none
    else none
  | [] => none

/-- The decimal that an unsigned literal writes: digits with at most one point and at least one
    digit, then an exponent part if need be. -/
def unsigned? (cs : List Char) : Option Decimal :=
  let (whole, rest) := spanDigits cs
  let (places, rest) :=
    match rest with
    | '.' :: rest => spanDigits rest
    | _ => ([], rest)
  if whole = [] ∧ places = [] then none
  else
    let coeff := ofDigits (whole ++ places)
    match rest with
    | [] => some ⟨coeff, -places.length⟩
    | _ => (exponentPart? rest).map fun exp => ⟨coeff, exp - places.length⟩

/-- A leading sign, and what follows it. -/
def splitSign : List Char → Bool × List Char
  | '-' :: cs => (true, cs)
  | '+' :: cs => (false, cs)
  | cs => (false, cs)

/-- A decimal literal, or the word for infinity, with at most one sign. -/
def signed? (cs : List Char) : Option Float :=
  let (negative, cs) := splitSign cs
  if cs = "Infinity".toList then some (ofCode negative infiniteCode)
  else (unsigned? cs).map (Decimal.toFloat negative)

/-- A whole number written in a base, with at least one digit. -/
def inBase? (base : Nat) (cs : List Char) : Option Float := do
  let values ← cs.mapM (digitValue? base)
  if values.isEmpty then none
  else some (ofNat (values.foldl (fun n d => base * n + d) 0))

/-- The double that a text writes, blanks at its ends aside. An empty text writes zero, and a leading
    `0x`, `0o` or `0b` opens a whole number in base sixteen, eight or two. -/
def ofText? (text : List Char) : Option Float :=
  match Text.trim text with
  | [] => some (ofNat 0)
  | '0' :: mark :: rest =>
    if mark = 'x' ∨ mark = 'X' then inBase? 16 rest
    else if mark = 'o' ∨ mark = 'O' then inBase? 8 rest
    else if mark = 'b' ∨ mark = 'B' then inBase? 2 rest
    else signed? ('0' :: mark :: rest)
  | cs => signed? cs

end ArrayCalc.Number
