import ArrayCalc.Number.Literal
import ArrayCalc.Tensor.Basic

namespace ArrayCalc

/-- Why a text holds no array of numbers. Lines and rows count from one. -/
inductive TextError where
  | notNumber (token : List Char) (line : Nat)
  | ragged (width got row : Nat)
  | noData
  deriving DecidableEq, Repr

def TextError.message : TextError → String
  | notNumber token line =>
    "could not convert string to float: '" ++ String.ofList token ++ "' (line " ++ toString line ++ ")"
  | ragged width got row =>
    "the number of columns changed from " ++ toString width ++ " to " ++ toString got ++ " at row " ++ toString row
  | noData => "input contained no data"

namespace TextMatrix

/-- A number, or a word for infinity or for what is not a number, letters in either case. -/
def number? (token : List Char) : Option Float :=
  let lower := String.ofList (token.map Char.toLower)
  if lower ∈ ["nan", "+nan", "-nan"] then some (Number.ofCode false (Number.infiniteCode + 1))
  else if lower ∈ ["inf", "+inf", "infinity"] then some (Number.ofCode false Number.infiniteCode)
  else if lower ∈ ["-inf", "-infinity"] then some (Number.ofCode true Number.infiniteCode)
  else Number.ofText? token

/-- The words of a line before a comment. -/
def lineWords (line : List Char) : List (List Char) :=
  Text.words (line.takeWhile (· ≠ '#'))

/-- The numbers of a row on a given line. -/
def row (line : Nat) (tokens : List (List Char)) : Except TextError (List Float) :=
  tokens.mapM fun token =>
    match number? token with
    | some x => .ok x
    | none => .error (.notNumber token line)

/-- Reads the remaining lines, the first of which has the given number, after the rows read so far. Rows
    must be as wide as the first one, and lines without words count for nothing. -/
def readRows (rows : List (List Float)) (line : Nat) : List (List Char) → Except TextError (List (List Float))
  | [] => .ok rows
  | text :: texts =>
    let tokens := lineWords text
    if tokens = [] then readRows rows (line + 1) texts
    else do
      let numbers ← row line tokens
      match rows.head? with
      | some first =>
        if numbers.length = first.length then readRows (rows ++ [numbers]) (line + 1) texts
        else .error (.ragged first.length numbers.length (rows.length + 1))
      | none => readRows [numbers] (line + 1) texts

/-- The array of a table of rows: one number has no axes, and a single row or column has one. -/
def squeeze (rows : List (List Float)) : Tensor Float :=
  let height := rows.length
  let width := (rows.head?.map List.length).getD 0
  let data := rows.flatten.toArray
  if height = 1 ∧ width = 1 then ⟨[], data⟩
  else if height = 1 ∨ width = 1 then ⟨[data.size], data⟩
  else ⟨[height, width], data⟩

/-- The array that a text writes, one row to a line. -/
def parse (text : List Char) : Except TextError (Tensor Float) := do
  let rows ← readRows [] 1 (text.splitOn '\n')
  if rows = [] then .error .noData else .ok (squeeze rows)

end TextMatrix

end ArrayCalc
