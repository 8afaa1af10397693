import ArrayCalc.Tensor.Basic

namespace ArrayCalc.Output

/-- Pieces of a given width, of which the last may be short; width zero gives none. -/
def chunks {α : Type} (width : Nat) (xs : List α) : List (List α) :=
  if width = 0 ∨ xs = [] then []
  else xs.take width :: chunks width (xs.drop width)
termination_by xs.length
decreasing_by
  rename_i h
  have hpos : 0 < xs.length := List.length_pos_iff.2 fun hnil => h (Or.inr hnil)
  rw [List.length_drop]
  omega

/-- The rows of an array: all axes but the last are folded into one. An array without axes is a single
    row of one element. -/
def rows (t : Tensor Float) : List (List Float) :=
  match t.shape.getLast? with
  | none => [[t.flat 0]]
  | some width => chunks width t.data.toList

/-- The rows of an array, those with one axis being a single row. -/
def wideRows (t : Tensor Float) : List (List Float) :=
  if t.rank ≤ 1 then [t.data.toList] else rows t

/-- The rows of an array, those with one axis being a single column. -/
def tallRows (t : Tensor Float) : List (List Float) :=
  if t.rank = 1 then t.data.toList.map fun x => [x] else rows t

/-- The texts of numbers with a given count of significant digits. -/
def generalTexts (precision : Float) (xs : List Float) : Except Number.DigitRange (List (List Char)) :=
  xs.mapM fun x => Number.general x precision

/-- Rows on lines, elements at tabs; an array with at most one axis has one element on each line. -/
def plain (t : Tensor Float) (precision : Float) : Except Number.DigitRange (List Char) :=
  if t.rank ≤ 1 then (generalTexts precision t.data.toList).map (List.intercalate ['\n'])
  else do
    let lines ← (rows t).mapM (generalTexts precision)
    .ok (List.intercalate ['\n'] (lines.map (List.intercalate ['\t'])))

/-- Rows on lines, elements at commas, every number in full. -/
def csv (t : Tensor Float) : List Char :=
  List.intercalate ['\n'] ((wideRows t).map fun row => List.intercalate [','] (row.map Number.lossless))

/-- The rows of a matrix in mathematical typesetting. -/
def latex (t : Tensor Float) (precision : Float) : Except Number.DigitRange (List Char) := do
  let lines ← (wideRows t).mapM (generalTexts precision)
  let body := lines.map fun cells => List.intercalate " & ".toList cells ++ " \\\\".toList
  .ok (List.intercalate ['\n'] ("\\begin\x7bbmatrix\x7d".toList :: body ++ ["\\end\x7bbmatrix\x7d".toList]))

/-- The body of a text file: each row on a line of its own, with a delimiter between elements. -/
def delimited (t : Tensor Float) (delimiter : Char) (precision : Float) :
    Except Number.DigitRange (List Char) := do
  let lines ← (tallRows t).mapM (generalTexts precision)
  .ok (lines.flatMap fun cells => List.intercalate [delimiter] cells ++ ['\n'])

end ArrayCalc.Output
