import ArrayCalc.Output.Columns
import ArrayCalc.Output.Rows

namespace ArrayCalc.Output

/-- The characters of a line of a table: at its left end, between two columns, at its right end, and, for
    a rule, the one that fills it. -/
structure Edge where
  left : Char
  join : Char
  right : Char

/-- A rule over columns of given widths, with room for one space on each side. -/
def Edge.rule (e : Edge) (fill : Char) (widths : List Nat) : List Char :=
  e.left :: List.intercalate [e.join] (widths.map fun w => List.replicate (w + 2) fill) ++ [e.right]

/-- A line of cells, each filled up to its width, with one space on each side. -/
def Edge.line (e : Edge) (widths : List Nat) (cells : List (List Char)) : List Char :=
  e.left :: List.intercalate [e.join]
    (List.zipWith (fun w cell => ' ' :: Text.padRight w ' ' cell ++ [' ']) widths cells) ++ [e.right]

def tableTitle : List Char := "Matrix Result".toList

/-- A text in the middle of a line, more to the left where the room is odd. -/
def center (width : Nat) (text : List Char) : List Char :=
  let room := width - text.length
  List.replicate (room / 2) ' ' ++ text ++ List.replicate (room - room / 2) ' '

/-- The rows of a table. An array with at most one axis is a single row. -/
def tableRows (t : Tensor Float) : List (List Float) :=
  if t.rank ≤ 1 then chunks (max t.data.size 1) t.data.toList else rows t

/-- How many columns a table has; it has one also for no elements at all. -/
def tableColumns (t : Tensor Float) : Nat :=
  if t.rank ≤ 1 then max t.data.size 1 else t.shape.getLast?.getD 0

/-- A table in a box, under a title and a line of column numbers. -/
def table (t : Tensor Float) (precision : Float) : Except Number.DigitRange (List Char) := do
  let body ← (tableRows t).mapM (generalTexts precision)
  let header := (List.range (tableColumns t)).map fun i => '[' :: Number.digits i ++ [']']
  let widths := header.mapIdx fun i title => width (title :: body.map fun row => row.getD i [])
  let top := Edge.rule ⟨'┏', '┳', '┓'⟩ '━' widths
  let lines :=
    [top, Edge.line ⟨'┃', '┃', '┃'⟩ widths header, Edge.rule ⟨'┡', '╇', '┩'⟩ '━' widths] ++
      body.map (Edge.line ⟨'│', '│', '│'⟩ widths) ++ [Edge.rule ⟨'└', '┴', '┘'⟩ '─' widths]
  .ok (List.intercalate ['\n'] (center top.length tableTitle :: lines))

end ArrayCalc.Output
