import ArrayCalc.Tensor.Nested

namespace ArrayCalc.Output

/-- A number in its shortest form; what is not finite is null. -/
def jsonNumber (x : Float) : List Char :=
  match Number.read x with
  | .finite .. => Number.compact x
  | _ => "null".toList

/-- A new line with a given indentation. -/
def newLine (indent : Nat) : List Char :=
  '\n' :: List.replicate indent ' '

mutual

/-- Nested lists in brackets, each item on a line of its own, two columns further in than its list. -/
def nestedJson (indent : Nat) : Nested Float → List Char
  | .leaf x => jsonNumber x
  | .list [] => ['[', ']']
  | .list (item :: items) =>
    '[' :: newLine (indent + 2) ++ nestedJson (indent + 2) item ++ nestedJsonRest (indent + 2) items ++
      newLine indent ++ [']']

/-- The items of a list after the first. -/
def nestedJsonRest (indent : Nat) : List (Nested Float) → List Char
  | [] => []
  | item :: items => ',' :: newLine indent ++ nestedJson indent item ++ nestedJsonRest indent items

end

def json (t : Tensor Float) : List Char :=
  nestedJson 0 t.toNested

end ArrayCalc.Output
