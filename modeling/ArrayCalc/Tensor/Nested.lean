import ArrayCalc.Tensor.Build

namespace ArrayCalc

/-- A value or a list of nested values. -/
inductive Nested (α : Type) where
  | leaf (x : α)
  | list (items : List (Nested α))

namespace Nested

variable {α : Type}

/-- The lengths met on the way down along first items; an empty list ends the way. -/
def leadingShape : Nested α → Shape
  | leaf _ => []
  | list [] => [0]
  | list (first :: rest) => (rest.length + 1) :: leadingShape first

/-- The values in order, if the nesting has exactly the given lengths everywhere. -/
def flatten? : Shape → Nested α → Option (List α)
  | [], leaf x => some [x]
  | d :: ds, list items =>
    if items.length = d then (items.mapM (flatten? ds)).map List.flatten else none
  | _, _ => none

end Nested

namespace Tensor

variable {α : Type}

/-- The array that nested lists write; lists at one depth must have one length. -/
def ofNested (v : Nested α) : Except BuildError (Tensor α) :=
  match v.flatten? v.leadingShape with
  | some xs => .ok ⟨v.leadingShape, xs.toArray⟩
  | none => .error .ragged

/-- The nesting of the block that starts at a given place. -/
def nestedFrom [Zero α] (t : Tensor α) : Shape → Nat → Nested α
  | [], start => .leaf (t.flat start)
  | d :: ds, start => .list ((List.range d).map fun i => nestedFrom t ds (start + i * Shape.size ds))

/-- Nested lists with one level per axis; an array without axes is a bare value. -/
def toNested [Zero α] (t : Tensor α) : Nested α :=
  t.nestedFrom t.shape 0

end Tensor

end ArrayCalc
