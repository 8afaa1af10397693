import ArrayCalc.Tensor.Walk

namespace ArrayCalc

namespace Shape

/-- The common size of two axes: equal sizes agree, and a size of one adapts to the other. -/
def broadcastDim (a b : Nat) : Option Nat :=
  if a = 1 then some b
  else if b = 1 ∨ a = b then some a
  else none

/-- The common shape of two shapes whose axes are listed innermost first; missing axes have size one. -/
def broadcastInner : Shape → Shape → Option Shape
  | [], bs => some bs
  | as, [] => some as
  | a :: as, b :: bs => do
    let d ← broadcastDim a b
    let ds ← broadcastInner as bs
    some (d :: ds)

/-- The common shape of two shapes aligned at their innermost axes. -/
def broadcast? (a b : Shape) : Option Shape :=
  (broadcastInner a.reverse b.reverse).map List.reverse

/-- The distances along the axes of a common shape in an array of shape `s`: zero on the axes that `s`
    lacks and on those where it has size one. -/
def broadcastSteps (rank : Nat) (s : Shape) : List Nat :=
  List.replicate (rank - s.length) 0 ++ List.zipWith (fun d step => if d = 1 then 0 else step) s s.steps

end Shape

namespace Tensor

variable {α β γ : Type} [Zero α] [Zero β]

/-- Combines the elements of two arrays that stand at the same multi-index of their common shape. -/
def zipWith? (f : α → β → γ) (a : Tensor α) (b : Tensor β) : Option (Tensor γ) :=
  (a.shape.broadcast? b.shape).map fun shape =>
    let stepsA := a.shape.broadcastSteps shape.length
    let stepsB := b.shape.broadcastSteps shape.length
    traverse shape fun idx => f (a.flat (Shape.offset idx stepsA)) (b.flat (Shape.offset idx stepsB))

theorem zipWith?_eq_map (f : α → β → γ) (a : Tensor α) (b : Tensor β) :
    zipWith? f a b = (a.shape.broadcast? b.shape).map fun shape =>
      ofIndex shape fun idx => f (a.flat (Shape.offset idx (a.shape.broadcastSteps shape.length)))
        (b.flat (Shape.offset idx (b.shape.broadcastSteps shape.length))) := by
  simp only [zipWith?, traverse_eq_ofIndex]

end Tensor

end ArrayCalc
