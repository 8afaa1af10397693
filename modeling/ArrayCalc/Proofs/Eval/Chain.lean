import ArrayCalc.Proofs.Eval.Elementwise
import ArrayCalc.Proofs.Tensor.CommonShape

namespace ArrayCalc.Value

theorem broadcast_eq_ok_iff {label : String} {a b s : Shape} :
    broadcast label a b = .ok s ↔ a.broadcast? b = some s := by
  rw [broadcast]
  cases a.broadcast? b <;> simp

/-- Operands that are combined element by element, two at a time: with any operators, in any order, with any nesting. -/
inductive Chain where
  | operand (v : Value)
  | combine (op : String) (f : Float → Float → Float) (left right : Chain)

namespace Chain

/-- The value of a chain; the first failure ends the evaluation. -/
def eval : Chain → Except EvaluationError Value
  | operand v => .ok v
  | combine op f left right => do
    let a ← left.eval
    let b ← right.eval
    elementwise op f a b

/-- The shapes of the operands from left to right; scalars have no axes. -/
def shapes : Chain → List Shape
  | operand v => [v.toTensor.shape]
  | combine _ _ left right => left.shapes ++ right.shapes

end Chain

/-- The shape of a result, if there is one. -/
def shape? (r : Except EvaluationError Value) : Option Shape :=
  r.toOption.map fun v => v.toTensor.shape

theorem isSome_shape?_iff {r : Except EvaluationError Value} : (shape? r).isSome ↔ ∃ v, r = .ok v := by
  cases r <;> simp [shape?, Except.toOption]

theorem shape?_elementwise (op : String) (f : Float → Float → Float) (a b : Value) :
    shape? (elementwise op f a b) = a.toTensor.shape.broadcast? b.toTensor.shape := by
  by_cases hscalars : ∃ x y, a = .scalar x ∧ b = .scalar y
  · obtain ⟨x, y, rfl, rfl⟩ := hscalars
    rfl
  · rw [elementwise_eq op f hscalars, Tensor.zipWith?_eq_map]
    cases a.toTensor.shape.broadcast? b.toTensor.shape <;> rfl

namespace Chain

/-- The operators and the nesting of a chain have no part in its shape. -/
theorem shape?_eval (c : Chain) : shape? c.eval = Shape.common c.shapes := by
  induction c with
  | operand v => exact (Shape.broadcast?_nil _).symm
  | combine op f left right ihl ihr =>
    rw [shapes, Shape.common_append, ← ihl, ← ihr, eval]
    cases left.eval with
    | error e => rfl
    | ok a => cases right.eval with
      | error e => rfl
      | ok b => exact shape?_elementwise op f a b

end Chain

/-- Broadcasting is a commutative, associative and idempotent operation on shapes, which fails alike in either order and with
    either grouping, with the shape without axes as identity; a common shape takes in either of its two shapes again
    without a change. So whether a chain of elementwise operations has a value, and of which shape, depends on the shapes
    of its operands only and neither on their order nor on the nesting. -/
theorem broadcast_laws (label : String) (a b c : Shape) :
    (∀ s, broadcast label a b = .ok s ↔ broadcast label b a = .ok s) ∧
      (∀ s, (∃ ab, broadcast label a b = .ok ab ∧ broadcast label ab c = .ok s) ↔
        ∃ bc, broadcast label b c = .ok bc ∧ broadcast label a bc = .ok s) ∧
      broadcast label a a = .ok a ∧ broadcast label a [] = .ok a ∧ broadcast label [] a = .ok a ∧
      (∀ s, broadcast label a b = .ok s → broadcast label s a = .ok s ∧ broadcast label a s = .ok s ∧
        broadcast label s b = .ok s ∧ broadcast label b s = .ok s) ∧
      ∀ x y : Chain, x.shapes.Perm y.shapes →
        ((∃ v, x.eval = .ok v) ↔ ∃ w, y.eval = .ok w) ∧
          ∀ v w, x.eval = .ok v → y.eval = .ok w → v.toTensor.shape = w.toTensor.shape := by
  simp only [broadcast_eq_ok_iff]
  refine ⟨fun s => by rw [Shape.broadcast?_comm], fun s => ?_, Shape.broadcast?_self a, Shape.broadcast?_nil a,
    Shape.broadcast?_comm [] a ▸ Shape.broadcast?_nil a, fun s h => ?_, fun x y hperm => ?_⟩
  · rw [← Option.bind_eq_some_iff, ← Option.bind_eq_some_iff, Shape.broadcast?_assoc]
  · obtain ⟨hleft, hright⟩ := Shape.broadcast?_of_broadcast?_eq h
    exact ⟨hleft, Shape.broadcast?_comm a s ▸ hleft, hright, Shape.broadcast?_comm b s ▸ hright⟩
  · have hshape : shape? x.eval = shape? y.eval := by
      rw [Chain.shape?_eval, Chain.shape?_eval, Shape.common_perm hperm]
    refine ⟨by rw [← isSome_shape?_iff, ← isSome_shape?_iff, hshape], fun v w hv hw => ?_⟩
    rw [hv, hw] at hshape
    exact Option.some.inj hshape

/-- A column and a row together with a scalar, nested and ordered in two ways. -/
theorem broadcast_laws_column :
    let column : Chain := .operand (.array ⟨[2, 1], #[1, 2]⟩)
    let row : Chain := .operand (.array ⟨[3], #[3, 4, 5]⟩)
    let scalar : Chain := .operand (.scalar 6)
    let x : Chain := .combine "*" (· * ·) (.combine "+" (· + ·) column row) scalar
    let y : Chain := .combine "+" (· + ·) row (.combine "*" (· * ·) scalar column)
    x.shapes.Perm y.shapes ∧ broadcast "+" [2, 1] [3] = .ok [2, 3] ∧ broadcast "+" [2, 3] [2, 1] = .ok [2, 3] ∧
      (∃ v, x.eval = .ok v) ∧ ∃ w, y.eval = .ok w := by
  intro column row scalar x y
  have hperm : x.shapes.Perm y.shapes := by decide
  have hcommon : broadcast "+" [2, 1] [3] = .ok [2, 3] := rfl
  obtain ⟨-, -, -, -, -, habsorb, hchains⟩ := broadcast_laws "+" [2, 1] [3] []
  have hx : ∃ v, x.eval = .ok v := ⟨_, rfl⟩
  exact ⟨hperm, hcommon, (habsorb _ hcommon).1, hx, (hchains x y hperm).1.mp hx⟩

end ArrayCalc.Value
