import ArrayCalc.Eval.Error
import ArrayCalc.Eval.Value
import ArrayCalc.Mat.Power
import ArrayCalc.Tensor.Broadcast
import ArrayCalc.Tensor.Transpose

namespace ArrayCalc

/-- A matrix whose size is not known beforehand. -/
structure SomeMat (α : Type) where
  rows : Nat
  cols : Nat
  mat : Mat α rows cols

namespace Tensor

/-- An array with two axes as a matrix. -/
def toMat {α : Type} [Zero α] (label : String) (t : Tensor α) : Except EvaluationError (SomeMat α) :=
  match t.shape with
  | [m, n] => .ok ⟨m, n, .ofRowMajor t.data⟩
  | shape => .error (.notMatrix label shape)

/-- An array with two axes of one size as a square matrix. -/
def toSquare {α : Type} [Zero α] (label : String) (t : Tensor α) : Except EvaluationError ((n : Nat) × Mat α n n) :=
  match t.shape with
  | [m, n] => if m = n then .ok ⟨n, .ofRowMajor t.data⟩ else .error (.notSquare label t.shape)
  | shape => .error (.notMatrix label shape)

end Tensor

/-- What a failed solution means for the expression: a singular matrix is an error, a right-hand side
    without columns a fault. -/
def Mat.SolveError.toFailure (label : String) : Mat.SolveError → Failure
  | .singular => .evaluation (.singular label)
  | .noColumns => .fault .noColumns

/-- An integer power of an array with two axes of one size. -/
def matrixPower (label : String) (t : Tensor Float) (exponent : Int) : Except Failure (Tensor Float) := do
  let ⟨_, a⟩ ← (t.toSquare label).mapError .evaluation
  let power ← (a.power exponent).mapError (Mat.SolveError.toFailure label)
  .ok power.toTensor

namespace Value

/-- The common shape of two operands. -/
def broadcast (label : String) (a b : Shape) : Except EvaluationError Shape :=
  match a.broadcast? b with
  | some s => .ok s
  | none => .error (.incompatible label a b)

/-- Combines two operands element by element. -/
def elementwise (op : String) (f : Float → Float → Float) (a b : Value) : Except EvaluationError Value :=
  match a, b with
  | scalar x, scalar y => .ok (scalar (f x y))
  | _, _ =>
    match Tensor.zipWith? f a.toTensor b.toTensor with
    | some t => .ok (array t)
    | none => .error (.incompatible (Operand.binary op).text a.toTensor.shape b.toTensor.shape)

def negate (v : Value) : Value :=
  v.map fun x => -x

def transpose : Value → Value
  | scalar x => scalar x
  | array t => array t.transpose

end Value

namespace Tensor

variable {α : Type} [Zero α] [Add α] [Mul α]

/-- The matrix product of two shapes, with an axis that one operand lacks left out of the result: the
    rows and columns of the product, its inner size and its shape. Operands with one axis count as one
    row on the left and as one column on the right. -/
def productSizes? (a b : Shape) : Option (Nat × Nat × Nat × Nat × Shape) :=
  match a, b with
  | [k], [k'] => some (1, k, k', 1, [])
  | [k], [k', n] => some (1, k, k', n, [n])
  | [m, k], [k'] => some (m, k, k', 1, [m])
  | [m, k], [k', n] => some (m, k, k', n, [m, n])
  | _, _ => none

/-- Why two arrays have no matrix product. -/
inductive ProductError where
  | rank
  | notAligned

/-- The matrix product of arrays with one or two axes. -/
def matmul (a b : Tensor α) : Except ProductError (Tensor α) :=
  match productSizes? a.shape b.shape with
  | none => .error .rank
  | some (m, k, k', n, shape) =>
    if k = k' then
      let product := (Mat.ofRowMajor a.data : Mat α m k).mul (Mat.ofRowMajor b.data : Mat α k n)
      .ok ⟨shape, product.toTensor.data⟩
    else .error .notAligned

end Tensor

namespace Value

/-- The matrix product. Two operands with one axis give a scalar. -/
def matmul (a b : Value) : Except EvaluationError Value :=
  match a, b with
  | array x, array y =>
    match x.matmul y with
    | .ok t => .ok (if t.shape = [] then scalar (t.flat 0) else array t)
    | .error .rank => .error (.productRank x.shape y.shape)
    | .error .notAligned => .error (.notAligned x.shape y.shape)
  | _, _ => .error .scalarProduct

/-- A power with the exponent cut off to a whole number; of an array, the matrix power. -/
def power (base exponent : Value) : Except Failure Value :=
  match exponent with
  | array _ => .error (.evaluation .exponentNotScalar)
  | scalar y =>
    match Number.truncated? y with
    | none => .error (.evaluation .exponentNotFinite)
    | some n =>
      match base with
      | scalar x => .ok (scalar (x ^ Number.ofInt n))
      | array t => (matrixPower (Operand.binary "^").text t n).map array

end Value

/-- An operand must not be a tuple. -/
def Result.toValue (operand : Operand) : Result → Except EvaluationError Value
  | .value v => .ok v
  | .tuple _ => .error (.tupleOperand operand)

/-- The unary operators by their spelling. -/
def unaryOperator? (op : String) : Option (Value → Value) :=
  match op with
  | "transpose" => some Value.transpose
  | "negate" => some Value.negate
  | _ => none

/-- The binary operators by their spelling. -/
def binaryOperator? (op : String) : Option (Value → Value → Except Failure Value) :=
  match op with
  | "+" => some fun a b => (Value.elementwise op (· + ·) a b).mapError .evaluation
  | "-" => some fun a b => (Value.elementwise op (· - ·) a b).mapError .evaluation
  | "*" => some fun a b => (Value.elementwise op (· * ·) a b).mapError .evaluation
  | "@" => some fun a b => (Value.matmul a b).mapError .evaluation
  | "^" => some Value.power
  | _ => none

end ArrayCalc
