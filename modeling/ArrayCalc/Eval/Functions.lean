import ArrayCalc.Eval.Operators
import ArrayCalc.Mat.Cholesky
import ArrayCalc.Mat.Eigen

namespace ArrayCalc

/-- What an evaluation takes from the machine that it runs on: the samples that are drawn, and what is granted to
    the arrays that `zeros`, `ones`, `rand`, `eye` and `diag` fill. Arrays that hold the result of an operator or of
    another function are not held to a capacity. -/
structure Host where
  samples : Nat → Float
  capacity : Capacity

/-- A computation that can draw samples; its state counts those drawn so far. -/
abbrev Draw := StateT Nat (Except Failure)

/-- A reason that a library function gives for failing. -/
def complain {α : Type} (e : EvaluationError) : Except Failure α :=
  .error (.evaluation e)

/-- The result of an iteration, which there is if the iteration ends. -/
def ended {α : Type} (result? : Option α) : Except Failure α :=
  match result? with
  | some a => .ok a
  | none => .error .endless

/-- What missing eigenvalues mean for the expression: a complex one is an error, a row past the last one
    a fault. -/
def Mat.EigenError.toFailure (label : String) : Mat.EigenError → Failure
  | .complex => .evaluation (.complexEigenvalues label)
  | .noRow => .fault .noRow

namespace Arguments

/-- The argument at a position, counted from zero. -/
def get (args : List Value) (label : String) (index : Nat) : Except Failure Value :=
  match args[index]? with
  | some v => .ok v
  | none => complain (.missingArgument label (index + 1))

def array (args : List Value) (label : String) (index : Nat) : Except Failure (Tensor Float) := do
  match ← get args label index with
  | .array t => .ok t
  | .scalar _ => complain (.needsArray label (index + 1))

def matrix (args : List Value) (label : String) (index : Nat) : Except Failure (SomeMat Float) := do
  let t ← array args label index
  (t.toMat label).mapError .evaluation

/-- A scalar argument cut off to a whole number. -/
def integer (args : List Value) (label : String) (index : Nat) : Except Failure Int := do
  match ← get args label index with
  | .array _ => complain (.needsScalar label (index + 1))
  | .scalar x =>
    match Number.truncated? x with
    | some n => .ok n
    | none => complain (.needsFinite label (index + 1))

/-- All arguments as the sizes of an array. -/
def dimensions (args : List Value) (label : String) : Except Failure Shape := do
  let dims ← (List.range args.length).mapM (integer args label)
  if dims.any (· < 0) then complain (.negativeDimension label) else .ok (dims.map Int.toNat)

end Arguments

/-- An array with one axis that holds a list. -/
def vector (xs : List Float) : Value :=
  .array (.ofList xs)

/-- A filled array, with the refusal of the machine turned into a fault. -/
def filled (capacity : Capacity) (shape : Shape) (x : Float) : Except Failure (Tensor Float) :=
  (Tensor.filled capacity shape x).mapError fun e => .fault (.build e)

/-- The sum of all elements, from left to right onto zero. -/
def total (xs : Array Float) : Float :=
  xs.foldl (· + ·) 0

namespace Mat

variable {m n : Nat}

/-- Decomposing a matrix without rows or columns is a fault. -/
def requireEntries (_ : Mat Float m n) : Except Failure Unit :=
  if m = 0 ∨ n = 0 then .error (.fault .emptyMatrix) else .ok ()

/-- The singular values, largest first. -/
def singularValues (a : Mat Float m n) : Except Failure (List Float) := do
  a.requireEntries
  let d ← ended a.singular?
  .ok d.values

/-- The sum of the diagonal, from the top onto zero. -/
def trace (a : Mat Float m n) : Float :=
  sumBetween 0 (min m n) fun i => a.get i i

/-- How many singular values exceed what rounding can leave of a zero one. -/
def rank (a : Mat Float m n) : Except Failure Nat := do
  let values ← a.singularValues
  let largest := values.foldl larger (values.headD 0)
  let tolerance := largest * Number.ofNat (max m n) * epsilon
  .ok (values.filter (tolerance < ·)).length

/-- The quotient of the largest and the smallest singular value. -/
def condition (a : Mat Float m n) : Except Failure Float := do
  let values ← a.singularValues
  let largest := values.headD 0
  let smallest := values.getLastD 0
  .ok (if smallest == 0 then Number.ofCode false Number.infiniteCode else largest / smallest)

/-- The full singular value decomposition: a basis, the singular values, and the transpose of the other
    basis. -/
def svd (a : Mat Float m n) : Except Failure (List Value) := do
  a.requireEntries
  let d ← ended a.singular?
  let left := completeBasis basisTolerance d.left (min m n)
  let right := completeBasis basisTolerance d.right (min m n)
  .ok [.array left.toTensor, vector d.values, .array right.transpose.toTensor]

/-- The permutation and the triangular factors of a matrix that is not wide. -/
def lu (label : String) (a : Mat Float m n) : Except Failure (List Value) :=
  if m < n then complain (.wide label [m, n])
  else
    let e := a.eliminate
    .ok [.array e.permutation.toTensor, .array e.lower.toTensor, .array e.upper.toTensor]

end Mat

/-- The numerical rank. Without two axes it tells whether some element is not zero. -/
def rankOf (label : String) (v : Value) : Except Failure Nat :=
  match v with
  | .array ⟨[m, n], data⟩ => (Mat.ofRowMajor data : Mat Float m n).rank
  | .array t =>
    if 2 < t.rank then complain (.tooManyAxes label t.shape)
    else .ok (if t.data.any fun x => !(x == 0) then 1 else 0)
  | .scalar x => .ok (if x == 0 then 0 else 1)

/-- The matrix with a vector on its diagonal, or the diagonal of a matrix. -/
def diagonal (capacity : Capacity) (label : String) (t : Tensor Float) : Except Failure (Tensor Float) :=
  match t.shape with
  | [_] => do
    let n := t.data.size
    let zeros ← filled capacity [n, n] 0
    .ok ⟨zeros.shape, zeros.data.mapIdx fun k x => if k / n = k % n then t.flat (k / n) else x⟩
  | [m, n] => .ok (.generate [min m n] fun i => t.flat (i * n + i))
  | shape => complain (.diagonalRank label shape)

section

variable {α : Type} [Zero α] [One α] [Add α] [Sub α] [Mul α] [Div α] [Neg α] [Numeric α]

/-- The inverse of an array with two axes of one size. -/
def inverse (label : String) (t : Tensor α) : Except Failure (Tensor α) := do
  let ⟨_, a⟩ ← (t.toSquare label).mapError .evaluation
  let x ← a.inverse.mapError (Mat.SolveError.toFailure label)
  .ok x.toTensor

/-- The determinant of an array with two axes of one size. -/
def determinant (label : String) (t : Tensor α) : Except Failure α := do
  let ⟨_, a⟩ ← (t.toSquare label).mapError .evaluation
  .ok a.determinant

/-- The reduced factors of an orthogonal decomposition. -/
def orthogonalFactors (label : String) (t : Tensor α) : Except Failure (Tensor α × Tensor α) := do
  let ⟨_, _, a⟩ ← (t.toMat label).mapError .evaluation
  match a.qr? with
  | some ⟨_, q, r⟩ => .ok (q.toTensor, r.toTensor)
  | none => .error (.fault .noLeadingBlock)

/-- The lower factor of a symmetric array that is positive definite. -/
def cholesky (label : String) (t : Tensor α) : Except Failure (Tensor α) := do
  let ⟨_, a⟩ ← (t.toSquare label).mapError .evaluation
  if a.isSymmetric = false then complain (.notSymmetric label)
  else
    match a.cholesky? with
    | some l => .ok l.toTensor
    | none => complain (.notPositiveDefinite label)

/-- A right-hand side for a matrix with `rows` rows; one axis is one column. -/
def rightSide (label : String) (rows cols : Nat) (b : Tensor α) :
    Except EvaluationError ((k : Nat) × Mat α rows k) :=
  match b.shape with
  | [r] =>
    if r = rows then .ok ⟨1, .ofRowMajor b.data⟩ else .error (.rightSideRows label rows cols b.shape)
  | [r, k] =>
    if r = rows then .ok ⟨k, .ofRowMajor b.data⟩ else .error (.rightSideRows label rows cols b.shape)
  | shape => .error (.rightSideRank label shape)

/-- A solution with as many axes as its right-hand side. -/
def solutionFor {n k : Nat} (b : Tensor α) (x : Mat α n k) : Tensor α :=
  if b.rank = 1 then ⟨[n], x.toTensor.data⟩ else x.toTensor

/-- The solution of a linear system, for every column of the right-hand side. -/
def solve (label : String) (a b : Tensor α) : Except Failure (Tensor α) := do
  let ⟨n, m⟩ ← (a.toSquare label).mapError .evaluation
  let ⟨_, rhs⟩ ← (rightSide label n n b).mapError .evaluation
  let x ← (m.solve rhs).mapError (Mat.SolveError.toFailure label)
  .ok (solutionFor b x)

end

/-- The least-squares solution of smallest length. -/
def leastSquares (label : String) (a b : Tensor Float) : Except Failure (Tensor Float) := do
  let ⟨m, n, mat⟩ ← (a.toMat label).mapError .evaluation
  let ⟨_, rhs⟩ ← (rightSide label m n b).mapError .evaluation
  let inverse ← ended mat.pseudoInverse?
  .ok (solutionFor b (inverse.mul rhs))

namespace Builtin

open Arguments

/-- The value of a function that draws no samples. Surplus arguments are ignored. -/
def pureValue (capacity : Capacity) (f : Builtin) (args : List Value) : Except Failure Result :=
  match f with
  | inv => do
    let t ← array args f.name 0
    .ok (.array (← inverse f.name t))
  | pinv => do
    let ⟨_, _, a⟩ ← matrix args f.name 0
    .ok (.array (← ended a.pseudoInverse?).toTensor)
  | matrixPower => do
    let t ← array args f.name 0
    let n ← integer args f.name 1
    .ok (.array (← ArrayCalc.matrixPower f.name t n))
  | exp => return .value ((← get args f.name 0).map Float.exp)
  | sin => return .value ((← get args f.name 0).map Float.sin)
  | cos => return .value ((← get args f.name 0).map Float.cos)
  | det => do
    let t ← array args f.name 0
    .ok (.scalar (← determinant f.name t))
  | trace | tr => do
    let ⟨_, _, a⟩ ← matrix args trace.name 0
    .ok (.scalar a.trace)
  | norm => do
    let v ← get args f.name 0
    .ok (.scalar (total (v.elements.map fun x => x * x)).sqrt)
  | rank => return .scalar (Number.ofNat (← rankOf f.name (← get args f.name 0)))
  | cond => do
    let ⟨_, _, a⟩ ← matrix args f.name 0
    .ok (.scalar (← a.condition))
  | sum => return .scalar (total (← get args f.name 0).elements)
  | prod => return .scalar ((← get args f.name 0).elements.foldl (· * ·) 1)
  | mean => do
    let xs := (← get args f.name 0).elements
    .ok (.scalar (total xs / Number.ofNat xs.size))
  | std => do
    let xs := (← get args f.name 0).elements
    let count := Number.ofNat xs.size
    let centre := total xs / count
    .ok (.scalar (total (xs.map fun x => (x - centre) * (x - centre)) / count).sqrt)
  | svd => do
    let ⟨_, _, a⟩ ← matrix args f.name 0
    .ok (.tuple (← a.svd))
  | eig => do
    let ⟨_, a⟩ ← ((← array args f.name 0).toSquare f.name).mapError .evaluation
    a.requireEntries
    let found ← ended a.eigen?
    let (values, vectors) ← found.mapError (Mat.EigenError.toFailure f.name)
    .ok (.tuple [vector values, .array vectors.toTensor])
  | qr => do
    let t ← array args f.name 0
    let (q, r) ← orthogonalFactors f.name t
    .ok (.tuple [.array q, .array r])
  | lu => do
    let ⟨_, _, a⟩ ← matrix args f.name 0
    .ok (.tuple (← a.lu f.name))
  | cholesky => do
    let t ← array args f.name 0
    .ok (.array (← ArrayCalc.cholesky f.name t))
  | solve => do
    let a ← array args f.name 0
    let b ← array args f.name 1
    .ok (.array (← ArrayCalc.solve f.name a b))
  | lstsq => do
    let a ← array args f.name 0
    let b ← array args f.name 1
    .ok (.array (← leastSquares f.name a b))
  | eye => do
    let n ← integer args f.name 0
    if n < 0 then complain (.negativeDimension f.name)
    else return .array (← (Tensor.identity capacity n.toNat).mapError fun e => .fault (.build e))
  | diag => return .array (← diagonal capacity f.name (← array args f.name 0))
  | rand | zeros => return .array (← filled capacity (← dimensions args f.name) 0)
  | ones => return .array (← filled capacity (← dimensions args f.name) 1)

/-- Replaces the elements by the next samples, in row-major order. -/
def drawInto (samples : Nat → Float) (t : Tensor Float) : Draw (Tensor Float) := do
  let drawn ← getModify (· + t.data.size)
  return ⟨t.shape, t.data.mapIdx fun k _ => samples (drawn + k)⟩

/-- The value of a function. Only `rand` draws samples. -/
def apply (host : Host) (f : Builtin) (args : List Value) : Draw Result := do
  let result ← f.pureValue host.capacity args
  match f, result with
  | rand, .value (.array t) => return .array (← drawInto host.samples t)
  | _, _ => return result

/-- Calls a function by name. The count of arguments must fit, and a fault inside the function becomes an
    error of the expression. -/
def call (host : Host) (name : String) (args : List Value) : Draw Result :=
  match ofName? name with
  | none => complain (.unknownFunction name)
  | some f =>
    if args.length < f.signature.least ∨ f.signature.most < args.length then
      complain (.wrongCount f args.length)
    else fun drawn =>
      match f.apply host args drawn with
      | .error (.fault fault) => complain (.numeric f.name fault)
      | outcome => outcome

end Builtin

end ArrayCalc
