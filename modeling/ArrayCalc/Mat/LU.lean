import ArrayCalc.Mat.Basic

namespace ArrayCalc.Mat

variable {α : Type} {m n k : Nat} [Zero α] [One α] [Add α] [Sub α] [Mul α] [Div α] [Neg α] [Numeric α]

/-- A matrix part way through elimination: `factors` holds the multipliers below the diagonal and the
    upper factor from the diagonal on, `origin` the row of the matrix that each row came from, and `sign`
    the sign of that permutation. -/
structure Elimination (α : Type) (m n : Nat) where
  factors : Mat α m n
  origin : Vector Nat m
  sign : α

/-- Column `j` with the contributions of the earlier columns taken off, from top to bottom: each entry
    uses those above it. -/
def eliminatedColumn (a : Mat α m n) (j : Nat) : Array α :=
  (List.range m).foldl
    (fun column i =>
      column.push (a.get i j - sumBetween 0 (min i j) fun k => a.get i k * column.getD k 0))
    #[]

/-- The first row from `j` on whose entry has the largest magnitude. -/
def pivotRow (m : Nat) (column : Array α) (j : Nat) : Nat :=
  (List.range' (j + 1) (m - (j + 1))).foldl
    (fun p i => if Numeric.lt (Numeric.abs (column.getD p 0)) (Numeric.abs (column.getD i 0)) then i else p) j

/-- The row that takes the place of row `i` when rows `j` and `p` change places. -/
def swapRow (j p i : Nat) : Nat :=
  if i = j then p else if i = p then j else i

/-- Eliminates one column: takes off the earlier ones, brings the pivot row up and divides what lies
    below the pivot by it. A zero pivot divides nothing. -/
def Elimination.step (e : Elimination α m n) (j : Nat) : Elimination α m n :=
  let column := eliminatedColumn e.factors j
  let p := pivotRow m column j
  let pivot := column.getD p 0
  { factors := ofFn fun i c =>
      let source := swapRow j p i
      let x := if c = j then column.getD source 0 else e.factors.get source c
      if c = j ∧ j < i ∧ Numeric.isZero pivot = false then x / pivot else x
    origin := Vector.ofFn fun i => e.origin.toArray.getD (swapRow j p i) 0
    sign := if p = j then e.sign else -e.sign }

/-- Eliminates all columns, with partial pivoting. -/
def eliminate (a : Mat α m n) : Elimination α m n :=
  (List.range n).foldl Elimination.step ⟨a, Vector.ofFn fun i => i, 1⟩

namespace Elimination

/-- The permutation that puts the rows of the factors back into their places. -/
def permutation (e : Elimination α m n) : Mat α m m :=
  ofFn fun i j => if e.origin.toArray.getD j 0 = i then 1 else 0

def lower (e : Elimination α m n) : Mat α m n :=
  ofFn fun i j => if j < i then e.factors.get i j else if i = j then 1 else 0

/-- The upper factor, with as many rows as the matrix has. -/
def upper (e : Elimination α m n) : Mat α m n :=
  ofFn fun i j => if i ≤ j then e.factors.get i j else 0

/-- Some diagonal entry of the upper factor is zero. -/
def isSingular (e : Elimination α n n) : Bool :=
  (List.range n).any fun j => Numeric.isZero (e.factors.get j j)

/-- The signed product of the diagonal of the upper factor. -/
def determinant (e : Elimination α n n) : α :=
  (List.range n).foldl (fun d j => d * e.factors.get j j) e.sign

/-- Solves with the unit lower factor, from the first unknown on. -/
def forward (e : Elimination α n n) (b : List α) : Array α :=
  let rhs := b.toArray
  (List.range n).foldl
    (fun xs i =>
      xs.push ((List.range i).foldl (fun x c => x - xs.getD c 0 * e.factors.get i c) (rhs.getD i 0)))
    #[]

/-- Solves with the upper factor, from the last unknown on. The list that grows holds the unknowns after
    row `i`, and the last of them is taken off first. -/
def backward (e : Elimination α n n) (ys : Array α) : List α :=
  (List.range n).foldr
    (fun i xs =>
      let rest := xs.zipIdx (i + 1)
      let x := rest.foldr (fun (x, c) y => y - x * e.factors.get i c) (ys.getD i 0)
      x / e.factors.get i i :: xs)
    []

/-- Solves for every column of a right-hand side. -/
def solve (e : Elimination α n n) (b : Mat α n k) : Mat α n k :=
  ofColumns <| (List.range k).map fun j =>
    let rhs := e.origin.toList.map fun i => b.get i j
    e.backward (e.forward rhs)

end Elimination

/-- Why a linear system has no computed solution. -/
inductive SolveError where
  | singular
  | noColumns

/-- Solves `a * x = b`. A singular matrix is noticed before a right-hand side without columns. -/
def solve (a : Mat α n n) (b : Mat α n k) : Except SolveError (Mat α n k) :=
  let e := a.eliminate
  if e.isSingular then .error .singular
  else if k = 0 then .error .noColumns
  else .ok (e.solve b)

def inverse (a : Mat α n n) : Except SolveError (Mat α n n) :=
  a.solve (identity n)

/-- The determinant of the entries where two rows and two columns meet. -/
def minor (a : Mat α m n) (r r' c c' : Nat) : α :=
  a.get r c * a.get r' c' - a.get r c' * a.get r' c

/-- The determinant: closed formulas for sizes two and three, elimination for the others. -/
def determinant (a : Mat α n n) : α :=
  match n with
  | 0 => 1
  | 2 => a.minor 0 1 0 1
  | 3 => a.get 0 0 * a.minor 1 2 1 2 - a.get 0 1 * a.minor 1 2 0 2 + a.get 0 2 * a.minor 1 2 0 1
  | _ => a.eliminate.determinant

end ArrayCalc.Mat
