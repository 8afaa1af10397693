import ArrayCalc.Tensor.Basic

namespace ArrayCalc

/-- What matrix routines ask of their scalars beyond the four operations. The tests are Boolean, so that
    floating-point comparison fits: a value that is not a number is neither zero nor below anything. -/
class Numeric (α : Type) where
  eq : α → α → Bool
  lt : α → α → Bool
  abs : α → α
  sqrt : α → α

instance : Numeric Float where
  eq x y := x == y
  lt x y := decide (x < y)
  abs := Float.abs
  sqrt := Float.sqrt

def Numeric.isZero {α : Type} [Zero α] [Numeric α] (x : α) : Bool :=
  Numeric.eq x 0

/-- A matrix with a given number of rows and columns. -/
structure Mat (α : Type) (rows cols : Nat) where
  entries : Vector (Vector α cols) rows
  deriving DecidableEq

/-- The terms from `lo` to below `hi`, added from left to right onto zero. -/
def sumBetween {α : Type} [Zero α] [Add α] (lo hi : Nat) (f : Nat → α) : α :=
  (List.range' lo (hi - lo)).foldl (fun s k => s + f k) 0

namespace Mat

variable {α : Type} {m n p : Nat}

/-- The matrix with a given entry in each row and column. -/
def ofFn (f : Nat → Nat → α) : Mat α m n :=
  ⟨Vector.ofFn fun i => Vector.ofFn fun j => f i j⟩

variable [Zero α]

/-- The entry in a row and a column; outside the matrix it is zero. -/
def get (a : Mat α m n) (i j : Nat) : α :=
  if h : i < m ∧ j < n then a.entries[i][j] else 0

theorem get_ofFn {i j : Nat} (f : Nat → Nat → α) (hi : i < m) (hj : j < n) :
    (ofFn f : Mat α m n).get i j = f i j := by
  simp [get, ofFn, hi, hj]

theorem ext_get {a b : Mat α m n} (h : ∀ i j, i < m → j < n → a.get i j = b.get i j) : a = b := by
  obtain ⟨x⟩ := a
  obtain ⟨y⟩ := b
  congr 1
  apply Vector.ext
  intro i hi
  apply Vector.ext
  intro j hj
  simpa [get, hi, hj] using h i j hi hj

def transpose (a : Mat α m n) : Mat α n m :=
  ofFn fun i j => a.get j i

theorem get_transpose {a : Mat α m n} {i j : Nat} (hi : i < n) (hj : j < m) :
    a.transpose.get i j = a.get j i :=
  get_ofFn _ hi hj

/-- The entries of a column from top to bottom. -/
def column (a : Mat α m n) (j : Nat) : List α :=
  (List.range m).map fun i => a.get i j

/-- The matrix with given columns; entries that they lack are zero. -/
def ofColumns (columns : List (List α)) : Mat α m n :=
  let rows := (columns.map List.toArray).toArray
  ofFn fun i j => (rows.getD j #[]).getD i 0

def identity [One α] (n : Nat) : Mat α n n :=
  ofFn fun i j => if i = j then 1 else 0

/-- The square matrix with given entries on its diagonal. -/
def diagonal (xs : List α) : Mat α xs.length xs.length :=
  ofFn fun i j => if i = j then xs.getD i 0 else 0

/-- The matrix product; each entry is summed from left to right onto zero. -/
def mul [Add α] [Mul α] (a : Mat α m n) (b : Mat α n p) : Mat α m p :=
  ofFn fun i j => sumBetween 0 n fun k => a.get i k * b.get k j

/-- The array that holds a matrix row by row. -/
def toTensor (a : Mat α m n) : Tensor α :=
  Tensor.generate [m, n] fun k => a.get (k / n) (k % n)

theorem wellFormed_toTensor (a : Mat α m n) : a.toTensor.WellFormed :=
  Tensor.wellFormed_generate _ _

/-- The matrix whose rows a list of elements holds one after the other. -/
def ofRowMajor (xs : Array α) : Mat α m n :=
  ofFn fun i j => xs.getD (i * n + j) 0

/-- Equal to its transpose; with an entry that is not a number on the diagonal it is not. -/
def isSymmetric [Numeric α] (a : Mat α n n) : Bool :=
  (List.range n).all fun i => (List.range (i + 1)).all fun j => Numeric.eq (a.get i j) (a.get j i)

end Mat

end ArrayCalc
