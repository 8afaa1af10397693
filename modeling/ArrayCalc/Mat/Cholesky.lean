import ArrayCalc.Mat.Basic

namespace ArrayCalc.Mat

variable {α : Type} {n : Nat} [Zero α] [Add α] [Sub α] [Mul α] [Div α] [Numeric α]

/-- The entries left of the diagonal in a row of the factor, from those of the rows above it. -/
def choleskyRow (a : Mat α n n) (rows : Array (Array α)) (j : Nat) : Array α :=
  (List.range j).foldl
    (fun row k =>
      let above := rows.getD k #[]
      let s := sumBetween 0 k fun i => above.getD i 0 * row.getD i 0
      row.push ((a.get j k - s) / above.getD k 0))
    #[]

/-- What the entries of a row of the factor leave of a diagonal entry of `a`. -/
def diagonalRest (a : Mat α n n) (row : Array α) (j : Nat) : α :=
  a.get j j - sumBetween 0 j fun k => row.getD k 0 * row.getD k 0

/-- The rows of the factor so far, and whether their diagonal entries are all roots of positive numbers. -/
structure CholeskyRows (α : Type) where
  rows : Array (Array α)
  isPositive : Bool

/-- One row of the factor more. Where the diagonal entry would be the root of a negative number, it is zero. -/
def choleskyStep (a : Mat α n n) (f : CholeskyRows α) (j : Nat) : CholeskyRows α :=
  let row := a.choleskyRow f.rows j
  let d := a.diagonalRest row j
  ⟨f.rows.push (row.push (Numeric.sqrt (if Numeric.lt d 0 then 0 else d))), f.isPositive && Numeric.lt 0 d⟩

/-- All rows of the factor, from the first on. -/
def choleskyRows (a : Mat α n n) : CholeskyRows α :=
  (List.range n).foldl a.choleskyStep ⟨#[], true⟩

/-- The lower triangular factor whose product with its transpose is `a`; there is none if a diagonal entry would be
    the root of a number that is not positive. -/
def cholesky? (a : Mat α n n) : Option (Mat α n n) :=
  let f := a.choleskyRows
  if f.isPositive then some (ofFn fun i j => (f.rows.getD i #[]).getD j 0) else none

end ArrayCalc.Mat
