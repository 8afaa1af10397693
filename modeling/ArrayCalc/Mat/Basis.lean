import ArrayCalc.Mat.Basic

namespace ArrayCalc.Mat

variable {α : Type} {m n : Nat} [Zero α] [One α] [Add α] [Sub α] [Mul α] [Div α] [Numeric α]

/-- The inner product, summed from left to right onto zero. -/
def dot (a b : List α) : α :=
  (List.zipWith (· * ·) a b).foldl (· + ·) 0

/-- Takes the share of each vector in turn off `v`. -/
def takeOff (vectors : List (List α)) (v : List α) : List α :=
  vectors.foldl (fun v q => let c := dot v q; List.zipWith (fun x y => x - c * y) v q) v

def unitVector (n e : Nat) : List α :=
  (List.range n).map fun i => if i = e then 1 else 0

/-- Tries the unit vector of axis `e` as a further basis vector: two passes keep what is left of it
    orthogonal to working precision, and a remainder shorter than `tolerance` is dropped. -/
def extendBasis (tolerance : α) (n : Nat) (vectors : List (List α)) (e : Nat) : List (List α) :=
  if n ≤ vectors.length then vectors
  else
    let v := takeOff vectors (takeOff vectors (unitVector n e))
    let norm := Numeric.sqrt (dot v v)
    if Numeric.lt norm tolerance then vectors
    else vectors ++ [v.map (· / norm)]

/-- The shortest remainder that counts as a direction of its own. -/
def basisTolerance {α : Type} [OfScientific α] : α := 1e-10

/-- Extends the first `keep` columns of a matrix to a square matrix with orthonormal columns, trying the
    unit vectors in order. -/
def completeBasis (tolerance : α) (a : Mat α m n) (keep : Nat) : Mat α m m :=
  ofColumns <| (List.range m).foldl (extendBasis tolerance m) ((List.range keep).map a.column)

end ArrayCalc.Mat
