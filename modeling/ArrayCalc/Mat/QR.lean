import ArrayCalc.Mat.Basic

namespace ArrayCalc.Mat

variable {α : Type} {m n : Nat} [Zero α] [One α] [Add α] [Mul α] [Div α] [Neg α] [Numeric α]

/-- The length of the hypotenuse of a right triangle, computed without squaring the longer leg. -/
def hypotenuse (a b : α) : α :=
  if Numeric.lt (Numeric.abs b) (Numeric.abs a) then
    let r := b / a
    Numeric.abs a * Numeric.sqrt (1 + r * r)
  else if Numeric.isZero b then 0
  else
    let r := a / b
    Numeric.abs b * Numeric.sqrt (1 + r * r)

/-- The length of a vector, one entry after the other. -/
def length (xs : List α) : α :=
  xs.foldl hypotenuse 0

/-- The entries of column `j` from row `k` on. -/
def columnFrom (a : Mat α m n) (k j : Nat) : List α :=
  (List.range' k (m - k)).map fun i => a.get i j

/-- What multiple of column `k` of `a`, from row `k` on, reflects column `j` of `b`. -/
def reflectionFactor (a : Mat α m n) (k : Nat) (b : Mat α m n) (j : Nat) : α :=
  -(sumBetween k m fun i => a.get i k * b.get i j) / a.get k k

/-- Reflects the columns of `b` from `first` on by column `k` of `a`. -/
def reflectColumns (a : Mat α m n) (k : Nat) (b : Mat α m n) (first : Nat) : Mat α m n :=
  let factors := (List.range n).toArray.map (a.reflectionFactor k b)
  ofFn fun i j => if first ≤ j ∧ k ≤ i then b.get i j + factors.getD j 0 * a.get i k else b.get i j

/-- One Householder step: turns column `k`, from row `k` on, into the vector that reflects it onto an
    axis, and reflects the later columns. The second part is the length of the column, with the sign of
    its leading entry; a zero column is left as it is. -/
def reflect (a : Mat α m n) (k : Nat) : Mat α m n × α :=
  let norm := length (a.columnFrom k k)
  if Numeric.isZero norm then (a, norm)
  else
    let norm := if Numeric.lt (a.get k k) 0 then -norm else norm
    let scaled : Mat α m n := ofFn fun i j =>
      if j = k ∧ k ≤ i then
        let x := a.get i k / norm
        if i = k then x + 1 else x
      else a.get i j
    (scaled.reflectColumns k scaled (k + 1), norm)

/-- The reflecting vectors of a matrix, with the upper factor above them and the diagonal of that factor
    apart. -/
structure Reflections (α : Type) (m n : Nat) where
  vectors : Mat α m n
  diagonal : List α

def reflections (a : Mat α m n) : Reflections α m n :=
  (List.range n).foldl
    (fun r k =>
      let (vectors, norm) := r.vectors.reflect k
      ⟨vectors, r.diagonal ++ [-norm]⟩)
    ⟨a, []⟩

namespace Reflections

def upper (r : Reflections α m n) : Mat α n n :=
  ofFn fun i j => if i < j then r.vectors.get i j else if i = j then r.diagonal.getD i 0 else 0

/-- Puts the unit vector of axis `k` into column `k` and reflects the columns from there on. -/
def unfold (r : Reflections α m n) (x : Mat α m n) (k : Nat) : Mat α m n :=
  let start : Mat α m n := ofFn fun i j => if j = k then (if i = k then 1 else 0) else x.get i j
  if Numeric.isZero (r.vectors.get k k) then start else r.vectors.reflectColumns k start k

/-- The factor with orthonormal columns, built from the last reflection back. -/
def orthogonal (r : Reflections α m n) : Mat α m n :=
  (List.range n).foldr (fun k x => r.unfold x k) (ofFn fun _ _ => 0)

end Reflections

/-- The first rows and columns. -/
def leading (a : Mat α m n) (k : Nat) : Mat α k k :=
  ofFn fun i j => a.get i j

/-- Reduced factors `q * r` of a matrix with at least as many rows as columns. -/
def qrTall (a : Mat α m n) : Mat α m n × Mat α n n :=
  let r := a.reflections
  (r.orthogonal, r.upper)

/-- Reduced factors `q * r` of a matrix with more columns than rows: its leading square block gives the
    orthogonal factor, and what that leaves of the matrix is the other one. -/
def qrWide (a : Mat α m n) : Mat α m m × Mat α m n :=
  let q := (a.leading m).reflections.orthogonal
  (q, q.transpose.mul a)

/-- Reduced factors of a matrix, with the number of columns of the first. A wide matrix without rows has no
    leading block, and so no factors. -/
def qr? (a : Mat α m n) : Option ((k : Nat) × Mat α m k × Mat α k n) :=
  if n ≤ m then some ⟨n, a.qrTall⟩ else if m = 0 then none else some ⟨m, a.qrWide⟩

end ArrayCalc.Mat
