import ArrayCalc.Mat.Symmetric

namespace ArrayCalc.Mat

variable {n : Nat}

/-- The terms from `lo` to below `hi`, added from right to left onto zero. -/
def sumBack (lo hi : Nat) (f : Nat → Float) : Float :=
  (List.range' lo (hi - lo)).foldr (fun k s => s + f k) 0

/-- A matrix that is zero below the entries beside its diagonal, and the basis that goes with it. -/
structure Hessenberg (n : Nat) where
  form : Mat Float n n
  basis : Mat Float n n

namespace Hessenberg

/-- Clears column `m - 1` below row `m` by a reflection from both sides. The column keeps the reflecting
    vector below row `m`; its entry for row `m` is put in front of the list. -/
def reduce (state : Mat Float n n × Array Float) (m : Nat) : Mat Float n n × Array Float :=
  let (a, leads) := state
  let scale := sumBetween m n fun i => (a.get i (m - 1)).abs
  if scale == 0 then state
  else
    let x := Array.ofFn (n := n) fun i => if m ≤ i then a.get i (m - 1) / scale else 0
    let square := sumBack m n fun i => x.getD i 0 * x.getD i 0
    let lead := x.getD m 0
    let g := if 0 < lead then -square.sqrt else square.sqrt
    let h := square - lead * g
    let x := x.setIfInBounds m (lead - g)
    let fromLeft := (List.range n).toArray.map fun j => (sumBack m n fun i => x.getD i 0 * a.get i j) / h
    let a : Mat Float n n := ofFn fun i j =>
      if m ≤ i ∧ m ≤ j then a.get i j - fromLeft.getD j 0 * x.getD i 0 else a.get i j
    let fromRight := (List.range n).toArray.map fun i => (sumBack m n fun j => x.getD j 0 * a.get i j) / h
    let a : Mat Float n n := ofFn fun i j =>
      if m ≤ j then a.get i j - fromRight.getD i 0 * x.getD j 0
      else if i = m ∧ j + 1 = m then scale * g
      else a.get i j
    (a, leads.setIfInBounds m (scale * (lead - g)))

/-- Applies the reflection that column `m - 1` keeps to the basis. -/
def unfold (form : Mat Float n n) (leads : Array Float) (m : Nat) (v : Mat Float n n) : Mat Float n n :=
  if form.get m (m - 1) == 0 then v
  else
    let x (i : Nat) : Float := if i = m then leads.getD m 0 else form.get i (m - 1)
    let factors := (List.range n).toArray.map fun j =>
      (sumBetween m n fun i => x i * v.get i j) / x m / form.get m (m - 1)
    ofFn fun i j => if m ≤ i ∧ m ≤ j then v.get i j + factors.getD j 0 * x i else v.get i j

def ofMat (a : Mat Float n n) : Hessenberg n :=
  let inner := List.range' 1 (n - 2)
  let (form, leads) := inner.foldl reduce (a, Array.replicate n 0)
  ⟨form, inner.foldr (fun m v => unfold form leads m v) (identity n)⟩

/-- The sum of the magnitudes of the entries that are not zero by the form. -/
def norm (a : Mat Float n n) : Float :=
  (List.range n).foldl (fun s i => (List.range' (i - 1) (n - (i - 1))).foldl (fun s j => s + (a.get i j).abs) s) 0

end Hessenberg

/-- The state of the double-shift iteration. `shift` is what was taken off the diagonal so far, and
    `complex` tells whether a pair of complex eigenvalues has been found. -/
structure Schur (n : Nat) where
  form : Mat Float n n
  basis : Mat Float n n
  values : Array Float
  shift : Float
  complex : Bool
  deriving DecidableEq

namespace Schur

def h (t : Schur n) (i j : Nat) : Float := t.form.get i j

/-- The first row of the part that ends in row `last` and that no negligible entry splits off. -/
def startOf (t : Schur n) (norm : Float) (last : Nat) : Nat :=
  ((List.range' 1 last).reverse.find? fun l =>
      let s := (t.h (l - 1) (l - 1)).abs + (t.h l l).abs
      let s := if s == 0 then norm else s
      decide ((t.h l (l - 1)).abs < epsilon * s)).getD 0

/-- Takes the last row as an eigenvalue. -/
def takeOne (t : Schur n) (last : Nat) : Schur n :=
  let x := t.h last last + t.shift
  { t with
    form := ofFn fun i j => if i = last ∧ j = last then x else t.h i j
    values := t.values.setIfInBounds last x }

/-- Takes the last two rows as two eigenvalues. If these are real, their block is made triangular; of
    complex ones the common real part is kept. -/
def takeTwo (t : Schur n) (last : Nat) : Schur n :=
  let prev := last - 1
  let w := t.h last prev * t.h prev last
  let p := (t.h prev prev - t.h last last) / 2
  let q := p * p + w
  let z := q.abs.sqrt
  let x := t.h last last + t.shift
  let form : Mat Float n n := ofFn fun i j =>
    if i = j ∧ (i = last ∨ i = prev) then t.h i j + t.shift else t.h i j
  if 0 ≤ q then
    let z := if 0 ≤ p then p + z else p - z
    let values := (t.values.setIfInBounds prev (x + z)).setIfInBounds last (if z == 0 then x + z else x - w / z)
    let beside := form.get last prev
    let s := beside.abs + z.abs
    let p := beside / s
    let q := z / s
    let r := (p * p + q * q).sqrt
    let p := p / r
    let q := q / r
    let turnColumns (a : Mat Float n n) (rows : Nat) : Mat Float n n := ofFn fun i j =>
      if i < rows ∧ j = prev then q * a.get i prev + p * a.get i last
      else if i < rows ∧ j = last then q * a.get i last - p * a.get i prev
      else a.get i j
    let form : Mat Float n n := ofFn fun i j =>
      if prev ≤ j ∧ i = prev then q * form.get prev j + p * form.get last j
      else if prev ≤ j ∧ i = last then q * form.get last j - p * form.get prev j
      else form.get i j
    { t with form := turnColumns form last.succ, basis := turnColumns t.basis n, values }
  else
    let values := (t.values.setIfInBounds prev (x + p)).setIfInBounds last (x + p)
    { t with form, values, complex := true }

/-- The trace and determinant data of the shifts: the corner entry, the one before it and the product of
    the entries beside them. -/
structure Shifts where
  x : Float
  y : Float
  w : Float

/-- Subtracts an amount from the diagonal down to row `last`. -/
def shiftBy (t : Schur n) (last : Nat) (amount : Float) : Schur n :=
  { t with
    form := ofFn fun i j => if i = j ∧ i ≤ last then t.h i j - amount else t.h i j
    shift := t.shift + amount }

/-- The shifts of the next sweep; the tenth and the thirtieth on one part are exceptional. -/
def shifts (t : Schur n) (last turn : Nat) : Schur n × Shifts :=
  let prev := last - 1
  let x := t.h last last
  let y := t.h prev prev
  let w := t.h last prev * t.h prev last
  if turn = 10 then
    let t := t.shiftBy last x
    let s := (t.h last prev).abs + (t.h prev (last - 2)).abs
    (t, ⟨0.75 * s, 0.75 * s, -0.4375 * s * s⟩)
  else if turn = 30 then
    let s := (y - x) / 2
    let s := s * s + w
    if 0 < s then
      let s := if y < x then -s.sqrt else s.sqrt
      let s := x - w / ((y - x) / 2 + s)
      (t.shiftBy last s, ⟨0.964, 0.964, 0.964⟩)
    else (t, ⟨x, y, w⟩)
  else (t, ⟨x, y, w⟩)

/-- The vector that a sweep from row `m` starts with, before it is scaled. -/
def startVector (t : Schur n) (k : Shifts) (m : Nat) : Float × Float × Float :=
  let z := t.h m m
  let r := k.x - z
  let s := k.y - z
  let p := (r * s - k.w) / t.h (m + 1) m + t.h m (m + 1)
  let q := t.h (m + 1) (m + 1) - z - r - s
  let r := t.h (m + 2) (m + 1)
  let s := p.abs + q.abs + r.abs
  (p / s, q / s, r / s)

/-- The row that a sweep starts in: the last one whose entry to the left is negligible for it, or the
    first one of the part. -/
def sweepStart (t : Schur n) (k : Shifts) (first last : Nat) : Nat :=
  ((List.range' (first + 1) (last - 2 - first)).reverse.find? fun m =>
      let (p, q, r) := t.startVector k m
      decide ((t.h m (m - 1)).abs * (q.abs + r.abs) <
        epsilon * (p.abs * ((t.h (m - 1) (m - 1)).abs + (t.h m m).abs + (t.h (m + 1) (m + 1)).abs)))).getD first

/-- What a sweep carries from row to row. `x` is the size of the vector, and a sweep ends where it is
    zero. -/
structure Chase (n : Nat) where
  state : Schur n
  p : Float
  q : Float
  r : Float
  x : Float
  ended : Bool

/-- One double-shift step at row `k` of a sweep from row `m` over the part from `first` to `last`. -/
def chase (first last m : Nat) (c : Chase n) (k : Nat) : Chase n :=
  if c.ended then c
  else
    let t := c.state
    let inner := k + 1 ≠ last
    let c :=
      if k = m then c
      else
        let p := t.h k (k - 1)
        let q := t.h (k + 1) (k - 1)
        let r := if inner then t.h (k + 2) (k - 1) else 0
        let x := p.abs + q.abs + r.abs
        if x == 0 then { c with p, q, r, x } else { c with p := p / x, q := q / x, r := r / x, x }
    if c.x == 0 then { c with ended := true }
    else
      let s := (c.p * c.p + c.q * c.q + c.r * c.r).sqrt
      let s := if c.p < 0 then -s else s
      if s == 0 then c
      else
        let beside : Mat Float n n := ofFn fun i j =>
          if i = k ∧ j + 1 = k then
            if k = m then (if first = m then t.h i j else -t.h i j) else -s * c.x
          else t.h i j
        let p := c.p + s
        let x := p / s
        let y := c.q / s
        let z := c.r / s
        let q := c.q / p
        let r := c.r / p
        let rows : Mat Float n n := ofFn fun i j =>
          if k ≤ j ∧ (i = k ∨ i = k + 1 ∨ (inner ∧ i = k + 2)) then
            let sum := beside.get k j + q * beside.get (k + 1) j
            let sum := if inner then sum + r * beside.get (k + 2) j else sum
            beside.get i j - sum * (if i = k then x else if i = k + 1 then y else z)
          else beside.get i j
        let columns (a : Mat Float n n) (height : Nat) : Mat Float n n := ofFn fun i j =>
          if i < height ∧ (j = k ∨ j = k + 1 ∨ (inner ∧ j = k + 2)) then
            let sum := x * a.get i k + y * a.get i (k + 1)
            let sum := if inner then sum + z * a.get i (k + 2) else sum
            if j = k then a.get i j - sum else a.get i j - sum * (if j = k + 1 then q else r)
          else a.get i j
        { c with
          state := { t with form := columns rows (min last (k + 3) + 1), basis := columns t.basis n }
          p := p, q := q, r := r, x := x }

/-- One double-shift sweep over the part from `first` to `last`. -/
def sweep (t : Schur n) (first last turn : Nat) : Schur n :=
  let (t, shifts) := t.shifts last turn
  let m := t.sweepStart shifts first last
  let (p, q, r) := t.startVector shifts m
  let form : Mat Float n n := ofFn fun i j =>
    if m + 2 ≤ i ∧ i ≤ last ∧ (j + 2 = i ∨ (m + 2 < i ∧ j + 3 = i)) then 0 else t.h i j
  let t := { t with form }
  ((List.range' m (last - m)).foldl (chase first last m) ⟨t, p, q, r, shifts.x, false⟩).state

/-- One step of the iteration: eigenvalues are split off the end of the leading rows, or there is a sweep
    over the part that they end with. The numbers count the leading rows that are left and the sweeps on
    the current part. -/
def step (norm : Float) : Schur n × Nat × Nat → (Schur n × Nat × Nat) ⊕ Schur n
  | (t, 0, _) => .inr t
  | (t, last + 1, turn) =>
    let first := t.startOf norm last
    if first = last then .inl (t.takeOne last, last, 0)
    else if first + 1 = last then .inl (t.takeTwo last, last - 1, 0)
    else .inl (t.sweep first last turn, last + 1, turn + 1)

/-- The eigenvector of value `k` in the basis of a triangular form, from its last entry upward; it is
    scaled down where it would overflow. -/
def backSubstitute (t : Schur n) (norm : Float) (k : Nat) : Array Float :=
  let value := t.values.getD k 0
  (List.range k).foldr
    (fun i xs =>
      let w := t.h i i - value
      let r := sumBetween (i + 1) (k + 1) fun j => t.h i j * xs.getD j 0
      let x := if w == 0 then -r / (epsilon * norm) else -r / w
      let size := x.abs
      let xs := xs.setIfInBounds i x
      if 1 < epsilon * size * size then xs.mapIdx fun j y => if i ≤ j ∧ j ≤ k then y / size else y else xs)
    (Array.ofFn (n := n) fun i => if i.val = k then 1 else 0)

/-- The eigenvectors of the matrix itself. -/
def vectors (t : Schur n) (norm : Float) : Mat Float n n :=
  if norm == 0 then t.basis
  else
    let columns := (List.range n).toArray.map (t.backSubstitute norm)
    ofFn fun i j => sumBetween 0 (j + 1) fun k => t.basis.get i k * (columns.getD j #[]).getD k 0

end Schur

/-- The state that the iteration for a matrix starts from. -/
def Schur.start (a : Mat Float n n) : Schur n :=
  let h := Hessenberg.ofMat a
  ⟨h.form, h.basis, Array.replicate n 0, 0, false⟩

/-- The eigenvalues and eigenvectors of a square matrix, if the iteration for them ends and no eigenvalue
    is complex. -/
def generalEigen? (a : Mat Float n n) : ExceptT EigenError Option (List Float × Mat Float n n) := do
  let start := Schur.start a
  let norm := Hessenberg.norm start.form
  let t : Schur n ← liftM (repeatUntil (Schur.step norm) (start, n, 0))
  if t.complex then throw .complex else pure (t.values.toList, t.vectors norm)

/-- Scales every column that is not zero to length one. -/
def unitColumns (a : Mat Float n n) : Mat Float n n :=
  let norms := (List.range n).toArray.map fun j => (dot (a.column j) (a.column j)).sqrt
  ofFn fun i j => if norms.getD j 0 == 0 then a.get i j else a.get i j / norms.getD j 0

/-- Eigenvalues with unit eigenvectors as columns. There is nothing where an iteration never ends. -/
def eigen? (a : Mat Float n n) : Option (Except EigenError (List Float × Mat Float n n)) :=
  (if a.isSymmetric then a.symmetricEigen? else a.generalEigen?).run.map fun found =>
    found.map fun (values, vectors) => (values, vectors.unitColumns)

end ArrayCalc.Mat
