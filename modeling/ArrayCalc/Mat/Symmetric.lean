import ArrayCalc.Mat.Singular

namespace ArrayCalc.Mat

variable {n : Nat}

/-- Why eigenvalues are not given where the iterations end: one of them is complex, or a sweep would begin
    in a row past the last one. -/
inductive EigenError where
  | complex
  | noRow

/-- A symmetric matrix on its way to a diagonal: `diag` and `off` are the entries on and beside the
    diagonal, `basis` the orthonormal basis that goes with them. -/
structure Tridiagonal (n : Nat) where
  diag : Array Float
  off : Array Float
  basis : Mat Float n n

namespace Tridiagonal

def d (t : Tridiagonal n) (k : Nat) : Float := t.diag.getD k 0

def e (t : Tridiagonal n) (k : Nat) : Float := t.off.getD k 0

/-- Moves row `i` onto the entry beside the diagonal by one reflection of the rows above it. `diag` holds
    row `i` on entry and row `i - 1` on return, and `basis` keeps the reflecting vector in column `i`. -/
def reduce (t : Tridiagonal n) (i : Nat) : Tridiagonal n :=
  let v := t.basis
  let scale := sumBetween 0 i fun k => (t.d k).abs
  if scale == 0 then
    { diag := Array.ofFn (n := n) fun j => if j < i then v.get (i - 1) j else if j = i then 0 else t.d j
      off := t.off.setIfInBounds i (t.d (i - 1))
      basis := ofFn fun r c => if (r = i ∧ c < i) ∨ (c = i ∧ r < i) then 0 else v.get r c }
  else
    let x := (List.range i).toArray.map fun k => t.d k / scale
    let square := sumBetween 0 i fun k => x.getD k 0 * x.getD k 0
    let f := x.getD (i - 1) 0
    let g := if 0 < f then -square.sqrt else square.sqrt
    let h := square - f * g
    let x := x.setIfInBounds (i - 1) (f - g)
    let product := (List.range i).toArray.map fun j =>
      (sumBetween 0 i fun k => (if k ≤ j then v.get j k else v.get k j) * x.getD k 0) / h
    let share := (sumBetween 0 i fun j => product.getD j 0 * x.getD j 0) / (h + h)
    let y := (List.range i).toArray.map fun j => product.getD j 0 - share * x.getD j 0
    let basis : Mat Float n n := ofFn fun r c =>
      if r < i ∧ c ≤ r then v.get r c - (x.getD c 0 * y.getD r 0 + y.getD c 0 * x.getD r 0)
      else if r = i ∧ c < i then 0
      else if c = i ∧ r < i then x.getD r 0
      else v.get r c
    { diag := Array.ofFn (n := n) fun j => if j < i then basis.get (i - 1) j else if j = i then h else t.d j
      off := t.off.setIfInBounds i (scale * g)
      basis }

/-- Applies the reflection that column `i + 1` keeps to the columns up to `i`, and keeps the diagonal entry
    of column `i` in the last row. -/
def unfold (t : Tridiagonal n) (i : Nat) : Tridiagonal n :=
  let v : Mat Float n n := ofFn fun r c =>
    if c = i then (if r = i then 1 else if r + 1 = n then t.basis.get i i else t.basis.get r c)
    else t.basis.get r c
  let h := t.d (i + 1)
  let factors := (List.range (i + 1)).toArray.map fun j =>
    sumBetween 0 (i + 1) fun k => v.get k (i + 1) * v.get k j
  { t with
    basis := ofFn fun r c =>
      if r ≤ i ∧ c ≤ i then
        if h == 0 then v.get r c else v.get r c - factors.getD c 0 * (v.get r (i + 1) / h)
      else if r ≤ i ∧ c = i + 1 then 0
      else v.get r c }

/-- The tridiagonal form of a symmetric matrix, with its basis. The entry `k` of `off` stands beside the
    diagonal entries `k` and `k + 1`. -/
def ofMat (a : Mat Float n n) : Tridiagonal n :=
  let start : Tridiagonal n :=
    ⟨Array.ofFn (n := n) fun j => a.get (n - 1) j, Array.replicate n 0, a⟩
  let t := (List.range' 1 (n - 1)).foldr (fun i t => t.reduce i) start
  let t := (List.range (n - 1)).foldl unfold t
  { diag := Array.ofFn (n := n) fun j => t.basis.get (n - 1) j
    off := Array.ofFn (n := n) fun k => t.e (k + 1)
    basis := ofFn fun r c => if r + 1 = n then (if c + 1 = n then 1 else 0) else t.basis.get r c }

/-- What a sweep carries from one rotation to the next. -/
structure Turn (n : Nat) where
  state : Tridiagonal n
  p : Float
  c : Float
  s : Float
  c2 : Float
  c3 : Float
  s2 : Float

/-- Turns columns `i` and `i + 1` in their plane. -/
def turn (x : Turn n) (i : Nat) : Turn n :=
  let t := x.state
  let g := x.c * t.e i
  let h := x.c * x.p
  let r := hypotenuse x.p (t.e i)
  let s := t.e i / r
  let c := x.p / r
  let v := t.basis
  { state :=
      { diag := t.diag.setIfInBounds (i + 1) (h + s * (c * g + s * t.d i))
        off := t.off.setIfInBounds (i + 1) (x.s * r)
        basis := ofFn fun k j =>
          if j = i + 1 then s * v.get k i + c * v.get k (i + 1)
          else if j = i then c * v.get k i - s * v.get k (i + 1)
          else v.get k j }
    p := c * t.d i - s * g
    c
    s
    c2 := x.c
    c3 := x.c2
    s2 := x.s }

/-- One implicit sweep from column `m` up to column `l`. The second part is the amount that all values are
    shifted by. -/
def sweep (t : Tridiagonal n) (l m : Nat) : Tridiagonal n × Float :=
  let g := t.d l
  let p := (t.d (l + 1) - g) / (2 * t.e l)
  let r := hypotenuse p 1
  let r := if p < 0 then -r else r
  let first := t.e l / (p + r)
  let second := t.e l * (p + r)
  let h := g - first
  let diag := Array.ofFn (n := n) fun i =>
    if i = l then first else if i = l + 1 then second else if l + 1 < i then t.d i - h else t.d i
  let start : Tridiagonal n := { t with diag }
  let beside := t.e (l + 1)
  let x := (List.range' l (m - l)).foldr (fun i x => turn x i) ⟨start, start.d m, 1, 0, 1, 1, 0⟩
  let p := -x.s * x.s2 * x.c3 * beside * x.state.e l / second
  ({ x.state with
      diag := x.state.diag.setIfInBounds l (x.c * p)
      off := x.state.off.setIfInBounds l (x.s * p) }, h)

/-- Sweeps once; the iteration ends when the entry beside value `l` is negligible against `scale`. The
    float adds the shifts up. -/
def step (l m : Nat) (scale : Float) : Tridiagonal n × Float → (Tridiagonal n × Float) ⊕ (Tridiagonal n × Float)
  | (t, shift) =>
    let (t, h) := t.sweep l m
    if epsilon * scale < (t.e l).abs then .inl (t, shift + h) else .inr (t, shift + h)

/-- Finds value `l`, if the iteration for it ends. Carried along: the shift so far and the scale that
    entries are negligible against. Even the zero at the end counts as negligible only against a number. -/
def settle? (state : Tridiagonal n × Float × Float) (l : Nat) :
    ExceptT EigenError Option (Tridiagonal n × Float × Float) := do
  let (t, shift, scale) := state
  let scale := larger scale ((t.d l).abs + (t.e l).abs)
  match (List.range' l (n - l)).find? fun k => decide ((t.e k).abs ≤ epsilon * scale) with
  | none => throw .noRow
  | some m =>
    let (t, shift) ← if l < m then liftM (repeatUntil (step l m scale) (t, shift)) else pure (t, shift)
    pure ({ t with
      diag := t.diag.setIfInBounds l (t.d l + shift)
      off := t.off.setIfInBounds l 0 }, shift, scale)

/-- Brings the smallest of the values from `i` on to place `i`, with its column. -/
def select (t : Tridiagonal n) (i : Nat) : Tridiagonal n :=
  let k := (List.range' (i + 1) (n - (i + 1))).foldl (fun k j => if t.d j < t.d k then j else k) i
  let source (j : Nat) : Nat := if j = i then k else if j = k then i else j
  { t with
    diag := Array.ofFn (n := n) fun j => t.d (source j)
    basis := ofFn fun r c => t.basis.get r (source c) }

end Tridiagonal

/-- The eigenvalues of a symmetric matrix in rising order, and an orthonormal basis of eigenvectors, if the
    iterations for them end and every sweep begins in a row of the matrix. -/
def symmetricEigen? (a : Mat Float n n) : ExceptT EigenError Option (List Float × Mat Float n n) := do
  let (t, _, _) ← (List.range n).foldlM Tridiagonal.settle? (Tridiagonal.ofMat a, 0, 0)
  let t := (List.range (n - 1)).foldl Tridiagonal.select t
  pure (t.diag.toList, t.basis)

end ArrayCalc.Mat
