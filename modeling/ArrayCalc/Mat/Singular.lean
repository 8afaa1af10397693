import ArrayCalc.Mat.Basis
import ArrayCalc.Mat.Iteration
import ArrayCalc.Mat.QR

namespace ArrayCalc.Mat

variable {m n : Nat}

/-- The distance from one to the next double. -/
def epsilon : Float := Float.ofBits 0x3CB0000000000000

/-- The smallest positive double. -/
def tiny : Float := Float.ofBits 1

/-- The larger of two numbers; it is not a number if one of them is not. -/
def larger (x y : Float) : Float :=
  if x < y || y.isNaN then y else x

/-- A matrix on its way to a diagonal: `diag` and `super` are the entries on and above the diagonal, `left`
    and `right` the bases that go with them. -/
structure Bidiagonal (m n : Nat) where
  diag : Array Float
  super : Array Float
  left : Mat Float m n
  right : Mat Float n n

namespace Bidiagonal

/-- One Householder pair. The first reflection, from the left, clears column `k` below the diagonal where
    the matrix has rows below it; the second, from the right, clears row `k` past the first entry above
    the diagonal where there are such entries. `left` and `right` collect the reflecting vectors. -/
def reduce (state : Mat Float m n × Bidiagonal m n) (k : Nat) : Mat Float m n × Bidiagonal m n :=
  let (a, b) := state
  let (a, norm) := if k + 1 < m then a.reflect k else (a, 0)
  let row := (List.range' (k + 1) (n - (k + 1))).map fun j => a.get k j
  let b := if k + 1 < m then
      { b with
        diag := b.diag.setIfInBounds k (-norm)
        left := ofFn fun i j => if j = k ∧ k ≤ i then a.get i k else b.left.get i j }
    else b
  if k + 2 < n then
    let norm := length row
    let (row, norm) :=
      if norm == 0 then (row, norm)
      else
        let norm := if row.headD 0 < 0 then 0 - norm else norm
        match row.map (· / norm) with
        | x :: xs => ((x + 1) :: xs, norm)
        | [] => ([], norm)
    let e := row.toArray
    let a :=
      if k + 1 < m ∧ !(norm == 0) then
        let work := (List.range m).toArray.map fun i =>
          sumBetween (k + 1) n fun j => e.getD (j - (k + 1)) 0 * a.get i j
        ofFn fun i j =>
          if k < i ∧ k < j then
            a.get i j + -e.getD (j - (k + 1)) 0 / e.getD 0 0 * work.getD i 0
          else a.get i j
      else a
    (a, { b with
          super := b.super.setIfInBounds k (-norm)
          right := ofFn fun i j => if j = k ∧ k < i then e.getD (i - (k + 1)) 0 else b.right.get i j })
  else
    (a, b)

/-- Turns column `k` of the collected left vectors into a basis vector, with the later columns reflected. -/
def unfoldLeft (b : Bidiagonal m n) (k : Nat) : Bidiagonal m n :=
  let left : Mat Float m n :=
    if k + 1 < m ∧ !(b.diag.getD k 0 == 0) then
      let reflected := b.left.reflectColumns k b.left (k + 1)
      ofFn fun i j =>
        if j = k then
          if i < k then 0 else if i = k then 1 + -b.left.get k k else -b.left.get i k
        else reflected.get i j
    else ofFn fun i j => if j = k then (if i = k then 1 else 0) else b.left.get i j
  { b with left }

/-- Turns column `k` of the collected right vectors into a basis vector, with the later columns reflected. -/
def unfoldRight (b : Bidiagonal m n) (k : Nat) : Bidiagonal m n :=
  let v := b.right
  let reflected : Mat Float n n :=
    if k + 2 < n ∧ !(b.super.getD k 0 == 0) then
      let factors := (List.range n).toArray.map fun j =>
        -(sumBetween (k + 1) n fun i => v.get i k * v.get i j) / v.get (k + 1) k
      ofFn fun i j => if k < j ∧ k < i then v.get i j + factors.getD j 0 * v.get i k else v.get i j
    else v
  { b with right := ofFn fun i j => if j = k then (if i = k then 1 else 0) else reflected.get i j }

/-- The bidiagonal form of a matrix with at least as many rows as columns, with its bases. -/
def ofMat (a : Mat Float m n) : Bidiagonal m n :=
  let zeros := Array.replicate n (0 : Float)
  let (a, b) := (List.range n).foldl reduce (a, ⟨zeros, zeros, ofFn fun _ _ => 0, ofFn fun _ _ => 0⟩)
  let b := if m = n then { b with diag := b.diag.setIfInBounds (n - 1) (a.get (n - 1) (n - 1)) } else b
  let b := if 2 ≤ n then { b with super := b.super.setIfInBounds (n - 2) (a.get (n - 2) (n - 1)) } else b
  let b := (List.range n).foldr (fun k b => b.unfoldLeft k) b
  (List.range n).foldr (fun k b => b.unfoldRight k) b

end Bidiagonal

/-- Turns columns `i` and `j` in their plane. -/
def rotateColumns (a : Mat Float m n) (cs sn : Float) (i j : Nat) : Mat Float m n :=
  ofFn fun r c =>
    if c = i then cs * a.get r i + sn * a.get r j
    else if c = j then -sn * a.get r i + cs * a.get r j
    else a.get r c

namespace Bidiagonal

def s (b : Bidiagonal m n) (k : Nat) : Float := b.diag.getD k 0

def e (b : Bidiagonal m n) (k : Nat) : Float := b.super.getD k 0

def setS (b : Bidiagonal m n) (k : Nat) (x : Float) : Bidiagonal m n :=
  { b with diag := b.diag.setIfInBounds k x }

def setE (b : Bidiagonal m n) (k : Nat) (x : Float) : Bidiagonal m n :=
  { b with super := b.super.setIfInBounds k x }

def rotateLeft (b : Bidiagonal m n) (cs sn : Float) (i j : Nat) : Bidiagonal m n :=
  { b with left := b.left.rotateColumns cs sn i j }

def rotateRight (b : Bidiagonal m n) (cs sn : Float) (i j : Nat) : Bidiagonal m n :=
  { b with right := b.right.rotateColumns cs sn i j }

/-- What is to be done with the leading block of `p` columns next. `start` is the first column of the
    part that no negligible entry splits off. -/
inductive Case where
  | deflate (start : Nat)
  | split (start : Nat)
  | sweep (start : Nat)
  | converged

/-- The last negligible entry above the diagonal of the leading block, as the column after it, or zero. -/
def startOf (b : Bidiagonal m n) (p : Nat) : Nat :=
  ((List.range (p - 1)).reverse.find? fun k =>
      decide ((b.e k).abs ≤ tiny + epsilon * (b.s k + (b.s (k + 1)).abs).abs) || (b.e k).isNaN).elim
    0 (· + 1)

/-- The last negligible diagonal entry from `start` on. -/
def negligible? (b : Bidiagonal m n) (start p : Nat) : Option Nat :=
  (List.range' start (p - start)).reverse.find? fun k =>
    let above := (b.e k).abs + if k = start then 0 else (b.e (k - 1)).abs
    decide ((b.s k).abs ≤ epsilon * above)

/-- Decides the next step and sets the entries that it found negligible to zero. -/
def classify (b : Bidiagonal m n) (p : Nat) : Case × Bidiagonal m n :=
  let start := b.startOf p
  let b := if start = 0 then b else b.setE (start - 1) 0
  if start + 1 = p then (.converged, b)
  else
    match b.negligible? start p with
    | none => (.sweep start, b)
    | some k =>
      let b := b.setS k 0
      if k + 1 = p then (.deflate start, b) else (.split (k + 1), b)

/-- Clears the entry above a zero at the end of the leading block, column by column to the left. -/
def deflate (b : Bidiagonal m n) (start p : Nat) : Bidiagonal m n :=
  let f := b.e (p - 2)
  ((List.range' start (p - 1 - start)).foldr
    (fun j (b, f) =>
      let t := hypotenuse (b.s j) f
      let cs := b.s j / t
      let sn := f / t
      let b := b.setS j t
      let (b, f) := if j = start then (b, f) else (b.setE (j - 1) (cs * b.e (j - 1)), -sn * b.e (j - 1))
      (b.rotateRight cs sn j (p - 1), f))
    (b.setE (p - 2) 0, f)).1

/-- Clears the entry beside a zero on the diagonal, column by column to the right. -/
def split (b : Bidiagonal m n) (start p : Nat) : Bidiagonal m n :=
  let f := b.e (start - 1)
  ((List.range' start (p - start)).foldl
    (fun (b, f) j =>
      let t := hypotenuse (b.s j) f
      let cs := b.s j / t
      let sn := f / t
      let f := -sn * b.e j
      let b := (b.setS j t).setE j (cs * b.e j)
      (b.rotateLeft cs sn j (start - 1), f))
    (b.setE (start - 1) 0, f)).1

/-- The shift that the trailing two columns of the leading block suggest, and the pair of entries that the
    sweep starts from. -/
def shiftStart (b : Bidiagonal m n) (start p : Nat) : Float × Float :=
  let scale := [(b.s (p - 2)).abs, (b.e (p - 2)).abs, (b.s start).abs, (b.e start).abs].foldl larger
    (b.s (p - 1)).abs
  let sp := b.s (p - 1) / scale
  let spm1 := b.s (p - 2) / scale
  let epm1 := b.e (p - 2) / scale
  let sk := b.s start / scale
  let ek := b.e start / scale
  let half := ((spm1 + sp) * (spm1 - sp) + epm1 * epm1) / 2
  let c := sp * epm1 * (sp * epm1)
  let shift :=
    if half == 0 && c == 0 then 0
    else
      let root := (half * half + c).sqrt
      c / (half + if half < 0 then 0 - root else root)
  ((sk + sp) * (sk - sp) + shift, sk * ek)

/-- The plane rotation that turns a pair onto its first axis: length, cosine and sine. -/
def rotation (f g : Float) : Float × Float × Float :=
  let t := hypotenuse f g
  let t := if t == 0 then tiny else t
  (t, f / t, g / t)

/-- One implicit sweep over the part of the leading block from `start` on. -/
def sweep (b : Bidiagonal m n) (start p : Nat) : Bidiagonal m n :=
  let (f, g) := b.shiftStart start p
  let (b, f, _) := (List.range' start (p - 1 - start)).foldl
    (fun (b, f, g) j =>
      let (t, cs, sn) := rotation f g
      let b := if j = start then b else b.setE (j - 1) t
      let f := cs * b.s j + sn * b.e j
      let b := b.setE j (cs * b.e j - sn * b.s j)
      let g := sn * b.s (j + 1)
      let b := (b.setS (j + 1) (cs * b.s (j + 1))).rotateRight cs sn j (j + 1)
      let (t, cs, sn) := rotation f g
      let b := b.setS j t
      let f := cs * b.e j + sn * b.s (j + 1)
      let b := b.setS (j + 1) (-sn * b.e j + cs * b.s (j + 1))
      let g := sn * b.e (j + 1)
      let b := b.setE (j + 1) (cs * b.e (j + 1))
      let b := if j + 1 < m then b.rotateLeft cs sn j (j + 1) else b
      (b, f, g))
    (b, f, g)
  b.setE (p - 2) f

/-- Swaps neighbouring columns, values and bases alike. -/
def exchange (b : Bidiagonal m n) (k : Nat) : Bidiagonal m n :=
  { diag := (b.diag.setIfInBounds k (b.s (k + 1))).setIfInBounds (k + 1) (b.s k)
    super := b.super
    left := ofFn fun i j => b.left.get i (if j = k then k + 1 else if j = k + 1 then k else j)
    right := ofFn fun i j => b.right.get i (if j = k then k + 1 else if j = k + 1 then k else j) }

/-- Makes a converged value positive and moves it past the smaller ones behind it. -/
def settle (b : Bidiagonal m n) (k : Nat) : Bidiagonal m n :=
  let b :=
    if b.s k ≤ 0 then
      { b.setS k (if b.s k < 0 then -b.s k else 0) with
        right := ofFn fun i j => if j = k then -b.right.get i j else b.right.get i j }
    else b
  ((List.range' k (n - 1 - k)).foldl
    (fun (b, moving) k =>
      if moving && !decide (b.s (k + 1) ≤ b.s k) then (b.exchange k, true) else (b, false))
    (b, true)).1

/-- One step of the iteration, with the number of the leading columns that are left. -/
def step : Bidiagonal m n × Nat → (Bidiagonal m n × Nat) ⊕ Bidiagonal m n
  | (b, 0) => .inr b
  | (b, p + 1) =>
    match b.classify (p + 1) with
    | (.converged, b) => .inl (b.settle p, p)
    | (.deflate start, b) => .inl (b.deflate start (p + 1), p + 1)
    | (.split start, b) => .inl (b.split start (p + 1), p + 1)
    | (.sweep start, b) => .inl (b.sweep start (p + 1), p + 1)

end Bidiagonal

/-- Singular values in falling order, with orthonormal columns on either side. -/
structure Singular (m n : Nat) where
  values : List Float
  left : Mat Float m (min m n)
  right : Mat Float n (min m n)

/-- The first columns. -/
def firstColumns {k : Nat} (a : Mat Float m n) : Mat Float m k :=
  ofFn fun i j => a.get i j

/-- The singular values of a matrix with at least as many rows as columns, with all columns of both
    bases, if the iteration ends. -/
def singularTall? (a : Mat Float m n) : Option (Bidiagonal m n) :=
  repeatUntil Bidiagonal.step (Bidiagonal.ofMat a, n)

/-- The singular value decomposition, if its iteration ends; a matrix with more columns than rows is
    transposed for it. -/
def singular? (a : Mat Float m n) : Option (Singular m n) :=
  if n ≤ m then a.singularTall?.map fun b => ⟨b.diag.toList, b.left.firstColumns, b.right.firstColumns⟩
  else a.transpose.singularTall?.map fun b => ⟨b.diag.toList, b.right.firstColumns, b.left.firstColumns⟩

/-- The pseudo-inverse that a decomposition gives. Singular values below the cutoff that their largest and
    the size of the matrix give count as zero. -/
def Singular.inverse (d : Singular m n) : Mat Float n m :=
  let cutoff := epsilon * Number.ofNat (max m n) * d.values.headD 0
  let inverted := d.values.toArray.map fun s => if cutoff < s.abs then 1 / s else 0
  let scale : Mat Float (min m n) (min m n) := ofFn fun i j => if i = j then inverted.getD i 0 else 0
  d.right.mul (scale.mul d.left.transpose)

/-- The pseudo-inverse, if the iteration for it ends. An empty matrix has its transpose. -/
def pseudoInverse? (a : Mat Float m n) : Option (Mat Float n m) :=
  if m = 0 ∨ n = 0 then some a.transpose else a.singular?.map Singular.inverse

end ArrayCalc.Mat
