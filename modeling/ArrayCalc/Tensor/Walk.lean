import ArrayCalc.Tensor.Index

namespace ArrayCalc

namespace Shape

variable {α : Type}

/-- The multi-index after a given one in row-major order, and whether it is the first one again: the last
    coordinate that can grow does, and those behind it go back to zero. -/
def advance : Shape → List Nat → List Nat × Bool
  | d :: ds, i :: is =>
    match advance ds is with
    | (is, false) => (i :: is, false)
    | (is, true) => if i + 1 < d then ((i + 1) :: is, false) else (0 :: is, true)
  | _, _ => ([], true)

/-- One step of a walk leads from the coordinates of a place to those of the next one. -/
theorem advance_unravel {s : Shape} {k : Nat} (h : k < size s) :
    advance s (unravel s k) = if k + 1 < size s then (unravel s (k + 1), false) else (unravel s 0, true) := by
  induction s generalizing k with
  | nil =>
    rw [size_nil] at h ⊢
    rw [if_neg (by omega)]
    rfl
  | cons d ds ih =>
    have hpos : 0 < size ds := Nat.pos_of_ne_zero fun hzero => by simp [hzero] at h
    have hplace : k % size ds < size ds := Nat.mod_lt _ hpos
    have hsplit := Nat.div_add_mod k (size ds)
    have hblock : k / size ds < d := Nat.div_lt_of_lt_mul (by rwa [Nat.mul_comm, ← size_cons])
    rw [unravel, advance, ih hplace, size_cons]
    by_cases hinside : k % size ds + 1 < size ds
    · -- The next place is in the same block.
      have hnext : k + 1 = size ds * (k / size ds) + (k % size ds + 1) := by omega
      have hroom : k + 1 < d * size ds := by
        have hend := Nat.mul_le_mul_right (size ds) (Nat.succ_le_of_lt hblock)
        rw [Nat.succ_mul, Nat.mul_comm _ (size ds)] at hend
        omega
      rw [if_pos hinside, if_pos hroom, unravel, hnext, Nat.mul_add_div hpos, Nat.mul_add_mod,
        Nat.div_eq_of_lt hinside, Nat.mod_eq_of_lt hinside]
      rfl
    · -- The next place is the first one of the next block, if there is one.
      have hnext : k + 1 = (k / size ds + 1) * size ds := by
        rw [Nat.succ_mul, Nat.mul_comm]
        omega
      have hroom : k + 1 < d * size ds ↔ k / size ds + 1 < d := by
        rw [hnext, Nat.mul_lt_mul_right hpos]
      simp only [if_neg hinside, hroom]
      rw [hnext, unravel, unravel, Nat.mul_div_cancel _ hpos, Nat.mul_mod_left, Nat.zero_div, Nat.zero_mod]

/-- Adds elements to an array while the index walks on, one for each multi-index on the way. -/
def walkFrom (s : Shape) (f : List Nat → α) : (count : Nat) → (idx : List Nat) → (out : Array α) → Array α
  | 0, _, out => out
  | count + 1, idx, out => walkFrom s f count (s.advance idx).1 (out.push (f idx))

/-- The elements for the multi-indices of a shape, in the order of a walk that begins at the first one. -/
def walk (s : Shape) (f : List Nat → α) : Array α :=
  walkFrom s f s.size (List.replicate s.length 0) #[]

/-- The elements for the places before the `k`th one. -/
def upTo (s : Shape) (f : List Nat → α) (k : Nat) : Array α :=
  Array.ofFn fun place : Fin k => f (s.unravel place)

theorem upTo_succ (s : Shape) (f : List Nat → α) (k : Nat) :
    s.upTo f (k + 1) = (s.upTo f k).push (f (s.unravel k)) := by
  rw [upTo, Array.ofFn_succ]
  rfl

/-- A walk that has come to place `k` is at its coordinates and has visited the places before it. -/
theorem walkFrom_unravel {s : Shape} (f : List Nat → α) {count k : Nat} (h : k + count ≤ size s) :
    walkFrom s f count (unravel s k) (s.upTo f k) = s.upTo f (k + count) := by
  induction count generalizing k with
  | zero => rfl
  | succ count ih =>
    rw [walkFrom, advance_unravel (by omega), ← upTo_succ]
    by_cases hlast : k + 1 < size s
    · rw [if_pos hlast, ih (by omega), Nat.add_right_comm, Nat.add_assoc]
    · obtain rfl : count = 0 := by omega
      rfl

theorem unravel_zero (s : Shape) : unravel s 0 = List.replicate s.length 0 := by
  induction s with
  | nil => rfl
  | cons d ds ih => rw [unravel, Nat.zero_div, Nat.zero_mod, ih, List.length_cons, List.replicate_succ]

/-- A walk visits every place of a shape once, in row-major order. -/
theorem walk_eq_upTo (s : Shape) (f : List Nat → α) : s.walk f = s.upTo f s.size := by
  have hrun := walkFrom_unravel f (Nat.le_of_eq (Nat.zero_add s.size))
  rwa [Nat.zero_add, unravel_zero] at hrun

end Shape

namespace Tensor

variable {α : Type}

/-- The array of a given shape with the elements that a walk over it gives. -/
def traverse (shape : Shape) (f : List Nat → α) : Tensor α :=
  ⟨shape, shape.walk f⟩

theorem traverse_eq_ofIndex (shape : Shape) (f : List Nat → α) : traverse shape f = ofIndex shape f := by
  rw [traverse, Shape.walk_eq_upTo]
  rfl

theorem wellFormed_traverse (shape : Shape) (f : List Nat → α) : (traverse shape f).WellFormed := by
  rw [traverse_eq_ofIndex]
  exact wellFormed_generate _ _

end Tensor

end ArrayCalc
