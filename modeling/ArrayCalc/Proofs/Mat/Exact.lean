import Mathlib
import ArrayCalc.Mat.Basic

namespace ArrayCalc

/-- Scalars whose tests are exact: only equal ones pass for equal, and by magnitude zero lies below all others. -/
class Numeric.Exact (α : Type) [Zero α] [Numeric α] : Prop where
  eq_iff (x y : α) : Numeric.eq x y = true ↔ x = y
  zero_lt (x : α) : x ≠ 0 → Numeric.lt (Numeric.abs 0) (Numeric.abs x) = true
  not_lt_zero (x : α) : Numeric.lt (Numeric.abs x) (Numeric.abs 0) = false

/-- Scalars that are compared by their order. -/
class Numeric.Ordered (α : Type) [AddGroup α] [LinearOrder α] [Numeric α] : Prop where
  eq_iff (x y : α) : Numeric.eq x y = true ↔ x = y
  lt_iff (x y : α) : Numeric.lt x y = true ↔ x < y
  abs_eq (x : α) : Numeric.abs x = |x|

instance (priority := low) Numeric.Ordered.exact {α : Type} [AddCommGroup α] [LinearOrder α] [IsOrderedAddMonoid α]
    [Numeric α] [Numeric.Ordered α] : Numeric.Exact α where
  eq_iff := Numeric.Ordered.eq_iff
  zero_lt x hx := by
    rw [lt_iff, abs_eq, abs_eq, abs_zero]
    exact abs_pos.mpr hx
  not_lt_zero x := by
    rw [← Bool.not_eq_true, lt_iff, abs_eq, abs_eq, abs_zero]
    exact not_lt.mpr (abs_nonneg x)

/-- Fractions, with a square root that is rounded down in numerator and denominator. -/
instance instNumericRat : Numeric ℚ where
  eq x y := decide (x = y)
  lt x y := decide (x < y)
  abs x := |x|
  sqrt := Rat.sqrt

instance Numeric.ordered_rat : Numeric.Ordered ℚ where
  eq_iff _ _ := decide_eq_true_iff
  lt_iff _ _ := decide_eq_true_iff
  abs_eq _ := rfl

theorem Numeric.isZero_eq_false_iff {α : Type} [Zero α] [Numeric α] [Numeric.Exact α] {x : α} :
    Numeric.isZero x = false ↔ x ≠ 0 := by
  rw [← Bool.not_eq_true, isZero, Numeric.Exact.eq_iff]

theorem sumBetween_eq_sum {α : Type} [AddCommMonoid α] (lo hi : Nat) (f : Nat → α) :
    sumBetween lo hi f = ∑ k ∈ Finset.Ico lo hi, f k := by
  have hfold (xs : List Nat) (s : α) : xs.foldl (fun s k => s + f k) s = s + (xs.map f).sum := by
    induction xs generalizing s with
    | nil => rw [List.foldl_nil, List.map_nil, List.sum_nil, add_zero]
    | cons x xs ih => rw [List.foldl_cons, ih, List.map_cons, List.sum_cons, add_assoc]
  rw [sumBetween, hfold, zero_add]
  rfl

namespace Mat

section

variable {α : Type} {m n p : Nat} [Zero α]

/-- The matrix of algebra with the same entries. -/
def toMatrix (a : Mat α m n) : Matrix (Fin m) (Fin n) α :=
  .of fun i j => a.get i j

@[simp] theorem toMatrix_apply (a : Mat α m n) (i : Fin m) (j : Fin n) : a.toMatrix i j = a.get i j := rfl

theorem toMatrix_injective {a b : Mat α m n} (h : a.toMatrix = b.toMatrix) : a = b :=
  ext_get fun i j hi hj => congrFun (congrFun h ⟨i, hi⟩) ⟨j, hj⟩

theorem toMatrix_transpose (a : Mat α m n) : a.transpose.toMatrix = a.toMatrix.transpose := by
  ext i j
  exact get_transpose i.isLt j.isLt

theorem toMatrix_identity [One α] : (identity n : Mat α n n).toMatrix = 1 := by
  ext i j
  rw [toMatrix_apply, identity, get_ofFn _ i.isLt j.isLt, Matrix.one_apply]
  exact if_congr Fin.ext_iff.symm rfl rfl

theorem isSymmetric_eq_true_iff [Numeric α] [Numeric.Exact α] (a : Mat α n n) :
    a.isSymmetric = true ↔ a.toMatrix.IsSymm := by
  simp only [isSymmetric, List.all_eq_true, List.mem_range, Numeric.Exact.eq_iff]
  constructor
  · intro h
    ext i j
    rw [Matrix.transpose_apply, toMatrix_apply, toMatrix_apply]
    rcases le_total i j with hij | hji
    · exact h j j.isLt i (Nat.lt_succ_of_le hij)
    · exact (h i i.isLt j (Nat.lt_succ_of_le hji)).symm
  · intro h i hi j hj
    exact h.apply ⟨j, by omega⟩ ⟨i, hi⟩

end

section

variable {α : Type} {m n p : Nat} [NonUnitalNonAssocSemiring α]

theorem get_mul (a : Mat α m n) (b : Mat α n p) {i j : Nat} (hi : i < m) (hj : j < p) :
    (a.mul b).get i j = ∑ k ∈ Finset.range n, a.get i k * b.get k j := by
  rw [mul, get_ofFn _ hi hj, sumBetween_eq_sum, Finset.range_eq_Ico]

theorem toMatrix_mul (a : Mat α m n) (b : Mat α n p) : (a.mul b).toMatrix = a.toMatrix * b.toMatrix := by
  ext i j
  rw [toMatrix_apply, get_mul a b i.isLt j.isLt, Matrix.mul_apply, Finset.sum_range]
  rfl

end

end Mat

end ArrayCalc
