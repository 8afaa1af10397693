import ArrayCalc.Proofs.Mat.Exact

namespace ArrayCalc

/-- Ordered scalars with exact square roots. -/
class Numeric.Rooted (α : Type) [Field α] [LinearOrder α] [Numeric α] : Prop extends Numeric.Ordered α where
  sqrt_nonneg (x : α) : 0 ≤ x → 0 ≤ Numeric.sqrt x
  sqrt_mul_sqrt (x : α) : 0 ≤ x → Numeric.sqrt x * Numeric.sqrt x = x

/-- Real numbers with their square root. -/
noncomputable instance instNumericReal : Numeric ℝ where
  eq x y := decide (x = y)
  lt x y := decide (x < y)
  abs x := |x|
  sqrt := Real.sqrt

instance Numeric.rooted_real : Numeric.Rooted ℝ where
  eq_iff _ _ := decide_eq_true_iff
  lt_iff _ _ := decide_eq_true_iff
  abs_eq _ := rfl
  sqrt_nonneg x _ := Real.sqrt_nonneg x
  sqrt_mul_sqrt _ := Real.mul_self_sqrt

namespace Mat

variable {α : Type} {m n : Nat}

/-- The first columns have length one and are orthogonal to each other. -/
def OrthonormalColumns [NonAssocSemiring α] (a : Mat α m n) (count : Nat) : Prop :=
  ∀ i < count, ∀ j < count, ∑ r ∈ Finset.range m, a.get r i * a.get r j = if i = j then 1 else 0

/-- All columns are orthonormal where the transpose is an inverse from the left. -/
theorem orthonormalColumns_iff [NonAssocSemiring α] {a : Mat α m n} :
    a.OrthonormalColumns n ↔ a.toMatrix.transpose * a.toMatrix = 1 := by
  have hentry (i j : Fin n) :
      (a.toMatrix.transpose * a.toMatrix) i j = ∑ r ∈ Finset.range m, a.get r i * a.get r j := by
    rw [Matrix.mul_apply, Finset.sum_range]
    rfl
  have hone (i j : Fin n) : (1 : Matrix (Fin n) (Fin n) α) i j = if (i : Nat) = j then 1 else 0 := by
    rw [Matrix.one_apply]
    exact if_congr Fin.ext_iff rfl rfl
  constructor
  · intro h
    ext i j
    rw [hentry, hone]
    exact h i i.isLt j j.isLt
  · intro h i hi j hj
    rw [← hone ⟨i, hi⟩ ⟨j, hj⟩, ← h, hentry]

theorem get_ofColumns [Zero α] (columns : List (List α)) {i j : Nat} (hi : i < m) (hj : j < n) :
    (ofColumns columns : Mat α m n).get i j = (columns.getD j []).getD i 0 := by
  rw [ofColumns, get_ofFn _ hi hj]
  by_cases hmore : j < columns.length
  · simp [hmore]
  · simp [hmore]

end Mat

end ArrayCalc
