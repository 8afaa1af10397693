import ArrayCalc.Eval.Functions
import ArrayCalc.Proofs.Mat.Elimination
import ArrayCalc.Proofs.Tensor.Product

namespace ArrayCalc.Mat

namespace Elimination

section

variable {α : Type} {m n : Nat} [Field α] {a : Mat α m n} {e : Elimination α m n}

theorem Factors.permutation_mul_lower_mul (h : Factors a n e) (hmn : n ≤ m) :
    (e.permutation.mul e.lower).mul e.upperBlock = a := by
  apply toMatrix_injective
  rw [toMatrix_mul, toMatrix_mul, Matrix.mul_assoc, h.toMatrix_lower_mul hmn, h.permutation_mul]

end

end Elimination

/-- Elimination with exact numbers. The factors of a matrix that is not wide are a permutation, multipliers of at most
    one below a diagonal of ones, and an upper triangle whose product they give the matrix. But the upper factor has as
    many rows as the matrix, zeros below the triangle: of a tall matrix the factors as they are returned have no
    product. -/
theorem lu_product {α : Type} {m n : Nat} [Field α] [LinearOrder α] [IsStrictOrderedRing α] [Numeric α]
    [Numeric.Ordered α] (a : Mat α m n) (label : String) (b : Mat Float m n) :
    (m < n → ∃ err, b.lu label = .error (.evaluation err) ∧ err.code = "MC_EVAL_SHAPE") ∧
      (n ≤ m →
        b.lu label = .ok [.array b.eliminate.permutation.toTensor, .array b.eliminate.lower.toTensor,
          .array b.eliminate.upper.toTensor] ∧
        (∃ σ : Equiv.Perm (Fin m), a.eliminate.permutation.toMatrix = σ.permMatrix α) ∧
        (∀ i < m, ∀ j < n, (i = j → a.eliminate.lower.get i j = 1) ∧ (i < j → a.eliminate.lower.get i j = 0) ∧
          |a.eliminate.lower.get i j| ≤ 1) ∧
        (∀ i < m, ∀ j < n, j < i → a.eliminate.upper.get i j = 0) ∧
        (a.eliminate.permutation.mul a.eliminate.lower).mul a.eliminate.upperBlock = a ∧
        (a.eliminate.permutation.toTensor.matmul a.eliminate.lower.toTensor >>= fun t =>
          t.matmul a.eliminate.upper.toTensor) = if m = n then .ok a.toTensor else .error .notAligned) := by
  refine ⟨fun hwide => ⟨.wide label [m, n], if_pos hwide, rfl⟩, fun hmn => ?_⟩
  have hfactors := Elimination.factors_eliminate a hmn
  have hbounded := Elimination.bounded_eliminate a hmn
  have hproduct := hfactors.permutation_mul_lower_mul hmn
  refine ⟨if_neg (Nat.not_lt.mpr hmn), ⟨_, hfactors.toMatrix_permutation⟩, fun i hi j hj => ?_, fun i hi j hj hij => ?_,
    hproduct, ?_⟩
  · rw [a.eliminate.get_lower hi hj]
    refine ⟨fun hij => ?_, fun hij => ?_, ?_⟩
    · rw [if_neg (by omega), if_pos hij]
    · rw [if_neg (by omega), if_neg (by omega)]
    · split
      · rename_i hji
        exact hbounded i hi j hj hj hji
      · split
        · rw [abs_one]
        · rw [abs_zero]
          exact zero_le_one
  · rw [a.eliminate.get_upper hi hj, if_neg (by omega)]
  · rw [Tensor.matmul_toTensor]
    change (a.eliminate.permutation.mul a.eliminate.lower).toTensor.matmul a.eliminate.upper.toTensor = _
    split
    · rename_i hsquare
      subst hsquare
      rw [Tensor.matmul_toTensor, ← Elimination.upperBlock_of_square, hproduct]
    · rename_i htall
      exact Tensor.matmul_toTensor_of_ne _ _ (Ne.symm htall)

/-- Three rows of two, of which the last is brought up first. -/
theorem lu_product_three_rows :
    let a : Mat ℚ 3 2 := ofRowMajor #[1, 2, 3, 4, 5, 6]
    2 ≤ 3 ∧ (a.eliminate.permutation.mul a.eliminate.lower).mul a.eliminate.upperBlock = a ∧
      (a.eliminate.permutation.toTensor.matmul a.eliminate.lower.toTensor >>= fun t =>
        t.matmul a.eliminate.upper.toTensor) = .error .notAligned := by
  intro a
  obtain ⟨-, htall⟩ := lu_product a "lu" (ofRowMajor #[1, 2, 3, 4, 5, 6])
  obtain ⟨-, -, -, -, hproduct, hfactors⟩ := htall (by decide)
  exact ⟨by decide, hproduct, hfactors.trans (if_neg (by decide))⟩

/-- The upper factor of a column of two numbers has two rows, so that the three factors cannot be multiplied. -/
theorem lu_column :
    ∃ p l u pl : Tensor Float,
      (∀ capacity, Builtin.lu.pureValue capacity [.array ⟨[2, 1], #[1, 2]⟩] =
        .ok (.tuple [.array p, .array l, .array u])) ∧
      u.shape = [2, 1] ∧ Value.matmul (.array p) (.array l) = .ok (.array pl) ∧
      ∃ e, Value.matmul (.array pl) (.array u) = .error e ∧ e.code = "MC_EVAL_SHAPE" :=
  ⟨_, _, _, _, fun _ => rfl, rfl, rfl, _, rfl, rfl⟩

end ArrayCalc.Mat
