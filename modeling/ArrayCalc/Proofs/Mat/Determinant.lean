import ArrayCalc.Proofs.Mat.Solve

namespace ArrayCalc.Mat

namespace Elimination

section

variable {α : Type} {m n : Nat} [Field α] [Numeric α] [Numeric.Exact α] {a : Mat α m n} {e : Elimination α m n}
  {j : Nat}

/-- Eliminating a column lets the pivot row and the row of the diagonal change places. -/
theorem Factors.perm_step (h : Factors a j e) (hjm : j < m) :
    (h.step hjm).perm = h.perm * Equiv.swap ⟨j, hjm⟩ ⟨e.pivot j, (e.pivot_spec hjm).2.1⟩ := by
  ext i
  have hswap : (Equiv.swap ⟨j, hjm⟩ ⟨e.pivot j, (e.pivot_spec hjm).2.1⟩ i : Fin m).val =
      swapRow j (e.pivot j) i := by
    rw [Equiv.swap_apply_def, swapRow, apply_ite Fin.val, apply_ite Fin.val]
    simp only [Fin.ext_iff]
  rw [Factors.val_perm, e.row_step j i.isLt, Equiv.Perm.mul_apply, Factors.val_perm, hswap]

omit [Numeric.Exact α] in
theorem sign_step (e : Elimination α m n) (j : Nat) :
    (e.step j).sign = if e.pivot j = j then e.sign else -e.sign := rfl

/-- The sign that elimination keeps is that of the permutation of the rows. -/
theorem Factors.sign_eq_step (h : Factors a j e) (hjm : j < m) (hsign : e.sign = (Equiv.Perm.sign h.perm : ℤ)) :
    (e.step j).sign = (Equiv.Perm.sign (h.step hjm).perm : ℤ) := by
  rw [sign_step, h.perm_step hjm, Equiv.Perm.sign_mul, hsign]
  by_cases hpivot : e.pivot j = j
  · simp only [hpivot, if_true, Equiv.swap_self, Equiv.Perm.sign_refl, mul_one]
  · have hne : (⟨j, hjm⟩ : Fin m) ≠ ⟨e.pivot j, (e.pivot_spec hjm).2.1⟩ := fun hsame => hpivot (Fin.mk.inj hsame).symm
    rw [if_neg hpivot, Equiv.Perm.sign_swap hne, mul_neg, mul_one, Units.val_neg, Int.cast_neg]

theorem exists_factors_sign_eq (a : Mat α m n) (hmn : n ≤ m) :
    ∃ h : Factors a n a.eliminate, a.eliminate.sign = (Equiv.Perm.sign h.perm : ℤ) := by
  refine eliminate_induction (P := fun j e => ∃ h : Factors a j e, e.sign = (Equiv.Perm.sign h.perm : ℤ)) hmn ?_
    fun j e hjm ⟨h, hsign⟩ => ⟨h.step hjm, h.sign_eq_step hjm hsign⟩
  have hstart := factors_start a
  have hperm : hstart.perm = 1 := by
    ext i
    rw [Factors.val_perm, row_start i.isLt, Equiv.Perm.one_apply]
  exact ⟨hstart, by rw [hperm, Equiv.Perm.sign_one, Units.val_one, Int.cast_one]⟩

end

section

variable {α : Type} {n : Nat} [Field α]

theorem determinant_eq_prod (e : Elimination α n n) :
    e.determinant = e.sign * ∏ i : Fin n, e.factors.get i i := by
  have hrun (count : Nat) : (List.range count).foldl (fun d j => d * e.factors.get j j) e.sign =
      e.sign * ∏ i ∈ Finset.range count, e.factors.get i i := by
    induction count with
    | zero => rw [List.range_zero, List.foldl_nil, Finset.prod_range_zero, mul_one]
    | succ count ih => rw [List.range_succ, List.foldl_concat, ih, Finset.prod_range_succ, mul_assoc]
  rw [determinant, hrun, Finset.prod_range]

/-- The signed product of the pivots is the determinant. -/
theorem determinant_eliminate [Numeric α] [Numeric.Exact α] (a : Mat α n n) :
    a.eliminate.determinant = a.toMatrix.det := by
  obtain ⟨hfactors, hsign⟩ := exists_factors_sign_eq a (Nat.le_refl n)
  rw [determinant_eq_prod, hsign, ← hfactors.sign_mul_det, ← mul_assoc, ← Int.cast_mul, ← Units.val_mul,
    Int.units_mul_self, Units.val_one, Int.cast_one, one_mul]

end

end Elimination

/-- The closed formulas and elimination give the determinant of a matrix of any size. -/
theorem determinant_eq_det {α : Type} {n : Nat} [Field α] [Numeric α] [Numeric.Exact α] (a : Mat α n n) :
    a.determinant = a.toMatrix.det := by
  match n, a with
  | 0, a => exact (Matrix.det_isEmpty).symm
  | 1, a => exact Elimination.determinant_eliminate a
  | 2, a =>
    rw [Matrix.det_fin_two]
    rfl
  | 3, a =>
    rw [Matrix.det_fin_three]
    simp only [determinant, minor, toMatrix_apply, Fin.val_zero, Fin.val_one, Fin.val_two]
    ring
  | n + 4, a => exact Elimination.determinant_eliminate a

end ArrayCalc.Mat
