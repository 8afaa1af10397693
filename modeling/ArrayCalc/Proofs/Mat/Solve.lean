import ArrayCalc.Proofs.Mat.Elimination

namespace ArrayCalc.Mat

namespace Elimination

variable {α : Type} {n k : Nat} [Field α] {a : Mat α n n} {e : Elimination α n n}

theorem Factors.toMatrix_lower_mul_upper (h : Factors a n e) :
    e.lower.toMatrix * e.upper.toMatrix = a.toMatrix.submatrix h.perm id := by
  rw [← upperBlock_of_square]
  exact h.toMatrix_lower_mul (Nat.le_refl n)

private theorem foldl_sub_eq (f : Nat → α) (x : α) (i : Nat) :
    (List.range i).foldl (fun x c => x - f c) x = x - ∑ c ∈ Finset.range i, f c := by
  induction i with
  | zero => rw [List.range_zero, List.foldl_nil, Finset.sum_range_zero, sub_zero]
  | succ i ih => rw [List.range_succ, List.foldl_concat, ih, Finset.sum_range_succ, sub_sub]

/-- What forward substitution finds, times the lower factor, is the right-hand side. -/
theorem lower_mul_forward (e : Elimination α n n) (b : List α) {i : Nat} (hi : i < n) :
    ∑ k ∈ Finset.range n, e.lower.get i k * (e.forward b).getD k 0 = b.getD i 0 := by
  have hitem := (foldl_push (m := n)
    (g := fun ys i => (List.range i).foldl (fun y c => y - ys.getD c 0 * e.factors.get i c) (b.toArray.getD i 0))
    fun xs ys i hsame => by
      rw [foldl_sub_eq, foldl_sub_eq]
      refine congrArg (_ - ·) (Finset.sum_congr rfl fun c hc => ?_)
      rw [hsame c (Finset.mem_range.mp hc)]).2 i hi
  rw [foldl_sub_eq] at hitem
  have hlower {k : Nat} (hk : k < i) : e.lower.get i k = e.factors.get i k := by
    rw [e.get_lower hi (by omega), if_pos hk]
  have hzero (k : Nat) (hk : k ∈ Finset.range n) (hpast : k ∉ Finset.range (i + 1)) :
      e.lower.get i k * (e.forward b).getD k 0 = 0 := by
    rw [Finset.mem_range] at hk hpast
    rw [e.get_lower hi hk, if_neg (by omega), if_neg (by omega), zero_mul]
  have hsub : Finset.range (i + 1) ⊆ Finset.range n := Finset.range_subset_range.mpr hi
  have hsum : ∑ k ∈ Finset.range i, e.lower.get i k * (e.forward b).getD k 0 =
      ∑ k ∈ Finset.range i, (e.forward b).getD k 0 * e.factors.get i k :=
    Finset.sum_congr rfl fun k hk => by rw [hlower (Finset.mem_range.mp hk), mul_comm]
  have hdiagonal : e.lower.get i i = 1 := by
    rw [e.get_lower hi hi, if_neg (Nat.lt_irrefl i), if_pos rfl]
  have hforward : (e.forward b).getD i 0 =
      b.toArray.getD i 0 - ∑ c ∈ Finset.range i, (e.forward b).getD c 0 * e.factors.get i c := hitem
  rw [← Finset.sum_subset hsub hzero, Finset.sum_range_succ, hsum, hdiagonal, one_mul, hforward, add_sub_cancel]
  simp

private theorem foldr_zipIdx_sub_eq (f : Nat → α) (xs : List α) (s : Nat) (y : α) :
    (xs.zipIdx s).foldr (fun (x, c) y => y - x * f c) y = y - ∑ k ∈ Finset.range xs.length, xs.getD k 0 * f (s + k) := by
  induction xs generalizing s with
  | nil => simp
  | cons x xs ih =>
    rw [List.zipIdx_cons, List.foldr_cons, ih, List.length_cons, Finset.sum_range_succ']
    dsimp only
    rw [sub_sub]
    refine congrArg₂ _ rfl (congrArg₂ _ (Finset.sum_congr rfl fun k _ => ?_) rfl)
    rw [List.getD_cons_succ, Nat.add_right_comm, Nat.add_assoc]

/-- The unknown of a row, in front of those of the rows below it. -/
private def prependUnknown (e : Elimination α n n) (ys : Array α) (i : Nat) (xs : List α) : List α :=
  (xs.zipIdx (i + 1)).foldr (fun (x, c) y => y - x * e.factors.get i c) (ys.getD i 0) / e.factors.get i i :: xs

/-- The unknowns from a row on solve the equations from this row on. -/
private theorem unknowns_from (hpivots : ∀ i < n, e.factors.get i i ≠ 0) (ys : Array α) (len start : Nat)
    (hstart : start + len = n) :
    ((List.range' start len).foldr (prependUnknown e ys) []).length = len ∧
      ∀ i, start ≤ i → i < n →
        ∑ k ∈ Finset.Ico i n,
          e.factors.get i k * ((List.range' start len).foldr (prependUnknown e ys) []).getD (k - start) 0 =
            ys.getD i 0 := by
  induction len generalizing start with
  | zero => exact ⟨rfl, fun i hi hin => by omega⟩
  | succ len ih =>
    obtain ⟨hlength, hbelow⟩ := ih (start + 1) (by omega)
    rw [List.range'_succ, List.foldr_cons]
    generalize (List.range' (start + 1) len).foldr (prependUnknown e ys) [] = xs at *
    refine ⟨congrArg Nat.succ hlength, fun i hi hin => ?_⟩
    have hrest (j : Nat) (hj : start < j) :
        ∑ k ∈ Finset.Ico j n, e.factors.get i k * (prependUnknown e ys start xs).getD (k - start) 0 =
          ∑ k ∈ Finset.Ico j n, e.factors.get i k * xs.getD (k - (start + 1)) 0 := by
      refine Finset.sum_congr rfl fun k hk => ?_
      have hk := Finset.mem_Ico.mp hk
      rw [show k - start = k - (start + 1) + 1 by omega]
      rfl
    rcases Nat.eq_or_lt_of_le hi with rfl | hlt
    · have hsum : ∑ k ∈ Finset.Ico (start + 1) n, e.factors.get start k * xs.getD (k - (start + 1)) 0 =
          ∑ k ∈ Finset.range xs.length, xs.getD k 0 * e.factors.get start (start + 1 + k) := by
        rw [Finset.sum_Ico_eq_sum_range, hlength, show n - (start + 1) = len by omega]
        refine Finset.sum_congr rfl fun k _ => ?_
        rw [Nat.add_sub_cancel_left, mul_comm]
      rw [Finset.sum_eq_sum_Ico_succ_bot hin, hrest _ (Nat.lt_succ_self start), hsum, Nat.sub_self, prependUnknown,
        List.getD_cons_zero, foldr_zipIdx_sub_eq, mul_div_cancel₀ _ (hpivots start hin), sub_add_cancel]
    · rw [hrest i hlt]
      exact hbelow i hlt hin

/-- What backward substitution finds, times the upper factor, is the right-hand side, if no pivot is zero. -/
theorem upper_mul_backward (hpivots : ∀ i < n, e.factors.get i i ≠ 0) (ys : Array α) {i : Nat} (hi : i < n) :
    ∑ k ∈ Finset.range n, e.upper.get i k * (e.backward ys).getD k 0 = ys.getD i 0 := by
  have hunknowns := (unknowns_from hpivots ys n 0 (Nat.zero_add n)).2 i (Nat.zero_le i) hi
  rw [← List.range_eq_range'] at hunknowns
  have hsub : Finset.Ico i n ⊆ Finset.range n := fun k hk => Finset.mem_range.mpr (Finset.mem_Ico.mp hk).2
  have hzero (k : Nat) (hk : k ∈ Finset.range n) (hbefore : k ∉ Finset.Ico i n) :
      e.upper.get i k * (e.backward ys).getD k 0 = 0 := by
    rw [Finset.mem_range] at hk
    rw [Finset.mem_Ico] at hbefore
    rw [e.get_upper hi hk, if_neg (by omega), zero_mul]
  rw [← Finset.sum_subset hsub hzero, ← hunknowns]
  refine Finset.sum_congr rfl fun k hk => ?_
  have hk := Finset.mem_Ico.mp hk
  rw [e.get_upper hi hk.2, if_pos hk.1]
  rfl

/-- The intermediate unknowns of all right-hand sides, found by forward substitution. -/
private def forwardMat (e : Elimination α n n) (b : Mat α n k) : Mat α n k :=
  ofFn fun i j => (e.forward (e.origin.toList.map fun i => b.get i j)).getD i 0

theorem get_solve (e : Elimination α n n) (b : Mat α n k) {i j : Nat} (hi : i < n) (hj : j < k) :
    (e.solve b).get i j = (e.backward (e.forward (e.origin.toList.map fun i => b.get i j))).getD i 0 := by
  rw [solve, ofColumns, get_ofFn _ hi hj]
  simp [hj]

/-- Solving a system whose pivots are not zero. -/
theorem Factors.mul_solve (h : Factors a n e) (hpivots : ∀ i < n, e.factors.get i i ≠ 0) (b : Mat α n k) :
    a.mul (e.solve b) = b := by
  have hupper : e.upper.toMatrix * (e.solve b).toMatrix = (forwardMat e b).toMatrix := by
    rw [← toMatrix_mul]
    ext i j
    rw [toMatrix_apply, get_mul _ _ i.isLt j.isLt, toMatrix_apply, forwardMat, get_ofFn _ i.isLt j.isLt,
      ← upper_mul_backward hpivots _ i.isLt]
    refine Finset.sum_congr rfl fun c hc => ?_
    rw [get_solve e b (Finset.mem_range.mp hc) j.isLt]
  have hlower : e.lower.toMatrix * (forwardMat e b).toMatrix = b.toMatrix.submatrix h.perm id := by
    rw [← toMatrix_mul]
    ext i j
    have hrow : (e.origin.toList.map fun i => b.get i j).getD i 0 = b.get (e.row i) j := by
      simp [row]
    rw [toMatrix_apply, get_mul _ _ i.isLt j.isLt, Matrix.submatrix_apply, toMatrix_apply, h.val_perm, id_eq, ← hrow,
      ← e.lower_mul_forward _ i.isLt]
    refine Finset.sum_congr rfl fun c hc => ?_
    rw [forwardMat, get_ofFn _ (Finset.mem_range.mp hc) j.isLt]
  have hrows : (a.toMatrix * (e.solve b).toMatrix).submatrix h.perm id = b.toMatrix.submatrix h.perm id := by
    rw [← hlower, ← hupper, ← Matrix.mul_assoc, h.toMatrix_lower_mul_upper]
    rfl
  apply toMatrix_injective
  rw [toMatrix_mul]
  ext i j
  have hentry := congrFun (congrFun hrows (h.perm.symm i)) j
  rwa [Matrix.submatrix_apply, Matrix.submatrix_apply, Equiv.apply_symm_apply] at hentry

/-- The determinant, up to the sign of the permutation, is the product of the pivots. -/
theorem Factors.sign_mul_det (h : Factors a n e) :
    (Equiv.Perm.sign h.perm : ℤ) * a.toMatrix.det = ∏ i : Fin n, e.factors.get i i := by
  have hlower : e.lower.toMatrix.det = 1 := by
    rw [Matrix.det_of_isLowerTriangular]
    · refine Finset.prod_eq_one fun i _ => ?_
      rw [toMatrix_apply, e.get_lower i.isLt i.isLt, if_neg (Nat.lt_irrefl _), if_pos rfl]
    · intro i j hij
      have hij : i < j := hij
      rw [toMatrix_apply, e.get_lower i.isLt j.isLt, if_neg (by omega), if_neg (by omega)]
  have hupper : e.upper.toMatrix.det = ∏ i : Fin n, e.factors.get i i := by
    rw [Matrix.det_of_isUpperTriangular]
    · refine Finset.prod_congr rfl fun i _ => ?_
      rw [toMatrix_apply, e.get_upper i.isLt i.isLt, if_pos (Nat.le_refl _)]
    · intro i j hij
      have hij : j < i := hij
      rw [toMatrix_apply, e.get_upper i.isLt j.isLt, if_neg (by omega)]
  have hdet := congrArg Matrix.det h.toMatrix_lower_mul_upper
  rw [Matrix.det_mul, hlower, hupper, one_mul, Matrix.det_permute] at hdet
  exact hdet.symm

/-- A matrix is singular exactly if some pivot is zero. -/
theorem Factors.det_ne_zero_iff (h : Factors a n e) : a.toMatrix.det ≠ 0 ↔ ∀ i < n, e.factors.get i i ≠ 0 := by
  have hsign : ((Equiv.Perm.sign h.perm : ℤ) : α) ≠ 0 := by
    rcases Int.units_eq_one_or (Equiv.Perm.sign h.perm) with hsign | hsign <;> simp [hsign]
  have hnonzero : a.toMatrix.det ≠ 0 ↔ ∏ i : Fin n, e.factors.get i i ≠ 0 := by
    rw [← h.sign_mul_det]
    exact (mul_ne_zero_iff_left hsign).symm
  rw [hnonzero, Finset.prod_ne_zero_iff]
  exact ⟨fun hall i hi => hall ⟨i, hi⟩ (Finset.mem_univ _), fun hall i _ => hall i i.isLt⟩

end Elimination

section

variable {α : Type} {n : Nat} [Field α] [Numeric α] [Numeric.Exact α] (a : Mat α n n)

theorem isSingular_eliminate_eq_true_iff : a.eliminate.isSingular = true ↔ a.toMatrix.det = 0 := by
  have hregular := (Elimination.factors_eliminate a (Nat.le_refl n)).det_ne_zero_iff
  rw [← not_iff_not, ← ne_eq (a.toMatrix.det), hregular, Elimination.isSingular]
  simp [Numeric.isZero_eq_false_iff]

/-- A system is refused exactly if its matrix is singular, and otherwise the solution solves it. -/
theorem solve_eq {k : Nat} (hk : 0 < k) (b : Mat α n k) :
    (a.toMatrix.det = 0 → a.solve b = .error .singular) ∧
      (a.toMatrix.det ≠ 0 → ∃ x, a.solve b = .ok x ∧ a.mul x = b) := by
  refine ⟨fun hdet => if_pos ((isSingular_eliminate_eq_true_iff a).mpr hdet), fun hdet => ?_⟩
  have hregular : ¬ a.eliminate.isSingular = true := fun h => hdet ((isSingular_eliminate_eq_true_iff a).mp h)
  have hfactors := Elimination.factors_eliminate a (Nat.le_refl n)
  refine ⟨a.eliminate.solve b, ?_, hfactors.mul_solve (hfactors.det_ne_zero_iff.mp hdet) b⟩
  rw [solve, if_neg hregular, if_neg (Nat.ne_of_gt hk)]

/-- The inverse is computed for exactly those matrices that have one. -/
theorem inverse_eq (hn : 0 < n) :
    (a.toMatrix.det = 0 → a.inverse = .error .singular) ∧
      (a.toMatrix.det ≠ 0 → ∃ x, a.inverse = .ok x ∧ x.toMatrix = a.toMatrix⁻¹) := by
  obtain ⟨hsingular, hregular⟩ := a.solve_eq hn (identity n)
  refine ⟨hsingular, fun hdet => ?_⟩
  obtain ⟨x, hx, hproduct⟩ := hregular hdet
  refine ⟨x, hx, ?_⟩
  have hproduct := congrArg toMatrix hproduct
  rw [toMatrix_mul, toMatrix_identity] at hproduct
  exact (Matrix.inv_eq_right_inv hproduct).symm

end

end ArrayCalc.Mat
