import ArrayCalc.Eval.Functions
import ArrayCalc.Proofs.Except
import ArrayCalc.Proofs.Mat.Determinant
import ArrayCalc.Proofs.Tensor.Product

namespace ArrayCalc

section

variable {α : Type} [Zero α] {n : Nat} {a : Tensor α} (label : String)

theorem Tensor.toSquare_of_shape (hshape : a.shape = [n, n]) :
    a.toSquare label = .ok ⟨n, .ofRowMajor a.data⟩ := by
  obtain ⟨shape, data⟩ := a
  obtain rfl : shape = [n, n] := hshape
  exact if_pos rfl

variable [One α] [Add α] [Sub α] [Mul α] [Div α] [Neg α] [Numeric α]

theorem determinant_of_shape (hshape : a.shape = [n, n]) :
    determinant label a = .ok (Mat.ofRowMajor a.data : Mat α n n).determinant := by
  rw [determinant, Tensor.toSquare_of_shape label hshape]
  rfl

theorem inverse_of_shape (hshape : a.shape = [n, n]) :
    inverse label a = ((Mat.ofRowMajor a.data : Mat α n n).inverse.mapError
      (Mat.SolveError.toFailure label)).map Mat.toTensor := by
  rw [inverse, Tensor.toSquare_of_shape label hshape]
  change (Mat.ofRowMajor a.data : Mat α n n).inverse.mapError _ >>= _ = _
  cases (Mat.ofRowMajor a.data : Mat α n n).inverse <;> rfl

theorem solve_of_shape (hshape : a.shape = [n, n]) {k : Nat} {b : Tensor α} {rhs : Mat α n k}
    (hrhs : rightSide label n n b = .ok ⟨k, rhs⟩) :
    solve label a b = (((Mat.ofRowMajor a.data : Mat α n n).solve rhs).mapError
      (Mat.SolveError.toFailure label)).map (solutionFor b) := by
  rw [solve, Tensor.toSquare_of_shape label hshape]
  change (rightSide label n n b).mapError Failure.evaluation >>= _ = _
  rw [hrhs]
  change ((Mat.ofRowMajor a.data : Mat α n n).solve rhs).mapError _ >>= _ = _
  cases (Mat.ofRowMajor a.data : Mat α n n).solve rhs <;> rfl

end

/-- A right-hand side as the columns of a matrix, with what a solution for these columns is as an array: an array of the
    same shape, from which the product with the matrix of the system goes back to the right-hand side. -/
structure Columns {α : Type} [Zero α] [Add α] [Mul α] (label : String) {n k : Nat} (b : Tensor α) (rhs : Mat α n k) :
    Prop where
  rightSide_eq : rightSide label n n b = .ok ⟨k, rhs⟩
  solutionFor_self : solutionFor b rhs = b
  shape_solutionFor (x : Mat α n k) : (solutionFor b x).shape = b.shape
  wellFormed_solutionFor (x : Mat α n k) : (solutionFor b x).WellFormed
  matmul_solutionFor (a : Mat α n n) (x : Mat α n k) :
    a.toTensor.matmul (solutionFor b x) = .ok (solutionFor b (a.mul x))

section

variable {α : Type} [Zero α] [Add α] [Mul α] (label : String) {n k : Nat} {xs : Array α}

theorem columns_vector (hsize : xs.size = n) : Columns label ⟨[n], xs⟩ (Mat.ofRowMajor xs : Mat α n 1) where
  rightSide_eq := if_pos rfl
  solutionFor_self := by
    change (⟨[n], (Mat.ofRowMajor xs : Mat α n 1).toTensor.data⟩ : Tensor α) = _
    rw [Mat.toTensor_ofRowMajor (by omega)]
  shape_solutionFor _ := rfl
  wellFormed_solutionFor x := by
    change x.toTensor.data.size = _
    rw [x.wellFormed_toTensor]
    rfl
  matmul_solutionFor a x := by
    have hproduct : a.toTensor.matmul ⟨[n], x.toTensor.data⟩ =
        if n = n then .ok ⟨[n], ((Mat.ofRowMajor a.toTensor.data : Mat α n n).mul
          (Mat.ofRowMajor x.toTensor.data : Mat α n 1)).toTensor.data⟩
        else .error .notAligned := rfl
    rw [if_pos rfl, Mat.ofRowMajor_toTensor, Mat.ofRowMajor_toTensor] at hproduct
    exact hproduct

theorem columns_matrix (hsize : xs.size = n * k) : Columns label ⟨[n, k], xs⟩ (Mat.ofRowMajor xs : Mat α n k) where
  rightSide_eq := if_pos rfl
  solutionFor_self := Mat.toTensor_ofRowMajor hsize
  shape_solutionFor _ := rfl
  wellFormed_solutionFor x := x.wellFormed_toTensor
  matmul_solutionFor a x := Tensor.matmul_toTensor a x

/-- Every right-hand side with one axis or two has columns. -/
theorem exists_columns {b : Tensor α} (hb : b.WellFormed) (hshape : b.shape = [n] ∨ ∃ k, 0 < k ∧ b.shape = [n, k]) :
    ∃ (k : Nat) (rhs : Mat α n k), 0 < k ∧ Columns label b rhs := by
  obtain ⟨shape, xs⟩ := b
  have hsize : xs.size = Shape.size shape := hb
  rcases hshape with hshape | ⟨k, hk, hshape⟩
  · obtain rfl : shape = [n] := hshape
    exact ⟨1, _, Nat.one_pos, columns_vector label (by simpa using hsize)⟩
  · obtain rfl : shape = [n, k] := hshape
    exact ⟨k, _, hk, columns_matrix label (by simpa using hsize)⟩

end

section

variable {α : Type} [Field α] [Numeric α] [Numeric.Exact α] {n : Nat} {a : Tensor α} (label : String)

theorem solve_singular (hshape : a.shape = [n, n]) {b : Tensor α} (hb : b.WellFormed)
    (hbshape : b.shape = [n] ∨ ∃ k, 0 < k ∧ b.shape = [n, k])
    (hdet : (Mat.ofRowMajor a.data : Mat α n n).toMatrix.det = 0) :
    solve label a b = .error (.evaluation (.singular label)) := by
  obtain ⟨k, rhs, hk, hcolumns⟩ := exists_columns (n := n) label hb hbshape
  rw [solve_of_shape label hshape hcolumns.rightSide_eq, (Mat.solve_eq _ hk rhs).1 hdet]
  rfl

/-- The solution of a regular system has the shape of the right-hand side, and the product with the matrix is the
    right-hand side. -/
theorem exists_solve_eq (ha : a.WellFormed) (hshape : a.shape = [n, n]) {b : Tensor α} (hb : b.WellFormed)
    (hbshape : b.shape = [n] ∨ ∃ k, 0 < k ∧ b.shape = [n, k])
    (hdet : (Mat.ofRowMajor a.data : Mat α n n).toMatrix.det ≠ 0) :
    ∃ x, solve label a b = .ok x ∧ x.WellFormed ∧ x.shape = b.shape ∧ a.matmul x = .ok b := by
  obtain ⟨k, rhs, hk, hcolumns⟩ := exists_columns (n := n) label hb hbshape
  obtain ⟨x, hx, hproduct⟩ := (Mat.solve_eq _ hk rhs).2 hdet
  have hsolve : solve label a b = .ok (solutionFor b x) := by
    rw [solve_of_shape label hshape hcolumns.rightSide_eq, hx]
    rfl
  have hmatmul : a.matmul (solutionFor b x) = .ok b := by
    calc a.matmul (solutionFor b x)
      _ = (Mat.ofRowMajor a.data : Mat α n n).toTensor.matmul (solutionFor b x) := by
          rw [ha.toTensor_ofRowMajor hshape]
      _ = .ok (solutionFor b ((Mat.ofRowMajor a.data : Mat α n n).mul x)) := hcolumns.matmul_solutionFor _ x
      _ = .ok b := by rw [hproduct, hcolumns.solutionFor_self]
  exact ⟨_, hsolve, hcolumns.wellFormed_solutionFor x, hcolumns.shape_solutionFor x, hmatmul⟩

theorem inverse_singular (hshape : a.shape = [n, n]) (hn : 0 < n)
    (hdet : (Mat.ofRowMajor a.data : Mat α n n).toMatrix.det = 0) :
    inverse label a = .error (.evaluation (.singular label)) := by
  rw [inverse_of_shape label hshape, (Mat.inverse_eq _ hn).1 hdet]
  rfl

/-- The inverse of a regular array, multiplied on either side, gives the identity. -/
theorem exists_inverse_eq (ha : a.WellFormed) (hshape : a.shape = [n, n]) (hn : 0 < n)
    (hdet : (Mat.ofRowMajor a.data : Mat α n n).toMatrix.det ≠ 0) :
    ∃ x, inverse label a = .ok x ∧ x.WellFormed ∧ x.shape = a.shape ∧
      a.matmul x = .ok (Mat.identity n : Mat α n n).toTensor ∧
      x.matmul a = .ok (Mat.identity n : Mat α n n).toTensor := by
  obtain ⟨x, hx, hvalue⟩ := (Mat.inverse_eq (Mat.ofRowMajor a.data : Mat α n n) hn).2 hdet
  have hunit := Ne.isUnit hdet
  have hinverse : inverse label a = .ok x.toTensor := by
    rw [inverse_of_shape label hshape, hx]
    rfl
  have hright : (Mat.ofRowMajor a.data : Mat α n n).mul x = Mat.identity n := by
    apply Mat.toMatrix_injective
    rw [Mat.toMatrix_mul, hvalue, Matrix.mul_nonsing_inv _ hunit, Mat.toMatrix_identity]
  have hleft : x.mul (Mat.ofRowMajor a.data : Mat α n n) = Mat.identity n := by
    apply Mat.toMatrix_injective
    rw [Mat.toMatrix_mul, hvalue, Matrix.nonsing_inv_mul _ hunit, Mat.toMatrix_identity]
  refine ⟨x.toTensor, hinverse, x.wellFormed_toTensor, hshape.symm, ?_, ?_⟩
  · rw [← hright, ← Tensor.matmul_toTensor, ha.toTensor_ofRowMajor hshape]
  · rw [← hleft, ← Tensor.matmul_toTensor, ha.toTensor_ofRowMajor hshape]

end

/-- Systems, inverses and determinants of arrays with exact numbers. The determinant is the true one for every size,
    whether by a closed formula or by elimination. Where it is zero, systems and inverses are refused; everywhere else a
    solution solves its system, and the inverse is one from both sides. -/
theorem solve_inverse_determinant {α : Type} [Field α] [Numeric α] [Numeric.Exact α] {n : Nat} {a : Tensor α}
    (ha : a.WellFormed) (hshape : a.shape = [n, n]) :
    ∃ d : α, d = (Mat.ofRowMajor a.data : Mat α n n).toMatrix.det ∧
      (∀ label, determinant label a = .ok d) ∧ (Mat.ofRowMajor a.data : Mat α n n).eliminate.determinant = d ∧
      (∀ (label : String) (b : Tensor α), b.WellFormed → (b.shape = [n] ∨ ∃ k, 0 < k ∧ b.shape = [n, k]) →
        (solve label a b = .error (.evaluation (.singular label)) ↔ d = 0) ∧
        (d ≠ 0 → ∃ x, solve label a b = .ok x ∧ x.WellFormed ∧ x.shape = b.shape ∧ a.matmul x = .ok b)) ∧
      (0 < n → ∀ label : String,
        (inverse label a = .error (.evaluation (.singular label)) ↔ d = 0) ∧
        (d ≠ 0 → ∃ x, inverse label a = .ok x ∧ x.WellFormed ∧ x.shape = a.shape ∧
          a.matmul x = .ok (Mat.identity n : Mat α n n).toTensor ∧
          x.matmul a = .ok (Mat.identity n : Mat α n n).toTensor)) ∧
      ∀ label : String, (EvaluationError.singular label).code = "MC_EVAL_NUMERIC" ∧
        (EvaluationError.singular label).message = label ++ ": Singular matrix" := by
  refine ⟨_, rfl, fun label => ?_, Mat.Elimination.determinant_eliminate _, fun label b hb hbshape => ?_,
    fun hn label => ?_, fun label => ⟨rfl, rfl⟩⟩
  · rw [determinant_of_shape label hshape, Mat.determinant_eq_det]
  · have hsolved := exists_solve_eq label ha hshape hb hbshape
    refine ⟨eq_error_iff_of_cases (solve_singular label hshape hb hbshape) fun hdet => ?_, hsolved⟩
    obtain ⟨x, hx, -⟩ := hsolved hdet
    exact ⟨x, hx⟩
  · have hinverse := exists_inverse_eq label ha hshape hn
    refine ⟨eq_error_iff_of_cases (inverse_singular label hshape hn) fun hdet => ?_, hinverse⟩
    obtain ⟨x, hx, -⟩ := hinverse hdet
    exact ⟨x, hx⟩

/-- A system whose first pivot is zero until rows change places, with one axis on the right. -/
theorem solve_inverse_determinant_swapped :
    let a : Tensor ℚ := ⟨[2, 2], #[0, 2, 1, 1]⟩
    let b : Tensor ℚ := ⟨[2], #[4, 3]⟩
    a.WellFormed ∧ a.shape = [2, 2] ∧ b.WellFormed ∧ b.shape = [2] ∧ determinant "det" a = .ok (-2) ∧
      ∃ x, solve "solve" a b = .ok x ∧ x.shape = [2] ∧ a.matmul x = .ok b := by
  intro a b
  have ha : a.WellFormed := by decide
  obtain ⟨d, hd, hdet, -, hsolve, -⟩ := solve_inverse_determinant ha (n := 2) rfl
  have hvalue : d = -2 := by
    rw [hd, Matrix.det_fin_two]
    decide +kernel
  obtain ⟨-, hsolved⟩ := hsolve "solve" b (by decide) (.inl rfl)
  obtain ⟨x, hx, -, hxshape, hproduct⟩ := hsolved (by rw [hvalue]; decide)
  exact ⟨ha, rfl, by decide, rfl, by rw [hdet, hvalue], x, hx, hxshape, hproduct⟩

end ArrayCalc
