import ArrayCalc.Proofs.Eval.LinearSystem
import ArrayCalc.Proofs.Mat.Cholesky
import ArrayCalc.Proofs.Mat.Orthogonal

namespace ArrayCalc

section

variable {α : Type} [Zero α] [Add α] [Mul α] [Div α] [Numeric α] {m n : Nat} {t : Tensor α} (label : String)

theorem orthogonalFactors_of_shape [One α] [Neg α] (hshape : t.shape = [m, n]) :
    orthogonalFactors label t =
      match (Mat.ofRowMajor t.data : Mat α m n).qr? with
      | some ⟨_, q, r⟩ => .ok (q.toTensor, r.toTensor)
      | none => .error (.fault .noLeadingBlock) := by
  have hmat : t.toMat label = .ok ⟨m, n, .ofRowMajor t.data⟩ := by
    rw [Tensor.toMat, hshape]
  rw [orthogonalFactors, hmat]
  rfl

theorem cholesky_of_shape [Sub α] (hshape : t.shape = [n, n]) :
    cholesky label t =
      if (Mat.ofRowMajor t.data : Mat α n n).isSymmetric = false then .error (.evaluation (.notSymmetric label))
      else
        match (Mat.ofRowMajor t.data : Mat α n n).cholesky? with
        | some l => .ok l.toTensor
        | none => .error (.evaluation (.notPositiveDefinite label)) := by
  rw [cholesky, Tensor.toSquare_of_shape label hshape]
  rfl

end

variable {α : Type} [Field α] [LinearOrder α] [IsStrictOrderedRing α] [Numeric α] [Numeric.Rooted α]

/-- The reduced factors of an array that is not wide or has rows. Their inner size is the smaller one of the array; the
    columns of the first are orthonormal, the second is zero below its diagonal, and their product is the array. -/
theorem orthogonalFactors_spec {m n : Nat} {t : Tensor α} (ht : t.WellFormed) (hshape : t.shape = [m, n])
    (hsize : n ≤ m ∨ 1 ≤ m) (label : String) :
    ∃ (q : Mat α m (min m n)) (r : Mat α (min m n) n), orthogonalFactors label t = .ok (q.toTensor, r.toTensor) ∧
      q.OrthonormalColumns (min m n) ∧ (∀ i < min m n, ∀ j < i, r.get i j = 0) ∧
      q.toTensor.matmul r.toTensor = .ok t := by
  obtain ⟨q, r, hfactors, horthogonal⟩ := Mat.exists_qr? (Mat.ofRowMajor t.data : Mat α m n) hsize
  refine ⟨q, r, ?_, horthogonal.orthonormal, horthogonal.upper, ?_⟩
  · rw [orthogonalFactors_of_shape label hshape, hfactors]
  · rw [Tensor.matmul_toTensor, horthogonal.product, ht.toTensor_ofRowMajor hshape]

/-- A wide array whose leading block is singular. -/
theorem orthogonalFactors_spec_wide :
    let t : Tensor ℝ := ⟨[2, 3], #[0, 1, 2, 0, 1, 3]⟩
    t.WellFormed ∧ t.shape = [2, 3] ∧
      ∃ (q : Mat ℝ 2 2) (r : Mat ℝ 2 3), orthogonalFactors "qr" t = .ok (q.toTensor, r.toTensor) ∧
        q.OrthonormalColumns 2 ∧ r.get 1 0 = 0 ∧ q.toTensor.matmul r.toTensor = .ok t := by
  intro t
  have ht : t.WellFormed := rfl
  obtain ⟨q, r, hfactors, hq, hr, hproduct⟩ := orthogonalFactors_spec ht (m := 2) (n := 3) rfl (.inr (by decide)) "qr"
  exact ⟨ht, rfl, q, r, hfactors, hq, hr 1 (by decide) 0 (by decide), hproduct⟩

/-- How the lower factor of an array comes out: without symmetry or without definiteness it is refused. -/
theorem cholesky_cases {n : Nat} {t : Tensor α} (hshape : t.shape = [n, n]) (label : String) :
    ¬ (Mat.ofRowMajor t.data : Mat α n n).toMatrix.IsSymm ∧
        cholesky label t = .error (.evaluation (.notSymmetric label)) ∨
      (Mat.ofRowMajor t.data : Mat α n n).toMatrix.IsSymm ∧
        ((∃ l, cholesky label t = .ok l.toTensor ∧ Mat.LowerFactor (Mat.ofRowMajor t.data : Mat α n n) l ∧
            Mat.Definite (Mat.ofRowMajor t.data : Mat α n n).toMatrix) ∨
          cholesky label t = .error (.evaluation (.notPositiveDefinite label)) ∧
            ¬ Mat.Definite (Mat.ofRowMajor t.data : Mat α n n).toMatrix) := by
  rw [cholesky_of_shape label hshape]
  generalize (Mat.ofRowMajor t.data : Mat α n n) = a
  by_cases hsymmetric : a.isSymmetric = false
  · rw [if_pos hsymmetric]
    refine .inl ⟨fun h => ?_, rfl⟩
    rw [← Mat.isSymmetric_eq_true_iff, hsymmetric] at h
    exact absurd h Bool.false_ne_true
  · have h := a.isSymmetric_eq_true_iff.mp (Bool.eq_true_of_not_eq_false hsymmetric)
    rw [if_neg hsymmetric]
    refine .inr ⟨h, ?_⟩
    rcases a.cholesky?_eq h with ⟨l, hl, hfactor, hdefinite⟩ | ⟨hnone, hindefinite⟩
    · exact .inl ⟨l, by rw [hl], hfactor, hdefinite⟩
    · exact .inr ⟨by rw [hnone], hindefinite⟩

/-- The lower factor of a square array. There is one if and only if the array is symmetric and definite, and its product
    with its transpose is the array; what is refused is refused for the symmetry only if that is missing. -/
theorem cholesky_spec {n : Nat} {t : Tensor α} (ht : t.WellFormed) (hshape : t.shape = [n, n]) (label : String) :
    ∃ a : Matrix (Fin n) (Fin n) α, a = (Mat.ofRowMajor t.data : Mat α n n).toMatrix ∧
      ((∃ u, cholesky label t = .ok u) ↔ a.IsSymm ∧ ∀ x : Fin n → α, x ≠ 0 → 0 < x ⬝ᵥ a.mulVec x) ∧
      (∀ u, cholesky label t = .ok u → ∃ l : Mat α n n, u = l.toTensor ∧ (∀ i < n, 0 < l.get i i) ∧
        (∀ i < n, ∀ j < n, i < j → l.get i j = 0) ∧ u.matmul u.transpose = .ok t) ∧
      (∀ e, cholesky label t = .error e →
        ¬ a.IsSymm ∧ e = .evaluation (.notSymmetric label) ∨ a.IsSymm ∧ e = .evaluation (.notPositiveDefinite label)) ∧
      (EvaluationError.notSymmetric label).code = "MC_EVAL_NUMERIC" ∧
      (EvaluationError.notSymmetric label).message = label ++ ": Matrix is not symmetric" ∧
      (EvaluationError.notPositiveDefinite label).code = "MC_EVAL_NUMERIC" ∧
      (EvaluationError.notPositiveDefinite label).message = label ++ ": Matrix is not positive definite" := by
  refine ⟨_, rfl, ?_⟩
  rcases cholesky_cases hshape label with
    ⟨hsymmetric, hresult⟩ | ⟨hsymmetric, ⟨l, hresult, hfactor, hdefinite⟩ | ⟨hresult, hindefinite⟩⟩
  · rw [hresult]
    refine ⟨⟨nofun, fun h => absurd h.1 hsymmetric⟩, nofun, fun e he => .inl ⟨hsymmetric, ?_⟩, rfl, rfl, rfl, rfl⟩
    exact (Except.error.inj he).symm
  · rw [hresult]
    refine ⟨⟨fun _ => ⟨hsymmetric, hdefinite⟩, fun _ => ⟨_, rfl⟩⟩, fun u hu => ?_, nofun, rfl, rfl, rfl, rfl⟩
    obtain rfl := Except.ok.inj hu
    refine ⟨l, rfl, hfactor.diagonal, hfactor.lower, ?_⟩
    rw [Tensor.transpose_toTensor, Tensor.matmul_toTensor, hfactor.product, ht.toTensor_ofRowMajor hshape]
  · rw [hresult]
    refine ⟨⟨nofun, fun h => absurd h.2 hindefinite⟩, nofun, fun e he => .inr ⟨hsymmetric, ?_⟩, rfl, rfl, rfl, rfl⟩
    exact (Except.error.inj he).symm

/-- A definite array, whose form is `(2x + y)² + 2y²`. -/
theorem cholesky_spec_definite :
    let t : Tensor ℝ := ⟨[2, 2], #[4, 2, 2, 3]⟩
    t.WellFormed ∧ t.shape = [2, 2] ∧
      ∃ l : Mat ℝ 2 2, cholesky "cholesky" t = .ok l.toTensor ∧ 0 < l.get 0 0 ∧ l.get 0 1 = 0 ∧ 0 < l.get 1 1 ∧
        l.toTensor.matmul l.toTensor.transpose = .ok t := by
  intro t
  have ht : t.WellFormed := rfl
  obtain ⟨a, ha, hsuccess, hfactor, -⟩ := cholesky_spec ht (n := 2) rfl "cholesky"
  have hentries : a = !![4, 2; 2, 3] := by
    rw [ha]
    ext i j
    fin_cases i <;> fin_cases j <;> rfl
  have hsymmetric : a.IsSymm := by
    rw [hentries]
    ext i j
    fin_cases i <;> fin_cases j <;> rfl
  have hdefinite : ∀ x : Fin 2 → ℝ, x ≠ 0 → 0 < x ⬝ᵥ a.mulVec x := by
    intro x hx
    have hform : x ⬝ᵥ a.mulVec x = (2 * x 0 + x 1) ^ 2 + 2 * x 1 ^ 2 := by
      simp [hentries, Matrix.mulVec, dotProduct, Fin.sum_univ_two]
      ring
    rw [hform]
    by_cases hy : x 1 = 0
    · have hx0 : x 0 ≠ 0 := fun hzero => hx (funext (Fin.forall_fin_two.mpr ⟨hzero, hy⟩))
      rw [hy]
      linarith [sq_pos_of_ne_zero hx0]
    · positivity
  obtain ⟨u, hu⟩ := hsuccess.mpr ⟨hsymmetric, hdefinite⟩
  obtain ⟨l, rfl, hdiagonal, hlower, hproduct⟩ := hfactor u hu
  exact ⟨ht, rfl, l, hu, hdiagonal 0 (by decide), hlower 0 (by decide) 1 (by decide) (by decide),
    hdiagonal 1 (by decide), hproduct⟩

end ArrayCalc
