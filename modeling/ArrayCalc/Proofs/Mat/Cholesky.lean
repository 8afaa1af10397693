import ArrayCalc.Mat.Cholesky
import ArrayCalc.Proofs.Mat.Elimination
import ArrayCalc.Proofs.Mat.Orthonormal

namespace ArrayCalc.Mat

section

variable {α : Type} [Field α] {n p : Nat}

/-- The form of a matrix that is a factor times weights times the transposed factor is a weighted sum of squares. -/
theorem dotProduct_weighted (l : Matrix (Fin p) (Fin p) α) (weight x : Fin p → α) :
    x ⬝ᵥ (l * Matrix.diagonal weight * l.transpose).mulVec x =
      ∑ k, weight k * (Matrix.vecMul x l k * Matrix.vecMul x l k) := by
  have hform : x ⬝ᵥ (l * Matrix.diagonal weight * l.transpose).mulVec x =
      Matrix.vecMul x l ⬝ᵥ (Matrix.diagonal weight).mulVec (Matrix.vecMul x l) := by
    rw [Matrix.mul_assoc, ← Matrix.mulVec_mulVec, ← Matrix.mulVec_mulVec, Matrix.mulVec_transpose,
      Matrix.dotProduct_mulVec]
  rw [hform]
  refine Finset.sum_congr rfl fun k _ => ?_
  rw [Matrix.mulVec_diagonal, mul_left_comm]

theorem extend_dotProduct {e : Fin p → Fin n} (he : Function.Injective e) (y : Fin p → α) (v : Fin n → α) :
    Function.extend e y 0 ⬝ᵥ v = y ⬝ᵥ v ∘ e := by
  refine (Fintype.sum_of_injective e he _ _ (fun i hi => ?_) fun i => ?_).symm
  · rw [Function.extend_apply' _ _ _ hi, Pi.zero_apply, zero_mul]
  · rw [he.extend_apply, Function.comp_apply]

variable [LinearOrder α]

/-- The quadratic form of a matrix is positive at every vector but zero. -/
def Definite (a : Matrix (Fin n) (Fin n) α) : Prop :=
  ∀ x : Fin n → α, x ≠ 0 → 0 < x ⬝ᵥ a.mulVec x

/-- What is taken from a definite matrix by leaving out axes is definite. -/
theorem Definite.submatrix {a : Matrix (Fin n) (Fin n) α} (h : Definite a) {e : Fin p → Fin n}
    (he : Function.Injective e) : Definite (a.submatrix e e) := by
  intro y hy
  have hne : Function.extend e y 0 ≠ 0 := fun hzero => hy (funext fun i => by
    have hi := congrFun hzero (e i)
    rwa [he.extend_apply] at hi)
  have hrows : a.mulVec (Function.extend e y 0) ∘ e = (a.submatrix e e).mulVec y := funext fun i => by
    have hrow := extend_dotProduct he y (a (e i))
    rw [dotProduct_comm, dotProduct_comm y] at hrow
    exact hrow
  have hpos := h _ hne
  rwa [extend_dotProduct he, hrows] at hpos

variable [IsStrictOrderedRing α]

/-- If the factor is regular, it is the weights that decide. -/
theorem definite_weighted_iff {l : Matrix (Fin p) (Fin p) α} (hdet : l.det ≠ 0) {weight : Fin p → α} :
    Definite (l * Matrix.diagonal weight * l.transpose) ↔ ∀ k, 0 < weight k := by
  constructor
  · intro h k
    -- the vector that the factor takes to the axis of this weight
    have hx : Matrix.vecMul (Matrix.vecMul (Pi.single k 1) l⁻¹) l = Pi.single k 1 := by
      rw [Matrix.vecMul_vecMul, Matrix.nonsing_inv_mul l (Ne.isUnit hdet), Matrix.vecMul_one]
    have hne : Matrix.vecMul (Pi.single k 1) l⁻¹ ≠ 0 := by
      intro hzero
      rw [hzero, Matrix.zero_vecMul] at hx
      exact one_ne_zero (Pi.single_eq_zero_iff.mp hx.symm)
    have hpos := h _ hne
    rw [dotProduct_weighted, hx, Fintype.sum_eq_single k fun i hi => by rw [Pi.single_eq_of_ne hi, mul_zero, mul_zero],
      Pi.single_eq_same, mul_one, mul_one] at hpos
    exact hpos
  · intro h x hx
    have hne : Matrix.vecMul x l ≠ 0 := fun hzero => hx (Matrix.eq_zero_of_vecMul_eq_zero hdet hzero)
    obtain ⟨k, hk⟩ := Function.ne_iff.mp hne
    rw [dotProduct_weighted]
    exact Finset.sum_pos' (fun i _ => mul_nonneg (h i).le (mul_self_nonneg _))
      ⟨k, Finset.mem_univ k, mul_pos (h k) (mul_self_pos.mpr hk)⟩

end

section

variable {α : Type} [Field α] {n : Nat}

/-- An entry of a matrix that is held by its rows; what they lack is zero. -/
def entry (rows : Array (Array α)) (i k : Nat) : α :=
  (rows.getD i #[]).getD k 0

theorem entry_push_of_lt {rows : Array (Array α)} {i : Nat} (hi : i < rows.size) (row : Array α) (k : Nat) :
    entry (rows.push row) i k = entry rows i k := by
  rw [entry, getD_push, if_neg hi.ne, entry]

theorem entry_push_self (rows : Array (Array α)) (row : Array α) (k : Nat) :
    entry (rows.push row) rows.size k = row.getD k 0 := by
  rw [entry, getD_push, if_pos rfl]

/-- Each entry of a new row is what its product with one of the rows above asks for. -/
theorem choleskyRow_spec (a : Mat α n n) {rows : Array (Array α)} {j : Nat} (h : ∀ k < j, entry rows k k ≠ 0) :
    (a.choleskyRow rows j).size = j ∧
      ∀ k < j, ∑ i ∈ Finset.range (k + 1), (a.choleskyRow rows j).getD i 0 * entry rows k i = a.get j k := by
  obtain ⟨hsize, hitems⟩ := foldl_push
    (g := fun row k => (a.get j k - sumBetween 0 k fun i => entry rows k i * row.getD i 0) / entry rows k k)
    (fun xs ys k hsame => by
      rw [sumBetween_eq_sum, sumBetween_eq_sum, Finset.sum_congr rfl fun i hi => ?_]
      rw [hsame i (Finset.mem_Ico.mp hi).2]) j
  have hrow : a.choleskyRow rows j = (List.range j).foldl (fun row k => row.push
      ((a.get j k - sumBetween 0 k fun i => entry rows k i * row.getD i 0) / entry rows k k)) #[] := rfl
  rw [← hrow] at hsize hitems
  refine ⟨hsize, fun k hk => ?_⟩
  have hitem := hitems k hk
  rw [sumBetween_eq_sum, ← Finset.range_eq_Ico] at hitem
  rw [Finset.sum_range_succ, hitem, div_mul_cancel₀ _ (h k hk), Finset.sum_congr rfl fun i _ => mul_comm _ _,
    add_sub_cancel]

theorem sum_add_diagonalRest (a : Mat α n n) (row : Array α) (j : Nat) :
    ∑ k ∈ Finset.range j, row.getD k 0 * row.getD k 0 + a.diagonalRest row j = a.get j j := by
  rw [diagonalRest, sumBetween_eq_sum, ← Finset.range_eq_Ico, add_sub_cancel]

end

section

variable {α : Type} [Field α] [LinearOrder α] {n : Nat}

/-- The leading block of a matrix as the product of the rows of a lower triangular matrix, of weights, and of the same
    rows again. -/
structure Factored (a : Mat α n n) (weight : Nat → α) (done : Nat) (rows : Array (Array α)) : Prop where
  size_rows : rows.size = done
  diagonal : ∀ i < done, 0 < entry rows i i
  lower : ∀ i < done, ∀ k, i < k → entry rows i k = 0
  product : ∀ i < done, ∀ j ≤ i, ∑ k ∈ Finset.range (j + 1), weight k * (entry rows i k * entry rows j k) = a.get i j

variable {a : Mat α n n} {weight : Nat → α} {j : Nat} {rows : Array (Array α)}

/-- With any diagonal entry, the next row makes the block larger by one; what it lacks on the diagonal is the weight. -/
theorem Factored.push (h : Factored a 1 j rows) {x : α} (hx : 0 < x) (hweight : ∀ k < j, weight k = 1)
    (hlast : weight j * (x * x) = a.diagonalRest (a.choleskyRow rows j) j) :
    Factored a weight (j + 1) (rows.push ((a.choleskyRow rows j).push x)) := by
  obtain ⟨hsize, hitems⟩ := a.choleskyRow_spec fun k hk => (h.diagonal k hk).ne'
  generalize a.choleskyRow rows j = row at hlast hsize hitems
  obtain rfl := h.size_rows
  have hold {i : Nat} (hi : i < rows.size) (k : Nat) := entry_push_of_lt hi (row.push x) k
  have hnew (k : Nat) : entry (rows.push (row.push x)) rows.size k = if k = rows.size then x else row.getD k 0 := by
    rw [entry_push_self, getD_push, hsize]
  refine ⟨Array.size_push _, fun i hi => ?_, fun i hi k hik => ?_, fun i hi j hj => ?_⟩
  · rcases Nat.lt_succ_iff_lt_or_eq.mp hi with hlt | rfl
    · rw [hold hlt]
      exact h.diagonal i hlt
    · rw [hnew, if_pos rfl]
      exact hx
  · rcases Nat.lt_succ_iff_lt_or_eq.mp hi with hlt | rfl
    · rw [hold hlt, h.lower i hlt k hik]
    · rw [hnew, if_neg hik.ne', Array.getD_eq_getD_getElem?, Array.getElem?_eq_none (by omega), Option.getD_none]
  · rcases Nat.lt_succ_iff_lt_or_eq.mp hi with hlt | rfl
    · rw [← h.product i hlt j hj]
      refine Finset.sum_congr rfl fun k hk => ?_
      have hk := Finset.mem_range.mp hk
      rw [hold hlt, hold (by omega), hweight k (by omega), Pi.one_apply]
    · rcases Nat.lt_or_eq_of_le hj with hlt | rfl
      · rw [← hitems j hlt]
        refine Finset.sum_congr rfl fun k hk => ?_
        have hk := Finset.mem_range.mp hk
        rw [hnew, if_neg (by omega), hold hlt, hweight k (by omega), one_mul]
      · rw [Finset.sum_range_succ, hnew, if_pos rfl, hlast, ← a.sum_add_diagonalRest row]
        refine congrArg (· + _) (Finset.sum_congr rfl fun k hk => ?_)
        have hk := Finset.mem_range.mp hk
        rw [hnew, if_neg hk.ne, hweight k hk, one_mul]

/-- The lower triangular matrix that the rows hold. -/
def factor (p : Nat) (rows : Array (Array α)) : Matrix (Fin p) (Fin p) α :=
  .of fun i k => entry rows i k

theorem Factored.det_ne_zero [IsStrictOrderedRing α] (h : Factored a weight j rows) : (factor j rows).det ≠ 0 := by
  have hlower : (factor j rows).IsLowerTriangular := fun (i k : Fin j) hik => h.lower i i.isLt k hik
  rw [Matrix.det_of_isLowerTriangular _ hlower]
  exact (Finset.prod_pos fun (i : Fin j) _ => h.diagonal i i.isLt).ne'

/-- The block that the rows are for, if the matrix is symmetric. -/
theorem Factored.block_eq (h : Factored a weight j rows) (hjn : j ≤ n) (hsymmetric : a.toMatrix.IsSymm) :
    a.toMatrix.submatrix (Fin.castLE hjn) (Fin.castLE hjn) =
      factor j rows * Matrix.diagonal (fun k : Fin j => weight k) * (factor j rows).transpose := by
  have hentry (i k : Fin j) :
      (factor j rows * Matrix.diagonal (fun k : Fin j => weight k) * (factor j rows).transpose) i k =
        ∑ l : Fin j, weight l * (entry rows i l * entry rows k l) := by
    rw [Matrix.mul_apply]
    refine Finset.sum_congr rfl fun l _ => ?_
    rw [Matrix.mul_diagonal, Matrix.transpose_apply, mul_right_comm, mul_comm]
    rfl
  -- entries past the diagonal of the upper of the two rows are zero
  have hbelow {i k : Fin j} (hki : k ≤ i) : ∑ l : Fin j, weight l * (entry rows i l * entry rows k l) = a.get i k := by
    rw [← h.product i i.isLt k hki, ← Finset.sum_range fun l => weight l * (entry rows i l * entry rows k l)]
    refine (Finset.sum_subset (Finset.range_subset_range.mpr k.isLt) fun l hl hpast => ?_).symm
    rw [Finset.mem_range] at hl hpast
    rw [h.lower k k.isLt l (by omega), mul_zero, mul_zero]
  ext i k
  rw [hentry]
  rcases le_total k i with hki | hik
  · exact (hbelow hki).symm
  · rw [Finset.sum_congr rfl fun l _ => by rw [mul_comm (entry rows i l)], hbelow hik]
    exact hsymmetric.apply _ _

/-- Rows with a weight that is not positive show that the matrix is not definite. -/
theorem Factored.not_definite [IsStrictOrderedRing α] (h : Factored a weight (j + 1) rows) (hjn : j < n)
    (hsymmetric : a.toMatrix.IsSymm) (hweight : weight j ≤ 0) : ¬ Definite a.toMatrix := by
  intro hdefinite
  have hblock := hdefinite.submatrix (Fin.castLE_injective (Nat.succ_le_of_lt hjn))
  rw [h.block_eq hjn hsymmetric, definite_weighted_iff h.det_ne_zero] at hblock
  exact absurd (hblock (Fin.last j)) (not_lt.mpr hweight)

/-- A lower triangular matrix with a positive diagonal whose product with its transpose is another one. -/
structure LowerFactor (a l : Mat α n n) : Prop where
  diagonal : ∀ i < n, 0 < l.get i i
  lower : ∀ i < n, ∀ j < n, i < j → l.get i j = 0
  product : l.mul l.transpose = a

/-- Rows for the whole matrix, without weights, are its factor, and the matrix is definite. -/
theorem Factored.lowerFactor [IsStrictOrderedRing α] (h : Factored a 1 n rows) (hsymmetric : a.toMatrix.IsSymm) :
    LowerFactor a (ofFn (entry rows)) ∧ Definite a.toMatrix := by
  have hwhole : a.toMatrix = factor n rows * Matrix.diagonal (fun _ : Fin n => 1) * (factor n rows).transpose :=
    h.block_eq (Nat.le_refl n) hsymmetric
  have hfactor : (ofFn (entry rows) : Mat α n n).toMatrix = factor n rows := by
    ext i j
    exact get_ofFn _ i.isLt j.isLt
  refine ⟨⟨fun i hi => ?_, fun i hi j hj hij => ?_, toMatrix_injective ?_⟩, ?_⟩
  · rw [get_ofFn _ hi hi]
    exact h.diagonal i hi
  · rw [get_ofFn _ hi hj, h.lower i hi j hij]
  · rw [toMatrix_mul, toMatrix_transpose, hfactor, hwhole, Matrix.diagonal_one, Matrix.mul_one]
  · rw [hwhole, definite_weighted_iff h.det_ne_zero]
    exact fun _ => one_pos

end

section

variable {α : Type} [Field α] [LinearOrder α] [IsStrictOrderedRing α] [Numeric α] [Numeric.Rooted α] {n : Nat}
  {a : Mat α n n} {j : Nat}

omit [IsStrictOrderedRing α] in
theorem Factored.push_sqrt {rows : Array (Array α)} (h : Factored a 1 j rows) {d : α}
    (hd : a.diagonalRest (a.choleskyRow rows j) j = d) (hpos : 0 < d) :
    Factored a 1 (j + 1) (rows.push ((a.choleskyRow rows j).push (Numeric.sqrt d))) := by
  have hroot := Numeric.Rooted.sqrt_mul_sqrt d hpos.le
  have hne : Numeric.sqrt d ≠ 0 := fun hzero => hpos.ne' (by rw [← hroot, hzero, mul_zero])
  refine h.push ((Numeric.Rooted.sqrt_nonneg d hpos.le).lt_of_ne' hne) (fun _ _ => rfl) ?_
  rw [Pi.one_apply, one_mul, hroot, hd]

/-- The rows so far are those of the factor, or a weight that is not positive has been met; rows after that one mean
    nothing. -/
def Decided (a : Mat α n n) (done : Nat) (f : CholeskyRows α) : Prop :=
  f.isPositive = true ∧ Factored a 1 done f.rows ∨
    f.isPositive = false ∧ ∃ j < done, ∃ rows weight, Factored a weight (j + 1) rows ∧ weight j ≤ 0

theorem Decided.step {f : CholeskyRows α} (h : Decided a j f) : Decided a (j + 1) (a.choleskyStep f j) := by
  rw [choleskyStep]
  generalize hd : a.diagonalRest (a.choleskyRow f.rows j) j = d
  rcases h with ⟨hpositive, hfactored⟩ | ⟨hnot, i, hi, hweight⟩
  · rcases lt_or_ge 0 d with hpos | hneg
    · have hlt : Numeric.lt d 0 = false := by
        rw [← Bool.not_eq_true, Numeric.Ordered.lt_iff]
        exact hpos.not_gt
      refine .inl ⟨by rw [hpositive, Bool.true_and, Numeric.Ordered.lt_iff]; exact hpos, ?_⟩
      rw [hlt, if_neg Bool.false_ne_true]
      exact hfactored.push_sqrt hd hpos
    · have hlt : Numeric.lt 0 d = false := by
        rw [← Bool.not_eq_true, Numeric.Ordered.lt_iff]
        exact hneg.not_gt
      -- with one on the diagonal, what is left of the entry is the weight
      refine .inr ⟨by rw [hlt, Bool.and_false], j, Nat.lt_succ_self j, _, Function.update 1 j d,
        hfactored.push one_pos (fun k hk => ?_) ?_, ?_⟩
      · rw [Function.update_of_ne hk.ne, Pi.one_apply]
      · rw [Function.update_self, mul_one, mul_one, hd]
      · rwa [Function.update_self]
  · exact .inr ⟨by rw [hnot, Bool.false_and], i, Nat.lt_succ_of_lt hi, hweight⟩

theorem decided_choleskyRows (a : Mat α n n) : Decided a n a.choleskyRows := by
  have hrun (done : Nat) : Decided a done ((List.range done).foldl a.choleskyStep ⟨#[], true⟩) := by
    induction done with
    | zero => exact .inl ⟨rfl, rfl, nofun, nofun, nofun⟩
    | succ done ih =>
      rw [List.range_succ, List.foldl_concat]
      exact ih.step
  exact hrun n

/-- A symmetric matrix has a factor where it is definite, and nowhere else. -/
theorem cholesky?_eq (a : Mat α n n) (hsymmetric : a.toMatrix.IsSymm) :
    (∃ l, a.cholesky? = some l ∧ LowerFactor a l ∧ Definite a.toMatrix) ∨
      a.cholesky? = none ∧ ¬ Definite a.toMatrix := by
  rcases a.decided_choleskyRows with ⟨hpositive, hfactored⟩ | ⟨hnot, j, hj, rows, weight, hfactored, hweight⟩
  · obtain ⟨hfactor, hdefinite⟩ := hfactored.lowerFactor hsymmetric
    exact .inl ⟨_, if_pos hpositive, hfactor, hdefinite⟩
  · exact .inr ⟨if_neg (by rw [hnot]; exact Bool.false_ne_true), hfactored.not_definite hj hsymmetric hweight⟩

end

end ArrayCalc.Mat
