import ArrayCalc.Proofs.Tensor.Promotion

namespace ArrayCalc

namespace Mat

variable {α : Type} {m k n : Nat} [Zero α]

/-- The transposed product is the product of the transposed factors in the other order, term by term and in the same order
    of summation. -/
theorem transpose_mul [Add α] [Mul α] (hmul : ∀ x y : α, x * y = y * x) (a : Mat α m k) (b : Mat α k n) :
    (a.mul b).transpose = b.transpose.mul a.transpose := by
  refine ext_get fun j i hj hi => ?_
  rw [get_transpose hj hi, mul, mul, get_ofFn _ hi hj, get_ofFn _ hj hi]
  -- Nothing is said about addition, so the sums have to agree step by step.
  refine List.foldl_ext _ _ 0 fun sum q hq => ?_
  have hq : q < k := by
    rw [List.mem_range'_1] at hq
    omega
  change sum + a.get i q * b.get q j = sum + b.transpose.get j q * a.transpose.get q i
  rw [get_transpose hj hq, get_transpose hq hi, hmul]

/-- A list of elements read as one row is the transpose of the list read as one column. -/
theorem ofRowMajor_swap (xs : Array α) (h : m = 1 ∨ n = 1) :
    (ofRowMajor xs : Mat α n m) = (ofRowMajor xs : Mat α m n).transpose := by
  refine ext_get fun j i hj hi => ?_
  rw [get_transpose hj hi, ofRowMajor, ofRowMajor, get_ofFn _ hj hi, get_ofFn _ hi hj]
  rcases h with rfl | rfl
  · obtain rfl : i = 0 := by omega
    rw [Nat.mul_one, Nat.add_zero, Nat.zero_mul, Nat.zero_add]
  · obtain rfl : j = 0 := by omega
    rw [Nat.mul_one, Nat.add_zero, Nat.zero_mul, Nat.zero_add]

theorem data_toTensor_transpose (a : Mat α m n) (h : m = 1 ∨ n = 1) : a.transpose.toTensor.data = a.toTensor.data := by
  have hsize : a.toTensor.data.size = n * m := by
    rw [a.wellFormed_toTensor]
    simp [toTensor, Nat.mul_comm]
  have hswap := ofRowMajor_swap (m := m) (n := n) a.toTensor.data h
  rw [ofRowMajor_toTensor] at hswap
  rw [← hswap, toTensor_ofRowMajor hsize]

end Mat

namespace Tensor

variable {α : Type} [Zero α]

/-- A left operand, transposed, is a right operand that holds the transposed matrix. -/
theorem asColumn_transpose {t : Tensor α} {m k : Nat} (h : t.shape.asRow = [m, k]) :
    t.transpose.shape.asColumn = [k, m] ∧
      (Mat.ofRowMajor t.transpose.data : Mat α k m) = (Mat.ofRowMajor t.data : Mat α m k).transpose := by
  rcases Shape.asRow_eq_pair_iff.mp h with hshape | ⟨hshape, rfl⟩
  · exact ⟨Shape.asColumn_eq_pair_iff.mpr (.inl (shape_transpose [] hshape)), ofRowMajor_data_transpose hshape⟩
  · rw [transpose_of_rank_lt (by simp [rank, hshape]), hshape]
    exact ⟨rfl, Mat.ofRowMajor_swap t.data (.inl rfl)⟩

/-- A right operand, transposed, is a left operand that holds the transposed matrix. -/
theorem asRow_transpose {t : Tensor α} {k n : Nat} (h : t.shape.asColumn = [k, n]) :
    t.transpose.shape.asRow = [n, k] ∧
      (Mat.ofRowMajor t.transpose.data : Mat α n k) = (Mat.ofRowMajor t.data : Mat α k n).transpose := by
  rcases Shape.asColumn_eq_pair_iff.mp h with hshape | ⟨hshape, rfl⟩
  · exact ⟨Shape.asRow_eq_pair_iff.mpr (.inl (shape_transpose [] hshape)), ofRowMajor_data_transpose hshape⟩
  · rw [transpose_of_rank_lt (by simp [rank, hshape]), hshape]
    exact ⟨rfl, Mat.ofRowMajor_swap t.data (.inr rfl)⟩

/-- The elements of a product in its final shape, transposed, are those of the transposed matrix in the final shape of the
    product of the transposed operands. -/
theorem transpose_mk_product {a b : Tensor α} {m k n : Nat} (hrow : a.shape.asRow = [m, k])
    (hcolumn : b.shape.asColumn = [k, n]) (p : Mat α m n) :
    (⟨a.shape.dropLast ++ b.shape.tail, p.toTensor.data⟩ : Tensor α).transpose =
      ⟨b.transpose.shape.dropLast ++ a.transpose.shape.tail, p.transpose.toTensor.data⟩ := by
  have hranka : a.rank = 1 ∨ a.rank = 2 := (Shape.exists_asRow_iff.mp ⟨m, hrow⟩).1
  have hrankb : b.rank = 1 ∨ b.rank = 2 := (Shape.exists_asColumn_iff.mp ⟨n, hcolumn⟩).1
  rw [shape_transpose_eq_reverse hranka, shape_transpose_eq_reverse hrankb]
  -- Where an operand has one axis the product is a single row or column, and there is nothing to swap.
  rcases Shape.asRow_eq_pair_iff.mp hrow with ha | ⟨ha, hm⟩ <;>
    rcases Shape.asColumn_eq_pair_iff.mp hcolumn with hb | ⟨hb, hn⟩ <;> rw [ha, hb]
  · exact transpose_toTensor p
  · rw [Mat.data_toTensor_transpose p (.inr hn)]
    rfl
  · rw [Mat.data_toTensor_transpose p (.inl hm)]
    rfl
  · rw [Mat.data_toTensor_transpose p (.inl hm)]
    rfl

variable [Add α] [Mul α]

theorem exists_matmul_transpose_iff {a b : Tensor α} :
    (∃ t, b.transpose.matmul a.transpose = .ok t) ↔ ∃ t, a.matmul b = .ok t := by
  rw [exists_matmul_eq_ok_iff, exists_matmul_eq_ok_iff, rank_transpose, rank_transpose]
  constructor
  · rintro ⟨hb, ha, halign⟩
    rw [shape_transpose_eq_reverse ha, shape_transpose_eq_reverse hb, List.getLast?_reverse, List.head?_reverse] at halign
    exact ⟨ha, hb, halign.symm⟩
  · rintro ⟨ha, hb, halign⟩
    rw [shape_transpose_eq_reverse ha, shape_transpose_eq_reverse hb, List.getLast?_reverse, List.head?_reverse]
    exact ⟨hb, ha, halign.symm⟩

/-- A product, transposed, is the product of the transposed operands in the other order, for operands with one axis too. Of
    the arithmetic of the elements nothing but the commutative law of multiplication is used. -/
theorem matmul_transpose (hmul : ∀ x y : α, x * y = y * x) {a b t : Tensor α} (h : a.matmul b = .ok t) :
    b.transpose.matmul a.transpose = .ok t.transpose := by
  obtain ⟨m, k, n, hrow, hcolumn, rfl⟩ := matmul_eq_ok_iff.mp h
  obtain ⟨hright, hrightMat⟩ := asColumn_transpose hrow
  obtain ⟨hleft, hleftMat⟩ := asRow_transpose hcolumn
  have hproduct : matrixProduct b.transpose a.transpose n k m = (matrixProduct a b m k n).transpose := by
    rw [matrixProduct, hrightMat, hleftMat, matrixProduct, Mat.transpose_mul hmul]
  refine matmul_eq_ok_iff.mpr ⟨n, k, m, hleft, hright, ?_⟩
  rw [hproduct]
  exact transpose_mk_product hrow hcolumn _

end Tensor

end ArrayCalc
