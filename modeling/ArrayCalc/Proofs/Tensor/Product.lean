import ArrayCalc.Proofs.Eval.Operators

namespace ArrayCalc

variable {α : Type} {m n p : Nat} [Zero α]

theorem Mat.flat_toTensor (a : Mat α m n) {i j : Nat} (hi : i < m) (hj : j < n) :
    a.toTensor.flat (i * n + j) = a.get i j := by
  have hplace : i * n + j < Shape.size [m, n] := by
    simpa using Shape.pair_lt hi hj
  obtain ⟨hrow, hcol⟩ := Shape.div_mod_block hj i
  rw [toTensor, Tensor.flat_generate _ hplace, hrow, hcol]

/-- The rows of a matrix, put into one list, are read back as the matrix. -/
theorem Mat.ofRowMajor_toTensor (a : Mat α m n) : (ofRowMajor a.toTensor.data : Mat α m n) = a := by
  refine ext_get fun i j hi hj => ?_
  rw [ofRowMajor, get_ofFn _ hi hj]
  exact a.flat_toTensor hi hj

/-- A list of elements that fills a matrix is the list of its rows. -/
theorem Mat.toTensor_ofRowMajor {xs : Array α} (h : xs.size = m * n) :
    (ofRowMajor xs : Mat α m n).toTensor = ⟨[m, n], xs⟩ := by
  have hsize : Shape.size [m, n] = xs.size := by
    rw [Shape.size_pair, h]
  rw [toTensor]
  refine Tensor.generate_eq hsize.symm fun k hxs => ?_
  have hk : k < m * n := h ▸ hxs
  have hrow : k / n < m := Nat.div_lt_of_lt_mul (by rwa [Nat.mul_comm])
  have hcol : k % n < n := Nat.mod_lt k (Nat.pos_of_ne_zero fun hn => by simp [hn] at hk)
  have hentry : (ofRowMajor xs : Mat α m n).get (k / n) (k % n) = xs.getD k 0 := by
    rw [ofRowMajor, get_ofFn _ hrow hcol, Nat.div_add_mod']
  rw [hentry, Array.getD, dif_pos hxs]
  rfl

/-- A well-formed array with two axes is the array of the matrix that it holds. -/
theorem Tensor.WellFormed.toTensor_ofRowMajor {t : Tensor α} (h : t.WellFormed) (hshape : t.shape = [m, n]) :
    (Mat.ofRowMajor t.data : Mat α m n).toTensor = t := by
  obtain ⟨shape, data⟩ := t
  obtain rfl : shape = [m, n] := hshape
  apply Mat.toTensor_ofRowMajor
  rw [h, Shape.size_pair]

/-- The matrix that a transposed array with two axes holds. -/
theorem Tensor.ofRowMajor_data_transpose {t : Tensor α} (hshape : t.shape = [m, n]) :
    (Mat.ofRowMajor t.transpose.data : Mat α n m) = (Mat.ofRowMajor t.data : Mat α m n).transpose := by
  refine Mat.ext_get fun j i hj hi => ?_
  rw [Mat.get_transpose hj hi, Mat.ofRowMajor, Mat.ofRowMajor, Mat.get_ofFn _ hj hi, Mat.get_ofFn _ hi hj]
  exact flat_transpose hshape hi hj

/-- The array of a matrix, transposed, is the array of the transposed matrix. -/
theorem Tensor.transpose_toTensor (a : Mat α m n) : a.toTensor.transpose = a.transpose.toTensor := by
  have hshape : a.toTensor.transpose.shape = [n, m] := shape_transpose [] rfl
  rw [← a.wellFormed_toTensor.transpose.toTensor_ofRowMajor hshape, ofRowMajor_data_transpose rfl,
    Mat.ofRowMajor_toTensor]

/-- The product of the arrays of two matrices is the array of their product. -/
theorem Tensor.matmul_toTensor [Add α] [Mul α] (a : Mat α m n) (b : Mat α n p) :
    a.toTensor.matmul b.toTensor = .ok (a.mul b).toTensor := by
  have hproduct : a.toTensor.matmul b.toTensor =
      if n = n then .ok ⟨[m, p], ((Mat.ofRowMajor a.toTensor.data : Mat α m n).mul
        (Mat.ofRowMajor b.toTensor.data : Mat α n p)).toTensor.data⟩
      else .error .notAligned := rfl
  rw [hproduct, if_pos rfl, Mat.ofRowMajor_toTensor, Mat.ofRowMajor_toTensor]
  rfl

theorem Tensor.matmul_toTensor_of_ne [Add α] [Mul α] {k : Nat} (a : Mat α m n) (b : Mat α k p) (h : n ≠ k) :
    a.toTensor.matmul b.toTensor = .error .notAligned :=
  if_neg h

end ArrayCalc
