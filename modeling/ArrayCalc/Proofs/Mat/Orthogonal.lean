import ArrayCalc.Proofs.Mat.Reflection

namespace ArrayCalc.Mat

section

variable {α : Type} [Field α] {m n : Nat}

/-- The reflections by some columns, one after the other from the right. -/
def turns (a : Mat α m n) (ks : List Nat) : Matrix (Fin m) (Fin m) α :=
  (ks.map a.reflection).prod

variable (a : Mat α m n)

theorem turns_cons (k : Nat) (ks : List Nat) : a.turns (k :: ks) = a.reflection k * a.turns ks := by
  rw [turns, turns, List.map_cons, List.prod_cons]

theorem turns_concat (ks : List Nat) (k : Nat) : a.turns (ks ++ [k]) = a.turns ks * a.reflection k := by
  rw [turns, turns, List.map_append, List.prod_append, List.map_singleton, List.prod_singleton]

/-- Reflections are orthogonal, and so is what they make up. -/
theorem transpose_turns_mul {ks : List Nat} (h : ∀ k ∈ ks, a.reflector k ⬝ᵥ a.reflector k = 2 * a.get k k) :
    (a.turns ks).transpose * a.turns ks = 1 := by
  induction ks with
  | nil => rw [turns, List.map_nil, List.prod_nil, Matrix.transpose_one, Matrix.one_mul]
  | cons k ks ih =>
    have hself := reflection_mul_reflection (h k List.mem_cons_self)
    rw [turns_cons, Matrix.transpose_mul, transpose_reflection, Matrix.mul_assoc,
      ← Matrix.mul_assoc (a.reflection k) (a.reflection k), hself, Matrix.one_mul]
    exact ih fun k' hk' => h k' (List.mem_cons_of_mem k hk')

/-- Reflections by later columns leave the axes before them. -/
theorem turns_apply_of_lt {ks : List Nat} {j : Fin m} (h : ∀ k ∈ ks, (j : Nat) < k) (i : Fin m) :
    a.turns ks i j = (1 : Matrix (Fin m) (Fin m) α) i j := by
  induction ks generalizing i with
  | nil => rw [turns, List.map_nil, List.prod_nil]
  | cons k ks ih =>
    have hlater := ih fun k' hk' => h k' (List.mem_cons_of_mem k hk')
    rw [turns_cons, reflection_mul_of_zero, hlater]
    intro r hr
    have hne : r ≠ j := fun hrj => absurd (h k List.mem_cons_self) (by rw [← hrj]; omega)
    rw [hlater, Matrix.one_apply_ne hne]

end

namespace Reflections

section

variable {α : Type} [Field α] {m n : Nat}

/-- The matrix whose first columns are turned into the upper factor; the others are still as the reflections make
    them. -/
def current (r : Reflections α m n) (done : Nat) : Matrix (Fin m) (Fin n) α :=
  .of fun i j =>
    if (j : Nat) < done then
      if (i : Nat) < j then r.vectors.get i j else if (i : Nat) = j then r.diagonal.getD j 0 else 0
    else r.vectors.get i j

/-- A matrix of which the first columns are turned onto the axes. -/
structure Turned (a : Mat α m n) (done : Nat) (r : Reflections α m n) : Prop where
  length_diagonal : r.diagonal.length = done
  unit : ∀ k < done, r.vectors.reflector k ⬝ᵥ r.vectors.reflector k = 2 * r.vectors.get k k
  product : r.vectors.turns (List.range done) * r.current done = a.toMatrix

variable {a : Mat α m n} {k : Nat} {r : Reflections α m n} {b : Mat α m n} {norm : α}

/-- Reflecting turns the next column onto its axis, and keeps those before it. -/
theorem current_step (hkm : k < m) (hlength : r.diagonal.length = k) (h : Reflected r.vectors b k norm) :
    current ⟨b, r.diagonal ++ [-norm]⟩ (k + 1) = b.reflection k * r.current k := by
  ext i j
  have hcolumn (hj : k ≤ j) : (b.reflection k * r.current k) i j = (b.reflection k * r.vectors.toMatrix) i j :=
    mul_apply_congr _ (fun r => if_neg (Nat.not_lt.mpr hj)) i
  rcases Nat.lt_trichotomy j k with hlt | heq | hgt
  · have hzero : ∀ r' : Fin m, k ≤ r' → r.current k r' j = 0 := fun r' hr' => by
      simp only [current, Matrix.of_apply, if_pos hlt, if_neg (show ¬ (r' : Nat) < j by omega),
        if_neg (show ¬ (r' : Nat) = j by omega)]
    rw [reflection_mul_of_zero _ hzero]
    simp only [current, Matrix.of_apply, if_pos hlt, if_pos (Nat.lt_succ_of_lt hlt), h.before i i.isLt j hlt,
      List.getD_append _ _ _ _ (show (j : Nat) < r.diagonal.length by omega)]
  · subst heq
    have hlast : (r.diagonal ++ [-norm]).getD j 0 = -norm := by
      rw [List.getD_append_right _ _ _ _ hlength.le, hlength, Nat.sub_self, List.getD_cons_zero]
    rw [hcolumn (Nat.le_refl j), h.column i j rfl]
    simp only [current, Matrix.of_apply, if_pos (Nat.lt_succ_self (j : Nat)), hlast]
    split
    · rename_i hij
      exact h.above i hij
    · rfl
  · rw [hcolumn hgt.le, ← h.after i j hgt]
    simp only [current, Matrix.of_apply, if_neg (show ¬ (j : Nat) < k + 1 by omega)]

theorem Turned.step (h : Turned a k r) (hkm : k < m) (hreflected : Reflected r.vectors b k norm) :
    Turned a (k + 1) ⟨b, r.diagonal ++ [-norm]⟩ := by
  have hvector {j : Nat} (hj : j < k) : b.reflector j = r.vectors.reflector j :=
    reflector_congr fun i hi => hreflected.before i hi j hj
  have hunit : ∀ j < k + 1, b.reflector j ⬝ᵥ b.reflector j = 2 * b.get j j := by
    intro j hj
    rcases Nat.lt_succ_iff_lt_or_eq.mp hj with hlt | rfl
    · rw [hvector hlt, hreflected.before j (by omega) j hlt]
      exact h.unit j hlt
    · exact hreflected.unit
  have hturns : b.turns (List.range k) = r.vectors.turns (List.range k) := by
    rw [turns, turns]
    refine congrArg List.prod (List.map_congr_left fun j hj => ?_)
    have hj := List.mem_range.mp hj
    exact reflection_congr (by omega) fun i hi => hreflected.before i hi j hj
  refine ⟨by rw [List.length_append, h.length_diagonal, List.length_singleton], hunit, ?_⟩
  rw [List.range_succ, turns_concat, current_step hkm h.length_diagonal hreflected, Matrix.mul_assoc,
    ← Matrix.mul_assoc (b.reflection k) (b.reflection k), reflection_mul_reflection hreflected.unit, Matrix.one_mul,
    hturns]
  exact h.product

/-- Putting back one reflection. Where the leading entry is zero, there is none. -/
theorem get_unfold [Numeric α] [Numeric.Exact α] (r : Reflections α m n) (x : Mat α m n) (k : Nat) (i : Fin m)
    {j : Fin n} (hj : k ≤ j) {t : Matrix (Fin m) (Fin m) α} {j' : Fin m}
    (h : ∀ i' : Fin m, (if (j : Nat) = k then if (i' : Nat) = k then 1 else 0 else x.get i' j) = t i' j') :
    (r.unfold x k).get i j = (r.vectors.reflection k * t) i j' := by
  have hstart (i' : Fin m) :
      (ofFn fun i j => if j = k then if i = k then 1 else 0 else x.get i j : Mat α m n).get i' j = t i' j' :=
    (get_ofFn _ i'.isLt j.isLt).trans (h i')
  rw [unfold]
  split
  · rename_i hzero
    rw [Numeric.isZero, Numeric.Exact.eq_iff] at hzero
    rw [reflection, hzero, inv_zero, zero_smul, sub_zero, Matrix.one_mul]
    exact hstart i
  · rw [get_reflectColumns, if_pos hj]
    exact mul_apply_congr _ hstart i

/-- The orthogonal factor consists of the first columns of what the reflections make up. -/
theorem get_orthogonal [Numeric α] [Numeric.Exact α] (r : Reflections α m n) (hmn : n ≤ m) (i : Fin m) (j : Fin n) :
    r.orthogonal.get i j = r.vectors.turns (List.range n) i (j.castLE hmn) := by
  have hrun (len start : Nat) (hstart : start + len = n) (i : Fin m) (j : Fin n) (hj : start ≤ j) :
      ((List.range' start len).foldr (fun k x => r.unfold x k) (ofFn fun _ _ => 0)).get i j =
        r.vectors.turns (List.range' start len) i (j.castLE hmn) := by
    induction len generalizing start i j with
    | zero => exact absurd j.isLt (by omega)
    | succ len ih =>
      rw [List.range'_succ, List.foldr_cons, turns_cons]
      apply r.get_unfold _ _ _ hj
      intro i'
      split
      · rename_i hfirst
        have hlater : ∀ k ∈ List.range' (start + 1) len, (j.castLE hmn : Nat) < k := fun k hk => by
          have hk := (List.mem_range'_1.mp hk).1
          have hj' : (j.castLE hmn : Nat) = j := rfl
          omega
        rw [turns_apply_of_lt _ hlater, Matrix.one_apply]
        refine if_congr ?_ rfl rfl
        rw [Fin.ext_iff, Fin.val_castLE, hfirst]
      · exact ih (start + 1) (by omega) i' j (by omega)
  have hall := hrun n 0 (Nat.zero_add n) i j (Nat.zero_le _)
  rwa [← List.range_eq_range'] at hall

theorem toMatrix_orthogonal [Numeric α] [Numeric.Exact α] (r : Reflections α m n) (hmn : n ≤ m) :
    r.orthogonal.toMatrix = (r.vectors.turns (List.range n)).submatrix id (Fin.castLE hmn) := by
  ext i j
  exact r.get_orthogonal hmn i j

/-- Below the upper factor there are only zeros. -/
theorem current_eq_upper (r : Reflections α m n) (i : Fin m) (j : Fin n) :
    r.current n i j = if (i : Nat) < n then r.upper.get i j else 0 := by
  simp only [current, Matrix.of_apply, if_pos j.isLt]
  split
  · rename_i hij
    rw [if_pos (by omega), upper, get_ofFn _ (by omega) j.isLt, if_pos hij]
  · split
    · rename_i hne hij
      rw [if_pos (by omega), upper, get_ofFn _ (by omega) j.isLt, if_neg hne, if_pos hij, hij]
    · rename_i hnlt hne
      split
      · rename_i hi
        rw [upper, get_ofFn _ hi j.isLt, if_neg hnlt, if_neg hne]
      · rfl

/-- The zeros below the upper factor take no part in the product. -/
theorem orthogonal_mul_upper [Numeric α] [Numeric.Exact α] (r : Reflections α m n) (hmn : n ≤ m) :
    r.orthogonal.toMatrix * r.upper.toMatrix = r.vectors.turns (List.range n) * r.current n := by
  ext i j
  rw [r.toMatrix_orthogonal hmn, Matrix.mul_apply, Matrix.mul_apply]
  refine Fintype.sum_of_injective (Fin.castLE hmn) (Fin.castLE_injective hmn) _ _ (fun k hk => ?_) fun k => ?_
  · rw [Fin.range_castLE, Set.mem_ofPred_eq] at hk
    rw [current_eq_upper, if_neg hk, mul_zero]
  · rw [current_eq_upper, Fin.val_castLE, if_pos k.isLt]
    rfl

end

section

variable {α : Type} [Field α] [LinearOrder α] [IsStrictOrderedRing α] [Numeric α] [Numeric.Rooted α] {m n : Nat}

/-- All columns of a matrix that is not wide are turned. -/
theorem turned_reflections (a : Mat α m n) (hmn : n ≤ m) : Turned a n a.reflections := by
  have hstart : Turned a 0 ⟨a, []⟩ := by
    refine ⟨rfl, fun k hk => absurd hk (Nat.not_lt_zero k), ?_⟩
    rw [List.range_zero, turns, List.map_nil, List.prod_nil, Matrix.one_mul]
    ext i j
    simp [current]
  have hrun (done : Nat) (hdone : done ≤ n) : Turned a done ((List.range done).foldl
      (fun r k => ⟨(r.vectors.reflect k).1, r.diagonal ++ [-(r.vectors.reflect k).2]⟩) ⟨a, []⟩) := by
    induction done with
    | zero => exact hstart
    | succ done ih =>
      rw [List.range_succ, List.foldl_concat]
      exact (ih (by omega)).step (by omega) (reflected_reflect _ (by omega) (by omega))
  exact hrun n (Nat.le_refl n)

end

end Reflections

section

variable {α : Type} [Field α] [LinearOrder α] [IsStrictOrderedRing α] [Numeric α] [Numeric.Rooted α] {m n : Nat}

/-- What the two factors of a matrix are to be. -/
structure OrthogonalFactors {k : Nat} (a : Mat α m n) (q : Mat α m k) (r : Mat α k n) : Prop where
  orthonormal : q.OrthonormalColumns k
  upper : ∀ i < k, ∀ j < i, r.get i j = 0
  product : q.mul r = a

/-- The factors of a matrix that is not wide, singular or not. -/
theorem orthogonalFactors_qrTall (a : Mat α m n) (hmn : n ≤ m) : OrthogonalFactors a a.qrTall.1 a.qrTall.2 := by
  have hturned := Reflections.turned_reflections a hmn
  refine ⟨?_, fun i hi j hj => ?_, toMatrix_injective ?_⟩
  · have hturns := transpose_turns_mul _ fun k hk => hturned.unit k (List.mem_range.mp hk)
    have hcolumns := Reflections.toMatrix_orthogonal a.reflections hmn
    generalize a.reflections.vectors.turns (List.range n) = turns at hturns hcolumns
    rw [orthonormalColumns_iff]
    calc a.reflections.orthogonal.toMatrix.transpose * a.reflections.orthogonal.toMatrix
      _ = (turns.transpose * turns).submatrix (Fin.castLE hmn) (Fin.castLE hmn) := by
          rw [hcolumns]
          rfl
      _ = 1 := by rw [hturns, Matrix.submatrix_one _ (Fin.castLE_injective hmn)]
  · exact (get_ofFn _ hi (by omega)).trans (by rw [if_neg (by omega), if_neg (by omega)])
  · rw [toMatrix_mul, ← hturned.product]
    exact Reflections.orthogonal_mul_upper _ hmn

/-- The factors of a wide matrix: the orthogonal factor of the leading block is square, so that its transpose is its
    inverse, and the columns of that block make the other factor upper triangular. -/
theorem orthogonalFactors_qrWide (a : Mat α m n) (hmn : m < n) : OrthogonalFactors a a.qrWide.1 a.qrWide.2 := by
  have hlead := orthogonalFactors_qrTall (a.leading m) (Nat.le_refl m)
  have hleft := orthonormalColumns_iff.mp hlead.orthonormal
  have hfactor : a.qrWide.2.toMatrix = a.qrWide.1.toMatrix.transpose * a.toMatrix := by
    rw [← toMatrix_transpose, ← toMatrix_mul]
    rfl
  have hblock : (a.leading m).qrTall.2.toMatrix = a.qrWide.1.toMatrix.transpose * (a.leading m).toMatrix := by
    have hproduct : a.qrWide.1.toMatrix * (a.leading m).qrTall.2.toMatrix = (a.leading m).toMatrix := by
      rw [← toMatrix_mul]
      exact congrArg toMatrix hlead.product
    rw [← hproduct, ← Matrix.mul_assoc]
    exact (Matrix.one_mul _).symm.trans (by rw [← hleft]; rfl)
  refine ⟨hlead.orthonormal, fun i hi j hj => ?_, toMatrix_injective ?_⟩
  · have hjm : j < m := by omega
    have hentry (r : Fin m) : a.toMatrix r ⟨j, hjm.trans hmn⟩ = (a.leading m).toMatrix r ⟨j, hjm⟩ := by
      rw [toMatrix_apply, toMatrix_apply, leading, get_ofFn _ r.isLt hjm]
    calc a.qrWide.2.get i j
      _ = (a.qrWide.1.toMatrix.transpose * a.toMatrix) ⟨i, hi⟩ ⟨j, hjm.trans hmn⟩ := by
          rw [← hfactor]
          rfl
      _ = (a.leading m).qrTall.2.toMatrix ⟨i, hi⟩ ⟨j, hjm⟩ := by
          rw [hblock]
          exact mul_apply_congr _ hentry _
      _ = 0 := hlead.upper i hi j hj
  · rw [toMatrix_mul, hfactor, ← Matrix.mul_assoc]
    exact (congrArg (· * a.toMatrix) (mul_eq_one_comm.mp hleft)).trans (Matrix.one_mul _)

/-- Every matrix but a wide one without rows has factors, with as many columns as it has rows or columns at least. -/
theorem exists_qr? (a : Mat α m n) (hsize : n ≤ m ∨ 1 ≤ m) :
    ∃ (q : Mat α m (min m n)) (r : Mat α (min m n) n), a.qr? = some ⟨min m n, q, r⟩ ∧ OrthogonalFactors a q r := by
  rcases Nat.lt_or_ge m n with hwide | htall
  · rw [Nat.min_eq_left hwide.le]
    refine ⟨a.qrWide.1, a.qrWide.2, ?_, orthogonalFactors_qrWide a hwide⟩
    rw [qr?, if_neg (by omega), if_neg (by omega)]
  · rw [Nat.min_eq_right htall]
    exact ⟨a.qrTall.1, a.qrTall.2, if_pos htall, orthogonalFactors_qrTall a htall⟩

end

end ArrayCalc.Mat
