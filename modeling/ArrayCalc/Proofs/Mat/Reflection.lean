import ArrayCalc.Mat.QR
import ArrayCalc.Proofs.Mat.Orthonormal

namespace ArrayCalc.Mat

section

variable {α : Type} [Field α] {m n p : Nat}

/-- The vector that a column reflects by: its entries from the diagonal on. -/
def reflector (a : Mat α m n) (k : Nat) : Fin m → α :=
  fun i => if k ≤ i then a.get i k else 0

/-- The reflection by a column, scaled by the leading entry of its vector; if that is zero, it leaves all as it is. -/
def reflection (a : Mat α m n) (k : Nat) : Matrix (Fin m) (Fin m) α :=
  1 - (a.get k k)⁻¹ • Matrix.vecMulVec (a.reflector k) (a.reflector k)

theorem reflector_congr {a b : Mat α m n} {k : Nat} (h : ∀ i < m, a.get i k = b.get i k) :
    a.reflector k = b.reflector k := by
  ext i
  rw [reflector, reflector, h i i.isLt]

theorem reflection_congr {a b : Mat α m n} {k : Nat} (hk : k < m) (h : ∀ i < m, a.get i k = b.get i k) :
    a.reflection k = b.reflection k := by
  rw [reflection, reflection, reflector_congr h, h k hk]

/-- A product depends in each of its columns on one column of the second factor. -/
theorem mul_apply_congr {q : Nat} (a : Matrix (Fin m) (Fin n) α) {b : Matrix (Fin n) (Fin p) α}
    {c : Matrix (Fin n) (Fin q) α} {j : Fin p} {j' : Fin q} (h : ∀ r, b r j = c r j') (i : Fin m) :
    (a * b) i j = (a * c) i j' := by
  rw [Matrix.mul_apply, Matrix.mul_apply]
  exact Finset.sum_congr rfl fun r _ => by rw [h r]

theorem reflection_mul_apply (a : Mat α m n) (k : Nat) (b : Matrix (Fin m) (Fin p) α) (i : Fin m) (j : Fin p) :
    (a.reflection k * b) i j =
      b i j - (a.get k k)⁻¹ * (a.reflector k i * ∑ r, a.reflector k r * b r j) := by
  rw [reflection, Matrix.sub_mul, Matrix.one_mul, Matrix.smul_mul, Matrix.vecMulVec_mul, Matrix.sub_apply,
    Matrix.smul_apply, Matrix.vecMulVec_apply, smul_eq_mul]
  rfl

/-- A column that is zero from the diagonal of the reflection on stays. -/
theorem reflection_mul_of_zero (a : Mat α m n) {k : Nat} {b : Matrix (Fin m) (Fin p) α} {j : Fin p}
    (h : ∀ r : Fin m, k ≤ r → b r j = 0) (i : Fin m) : (a.reflection k * b) i j = b i j := by
  have hsum : ∑ r, a.reflector k r * b r j = 0 := by
    refine Finset.sum_eq_zero fun r _ => ?_
    by_cases hr : k ≤ r
    · rw [h r hr, mul_zero]
    · rw [reflector, if_neg hr, zero_mul]
  rw [reflection_mul_apply, hsum, mul_zero, mul_zero, sub_zero]

theorem transpose_reflection (a : Mat α m n) (k : Nat) : (a.reflection k).transpose = a.reflection k := by
  rw [reflection, Matrix.transpose_sub, Matrix.transpose_one, Matrix.transpose_smul, Matrix.transpose_vecMulVec]

/-- Reflecting twice changes nothing, if the leading entry is half the square of the vector. -/
theorem reflection_mul_reflection {a : Mat α m n} {k : Nat}
    (h : a.reflector k ⬝ᵥ a.reflector k = 2 * a.get k k) : a.reflection k * a.reflection k = 1 := by
  have hscale : (a.get k k)⁻¹ * (a.get k k)⁻¹ * (2 * a.get k k) = (a.get k k)⁻¹ + (a.get k k)⁻¹ := by
    by_cases hzero : a.get k k = 0
    · rw [hzero, inv_zero, mul_zero, zero_mul, add_zero]
    · field_simp
      norm_num
  have hsquare : Matrix.vecMulVec (a.reflector k) (a.reflector k) * Matrix.vecMulVec (a.reflector k) (a.reflector k) =
      (2 * a.get k k) • Matrix.vecMulVec (a.reflector k) (a.reflector k) := by
    rw [Matrix.vecMulVec_mul_vecMulVec, h, Matrix.vecMulVec_smul]
  rw [reflection]
  generalize Matrix.vecMulVec (a.reflector k) (a.reflector k) = v at hsquare
  calc (1 - (a.get k k)⁻¹ • v) * (1 - (a.get k k)⁻¹ • v)
    _ = 1 - (a.get k k)⁻¹ • v - (a.get k k)⁻¹ • v + ((a.get k k)⁻¹ * (a.get k k)⁻¹) • (v * v) := by
        rw [Matrix.sub_mul, Matrix.one_mul, Matrix.mul_sub, Matrix.mul_one, Matrix.smul_mul, Matrix.mul_smul, smul_smul]
        abel
    _ = 1 - (a.get k k)⁻¹ • v - (a.get k k)⁻¹ • v + ((a.get k k)⁻¹ + (a.get k k)⁻¹) • v := by
        rw [hsquare, smul_smul, hscale]
    _ = 1 := by
        rw [add_smul]
        abel

theorem sum_reflector_mul (a : Mat α m n) (k : Nat) (f : Nat → α) :
    ∑ r : Fin m, a.reflector k r * f r = ∑ r ∈ Finset.Ico k m, a.get r k * f r := by
  have hrange : ∑ r : Fin m, a.reflector k r * f r = ∑ r ∈ Finset.range m, if k ≤ r then a.get r k * f r else 0 := by
    rw [Finset.sum_range]
    refine Finset.sum_congr rfl fun r _ => ?_
    rw [reflector, ite_mul, zero_mul]
  rw [hrange, ← Finset.sum_filter]
  refine Finset.sum_congr ?_ fun _ _ => rfl
  ext r
  simp [and_comm]

/-- Reflecting the columns of a matrix from one on. -/
theorem get_reflectColumns (a b : Mat α m n) (k first : Nat) (i : Fin m) (j : Fin n) :
    (a.reflectColumns k b first).get i j = if first ≤ j then (a.reflection k * b.toMatrix) i j else b.get i j := by
  have hfactor : ((List.range n).toArray.map (a.reflectionFactor k b)).getD j 0 = a.reflectionFactor k b j := by
    simp [Array.getD]
  rw [reflectColumns, get_ofFn _ i.isLt j.isLt, hfactor, reflectionFactor, sumBetween_eq_sum]
  by_cases hj : first ≤ j
  · rw [if_pos hj, reflection_mul_apply]
    simp only [toMatrix_apply]
    rw [sum_reflector_mul a k fun r => b.get r j, reflector]
    by_cases hi : k ≤ i
    · rw [if_pos ⟨hj, hi⟩, if_pos hi]
      ring
    · rw [if_neg fun h => hi h.2, if_neg hi, zero_mul, mul_zero, sub_zero]
  · rw [if_neg fun h => hj h.1, if_neg hj]

end

section

variable {α : Type} [Field α] [LinearOrder α] [IsStrictOrderedRing α] [Numeric α] [Numeric.Rooted α]

theorem hypotenuse_spec (a b : α) : 0 ≤ hypotenuse a b ∧ hypotenuse a b * hypotenuse a b = a * a + b * b := by
  -- the leg by which the other is divided is the longer one
  have hscaled {x y : α} (hx : x ≠ 0) : 0 ≤ |x| * Numeric.sqrt (1 + y / x * (y / x)) ∧
      |x| * Numeric.sqrt (1 + y / x * (y / x)) * (|x| * Numeric.sqrt (1 + y / x * (y / x))) = x * x + y * y := by
    have hnonneg : 0 ≤ 1 + y / x * (y / x) := add_nonneg zero_le_one (mul_self_nonneg _)
    have hroot := Numeric.Rooted.sqrt_mul_sqrt _ hnonneg
    refine ⟨mul_nonneg (abs_nonneg x) (Numeric.Rooted.sqrt_nonneg _ hnonneg), ?_⟩
    rw [mul_mul_mul_comm, hroot, abs_mul_abs_self]
    field_simp
  rw [hypotenuse]
  split
  · rename_i hlt
    rw [Numeric.Ordered.lt_iff, Numeric.Ordered.abs_eq, Numeric.Ordered.abs_eq] at hlt
    rw [Numeric.Ordered.abs_eq]
    exact hscaled (abs_pos.mp ((abs_nonneg b).trans_lt hlt))
  · rename_i hnlt
    rw [Numeric.Ordered.lt_iff, Numeric.Ordered.abs_eq, Numeric.Ordered.abs_eq, not_lt] at hnlt
    split
    · rename_i hzero
      rw [Numeric.isZero, Numeric.Ordered.eq_iff] at hzero
      rw [hzero, abs_zero] at hnlt
      rw [hzero, abs_nonpos_iff.mp hnlt]
      simp
    · rename_i hne
      rw [Bool.not_eq_true, Numeric.isZero_eq_false_iff] at hne
      rw [Numeric.Ordered.abs_eq, add_comm (a * a)]
      exact hscaled hne

/-- The length of a vector is the root of the sum of its squares. -/
theorem length_spec (xs : List α) : 0 ≤ length xs ∧ length xs * length xs = (xs.map fun x => x * x).sum := by
  have hrun (xs : List α) (s : α) (hs : 0 ≤ s) :
      0 ≤ xs.foldl hypotenuse s ∧
        xs.foldl hypotenuse s * xs.foldl hypotenuse s = s * s + (xs.map fun x => x * x).sum := by
    induction xs generalizing s with
    | nil => exact ⟨hs, by rw [List.foldl_nil, List.map_nil, List.sum_nil, add_zero]⟩
    | cons x xs ih =>
      obtain ⟨hnonneg, hsquare⟩ := hypotenuse_spec s x
      obtain ⟨hnonneg', hsquare'⟩ := ih (hypotenuse s x) hnonneg
      exact ⟨hnonneg', by rw [List.foldl_cons, hsquare', hsquare, List.map_cons, List.sum_cons, add_assoc]⟩
  obtain ⟨hnonneg, hsquare⟩ := hrun xs 0 le_rfl
  exact ⟨hnonneg, by rw [length, hsquare, mul_zero, zero_add]⟩

end

section

variable {α : Type} [Field α] {m n : Nat}

/-- What one step makes of a matrix: the columns before stay, the vector that it stores reflects its own column onto an
    axis, and the later columns are reflected. -/
structure Reflected (a b : Mat α m n) (k : Nat) (norm : α) : Prop where
  before : ∀ i < m, ∀ j < k, b.get i j = a.get i j
  above : ∀ i < k, b.get i k = a.get i k
  unit : b.reflector k ⬝ᵥ b.reflector k = 2 * b.get k k
  column : ∀ (i : Fin m) (j : Fin n), (j : Nat) = k →
    (b.reflection k * a.toMatrix) i j = if (i : Nat) < k then a.get i k else if (i : Nat) = k then -norm else 0
  after : ∀ (i : Fin m) (j : Fin n), k < j → b.get i j = (b.reflection k * a.toMatrix) i j

theorem dotProduct_reflector (a : Mat α m n) (k : Nat) :
    a.reflector k ⬝ᵥ a.reflector k = ∑ r : Fin m, a.reflector k r * a.get r k := by
  refine Finset.sum_congr rfl fun r _ => ?_
  rw [reflector]
  split
  · rfl
  · rw [zero_mul, zero_mul]

/-- The square of the vector that a column holds from the diagonal on. -/
theorem sum_columnFrom (a : Mat α m n) (k : Nat) :
    ((a.columnFrom k k).map fun x => x * x).sum = a.reflector k ⬝ᵥ a.reflector k := by
  rw [dotProduct_reflector, sum_reflector_mul a k fun r => a.get r k, columnFrom, List.map_map]
  rfl

/-- A column that is zero from the diagonal on needs no reflection. -/
theorem reflected_of_zero {a : Mat α m n} {k : Nat} (hk : k < m) (hzero : ∀ i, k ≤ i → i < m → a.get i k = 0) :
    Reflected a a k 0 := by
  have hvector : a.reflector k = 0 := by
    ext i
    rw [reflector]
    split
    · rename_i hi
      exact hzero i hi i.isLt
    · rfl
  have hreflection : a.reflection k = 1 := by
    rw [reflection, hzero k (Nat.le_refl k) hk, inv_zero, zero_smul, sub_zero]
  refine ⟨fun _ _ _ _ => rfl, fun _ _ => rfl, ?_, fun i j hj => ?_, fun i j _ => ?_⟩
  · rw [hvector, zero_dotProduct, hzero k (Nat.le_refl k) hk, mul_zero]
  · rw [hreflection, Matrix.one_mul, toMatrix_apply, hj]
    split
    · rfl
    · rw [hzero i (by omega) i.isLt, neg_zero, ite_self]
  · rw [hreflection, Matrix.one_mul, toMatrix_apply]

/-- The column whose entries from the diagonal on are divided by a number, with one added to the first of them. -/
def scaledColumn (a : Mat α m n) (k : Nat) (norm : α) : Mat α m n :=
  ofFn fun i j =>
    if j = k ∧ k ≤ i then
      let x := a.get i k / norm
      if i = k then x + 1 else x
    else a.get i j

variable {a : Mat α m n} {k : Nat} {norm : α}

theorem reflector_scaledColumn (hk : k < m) (hkn : k < n) :
    (a.scaledColumn k norm).reflector k = norm⁻¹ • a.reflector k + Pi.single ⟨k, hk⟩ 1 := by
  ext i
  rw [reflector, Pi.add_apply, Pi.smul_apply, reflector, smul_eq_mul, Pi.single_apply]
  by_cases hi : k ≤ i
  · rw [if_pos hi, if_pos hi, scaledColumn, get_ofFn _ i.isLt hkn, if_pos ⟨rfl, hi⟩]
    dsimp only
    by_cases hik : (i : Nat) = k
    · rw [if_pos hik, if_pos (Fin.ext hik), div_eq_inv_mul]
    · rw [if_neg hik, if_neg fun h => hik (congrArg Fin.val h), div_eq_inv_mul, add_zero]
  · have hne : i ≠ ⟨k, hk⟩ := fun h => hi (congrArg Fin.val h).ge
    rw [if_neg hi, if_neg hi, if_neg hne, mul_zero, add_zero]

theorem get_scaledColumn {i j : Nat} (hi : i < m) (hj : j < n) (h : j = k → i < k) :
    (a.scaledColumn k norm).get i j = a.get i j := by
  rw [scaledColumn, get_ofFn _ hi hj, if_neg fun hk => absurd (h hk.1) (Nat.not_lt.mpr hk.2)]

theorem get_scaledColumn_self (hk : k < m) (hkn : k < n) :
    (a.scaledColumn k norm).get k k = norm⁻¹ * a.get k k + 1 := by
  rw [scaledColumn, get_ofFn _ hk hkn, if_pos ⟨rfl, Nat.le_refl k⟩, if_pos rfl, div_eq_inv_mul]

/-- The leading entry is half the square of the vector. -/
theorem dotProduct_reflector_scaledColumn (hk : k < m) (hkn : k < n) (hnorm : norm ≠ 0)
    (hsquare : norm * norm = a.reflector k ⬝ᵥ a.reflector k) :
    (a.scaledColumn k norm).reflector k ⬝ᵥ (a.scaledColumn k norm).reflector k =
      2 * (a.scaledColumn k norm).get k k := by
  have hentry : a.reflector k ⟨k, hk⟩ = a.get k k := if_pos (Nat.le_refl k)
  rw [reflector_scaledColumn hk hkn, get_scaledColumn_self hk hkn]
  simp only [add_dotProduct, dotProduct_add, smul_dotProduct, dotProduct_smul, dotProduct_single, single_dotProduct,
    smul_eq_mul, Pi.add_apply, Pi.smul_apply, Pi.single_eq_same, hentry, ← hsquare]
  field_simp
  ring

/-- The vector is carried over to the axis of the diagonal. -/
theorem reflection_scaledColumn_mul (hk : k < m) (hkn : k < n) (hnorm : norm ≠ 0)
    (hsquare : norm * norm = a.reflector k ⬝ᵥ a.reflector k) (hlead : (a.scaledColumn k norm).get k k ≠ 0)
    (i : Fin m) {j : Fin n} (hj : (j : Nat) = k) :
    ((a.scaledColumn k norm).reflection k * a.toMatrix) i j =
      if (i : Nat) < k then a.get i k else if (i : Nat) = k then -norm else 0 := by
  subst hj
  have hvector : (a.scaledColumn j norm).reflector j = norm⁻¹ • a.reflector j + Pi.single ⟨j, hk⟩ 1 :=
    reflector_scaledColumn hk hkn
  have hvalue : (a.scaledColumn j norm).get j j = norm⁻¹ * a.get j j + 1 := get_scaledColumn_self hk hkn
  have hshare : ∑ r, (a.scaledColumn j norm).reflector j r * a.toMatrix r j =
      norm * (a.scaledColumn j norm).get j j := by
    have hsum : (a.scaledColumn j norm).reflector j ⬝ᵥ (fun r => a.toMatrix r j) =
        norm⁻¹ * (a.reflector j ⬝ᵥ a.reflector j) + a.get j j := by
      rw [hvector, add_dotProduct, smul_dotProduct, single_dotProduct, one_mul, dotProduct_reflector]
      rfl
    rw [dotProduct] at hsum
    rw [hsum, ← hsquare, hvalue]
    field_simp
    ring
  rw [reflection_mul_apply, hshare, toMatrix_apply, hvector, Pi.add_apply, Pi.smul_apply, reflector, smul_eq_mul,
    Pi.single_apply]
  rcases Nat.lt_trichotomy i j with hlt | heq | hgt
  · rw [if_neg (by omega), if_neg fun h => hlt.ne (congrArg Fin.val h), if_pos hlt, mul_zero, add_zero, zero_mul,
      mul_zero, sub_zero]
  · rw [if_pos (by omega), if_pos (Fin.ext heq), if_neg (by omega), if_pos heq, heq, ← hvalue,
      inv_mul_cancel_left₀ hlead, hvalue]
    field_simp
    ring
  · rw [if_pos (by omega), if_neg fun h => hgt.ne' (congrArg Fin.val h), if_neg (by omega), if_neg (by omega)]
    field_simp
    ring

/-- A vector whose length is known, made to reflect itself, and the later columns with it. -/
theorem reflected_scaledColumn (hk : k < m) (hkn : k < n) (hnorm : norm ≠ 0)
    (hsquare : norm * norm = a.reflector k ⬝ᵥ a.reflector k) (hlead : (a.scaledColumn k norm).get k k ≠ 0) :
    Reflected a ((a.scaledColumn k norm).reflectColumns k (a.scaledColumn k norm) (k + 1)) k norm := by
  have hget (i : Fin m) (j : Fin n) := get_reflectColumns (a.scaledColumn k norm) (a.scaledColumn k norm) k (k + 1) i j
  have hfirst {i j : Nat} (hi : i < m) (hj : j < n) (hjk : j ≤ k) :
      ((a.scaledColumn k norm).reflectColumns k (a.scaledColumn k norm) (k + 1)).get i j =
        (a.scaledColumn k norm).get i j :=
    (hget ⟨i, hi⟩ ⟨j, hj⟩).trans (if_neg (Nat.not_le.mpr (Nat.lt_succ_of_le hjk)))
  have hcolumn : ∀ i < m, ((a.scaledColumn k norm).reflectColumns k (a.scaledColumn k norm) (k + 1)).get i k =
      (a.scaledColumn k norm).get i k := fun i hi => hfirst hi hkn (Nat.le_refl k)
  refine ⟨fun i hi j hj => ?_, fun i hi => ?_, ?_, fun i j hj => ?_, fun i j hj => ?_⟩
  · rw [hfirst hi (by omega) (by omega), get_scaledColumn hi (by omega) fun h => absurd h (by omega)]
  · rw [hfirst (by omega) hkn (Nat.le_refl k), get_scaledColumn (by omega) hkn fun _ => hi]
  · rw [reflector_congr hcolumn, hcolumn k hk]
    exact dotProduct_reflector_scaledColumn hk hkn hnorm hsquare
  · rw [reflection_congr hk hcolumn]
    exact reflection_scaledColumn_mul hk hkn hnorm hsquare hlead i hj
  · rw [hget, if_pos (Nat.succ_le_of_lt hj), reflection_congr hk hcolumn]
    exact mul_apply_congr _ (fun r => get_scaledColumn r.isLt j.isLt fun h => absurd h (by omega)) i

end

section

variable {α : Type} [Field α] [LinearOrder α] [IsStrictOrderedRing α] [Numeric α] [Numeric.Rooted α] {m n : Nat}

/-- One Householder step. -/
theorem reflected_reflect (a : Mat α m n) {k : Nat} (hk : k < m) (hkn : k < n) :
    Reflected a (a.reflect k).1 k (a.reflect k).2 := by
  obtain ⟨hnonneg, hsquare⟩ := length_spec (a.columnFrom k k)
  rw [sum_columnFrom] at hsquare
  rw [reflect]
  dsimp only
  generalize length (a.columnFrom k k) = norm at hnonneg hsquare
  split
  · rename_i hzero
    rw [Numeric.isZero, Numeric.Ordered.eq_iff] at hzero
    subst hzero
    apply reflected_of_zero hk
    intro i hi him
    have hvector := dotProduct_self_eq_zero.mp (hsquare.symm.trans (mul_zero 0))
    have hentry := congrFun hvector ⟨i, him⟩
    rwa [reflector, if_pos hi] at hentry
  · rename_i hne
    rw [Bool.not_eq_true, Numeric.isZero_eq_false_iff] at hne
    -- the length takes the sign of the leading entry, so that one is added to a quotient that is not negative
    obtain ⟨signed, hsigned, hnorm, hsquare, hquotient⟩ :
        ∃ signed, (if Numeric.lt (a.get k k) 0 then -norm else norm) = signed ∧ signed ≠ 0 ∧
          signed * signed = a.reflector k ⬝ᵥ a.reflector k ∧ 0 ≤ signed⁻¹ * a.get k k := by
      split
      · rename_i hneg
        rw [Numeric.Ordered.lt_iff] at hneg
        exact ⟨-norm, rfl, neg_ne_zero.mpr hne, by rw [neg_mul_neg, hsquare],
          mul_nonneg_of_nonpos_of_nonpos (inv_nonpos.mpr (neg_nonpos.mpr hnonneg)) hneg.le⟩
      · rename_i hpos
        rw [Numeric.Ordered.lt_iff, not_lt] at hpos
        exact ⟨norm, rfl, hne, hsquare, mul_nonneg (inv_nonneg.mpr hnonneg) hpos⟩
    rw [hsigned]
    refine reflected_scaledColumn hk hkn hnorm hsquare ?_
    rw [get_scaledColumn_self hk hkn]
    exact (add_pos_of_nonneg_of_pos hquotient one_pos).ne'

end

end ArrayCalc.Mat
