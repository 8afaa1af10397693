import ArrayCalc.Mat.Basis
import ArrayCalc.Proofs.Mat.Orthonormal

namespace ArrayCalc.Mat

section

variable {α : Type} [Field α] {m : Nat}

/-- What is left of a vector when the share of each of the others is taken off in turn. -/
def remainder (vectors : List (Fin m → α)) (v : Fin m → α) : Fin m → α :=
  vectors.foldl (fun v q => v - (v ⬝ᵥ q) • q) v

/-- Vectors of length one that are orthogonal to each other. -/
structure Orthonormal (vectors : List (Fin m → α)) : Prop where
  unit : ∀ q ∈ vectors, q ⬝ᵥ q = 1
  orthogonal : vectors.Pairwise fun p q => p ⬝ᵥ q = 0

variable {vectors : List (Fin m → α)}

theorem Orthonormal.tail {q : Fin m → α} (h : Orthonormal (q :: vectors)) : Orthonormal vectors :=
  ⟨fun p hp => h.unit p (List.mem_cons_of_mem q hp), h.orthogonal.of_cons⟩

theorem Orthonormal.head {q : Fin m → α} (h : Orthonormal (q :: vectors)) : ∀ p ∈ vectors, q ⬝ᵥ p = 0 :=
  fun _ hp => List.rel_of_pairwise_cons h.orthogonal hp

theorem Orthonormal.append {q : Fin m → α} (h : Orthonormal vectors) (hunit : q ⬝ᵥ q = 1)
    (horthogonal : ∀ p ∈ vectors, p ⬝ᵥ q = 0) : Orthonormal (vectors ++ [q]) := by
  refine ⟨fun p hp => ?_, List.pairwise_append.mpr ⟨h.orthogonal, List.pairwise_singleton _ q, fun p hp r hr => ?_⟩⟩
  · rcases List.mem_append.mp hp with hp | hp
    · exact h.unit p hp
    · rw [List.mem_singleton.mp hp, hunit]
  · rw [List.mem_singleton.mp hr]
    exact horthogonal p hp

theorem remainder_cons (q v : Fin m → α) : remainder (q :: vectors) v = remainder vectors (v - (v ⬝ᵥ q) • q) := rfl

/-- Products with what is orthogonal to all the vectors stay. -/
theorem remainder_dotProduct {u : Fin m → α} (hu : ∀ q ∈ vectors, q ⬝ᵥ u = 0) (v : Fin m → α) :
    remainder vectors v ⬝ᵥ u = v ⬝ᵥ u := by
  induction vectors generalizing v with
  | nil => rfl
  | cons q vectors ih =>
    rw [remainder_cons, ih fun p hp => hu p (List.mem_cons_of_mem q hp), sub_dotProduct, smul_dotProduct,
      hu q List.mem_cons_self, smul_zero, sub_zero]

/-- Nothing is taken off a vector that is orthogonal to the others. -/
theorem remainder_of_orthogonal {v : Fin m → α} (hv : ∀ q ∈ vectors, v ⬝ᵥ q = 0) : remainder vectors v = v := by
  induction vectors with
  | nil => rfl
  | cons q vectors ih =>
    rw [remainder_cons, hv q List.mem_cons_self, zero_smul, sub_zero]
    exact ih fun p hp => hv p (List.mem_cons_of_mem q hp)

/-- What is left is orthogonal to all the vectors. -/
theorem Orthonormal.remainder_orthogonal (h : Orthonormal vectors) (v : Fin m → α) :
    ∀ q ∈ vectors, remainder vectors v ⬝ᵥ q = 0 := by
  induction vectors generalizing v with
  | nil => nofun
  | cons p vectors ih =>
    intro q hq
    rw [remainder_cons]
    rcases List.mem_cons.mp hq with rfl | hq
    · have hothers : ∀ p ∈ vectors, p ⬝ᵥ q = 0 := fun p hp => by rw [dotProduct_comm, h.head p hp]
      rw [remainder_dotProduct hothers, sub_dotProduct, smul_dotProduct, h.unit q List.mem_cons_self, smul_eq_mul,
        mul_one, sub_self]
    · exact ih h.tail _ q hq

/-- What is left, times the vector, is its own square: the share that was taken off is orthogonal to it. -/
theorem Orthonormal.remainder_dotProduct_self (h : Orthonormal vectors) (v : Fin m → α) :
    remainder vectors v ⬝ᵥ v = remainder vectors v ⬝ᵥ remainder vectors v := by
  induction vectors generalizing v with
  | nil => rfl
  | cons q vectors ih =>
    have hq := h.remainder_orthogonal v q List.mem_cons_self
    rw [remainder_cons] at hq ⊢
    rw [← ih h.tail, dotProduct_sub, dotProduct_smul, hq, smul_zero, sub_zero]

/-- By Pythagoras, the square of what is left is that of the vector without those of its shares. -/
theorem Orthonormal.remainder_sq (h : Orthonormal vectors) (v : Fin m → α) :
    remainder vectors v ⬝ᵥ remainder vectors v = v ⬝ᵥ v - (vectors.map fun q => (v ⬝ᵥ q) ^ 2).sum := by
  induction vectors generalizing v with
  | nil => exact (sub_zero _).symm
  | cons q vectors ih =>
    have hshares : (vectors.map fun p => ((v - (v ⬝ᵥ q) • q) ⬝ᵥ p) ^ 2) = vectors.map fun p => (v ⬝ᵥ p) ^ 2 := by
      refine List.map_congr_left fun p hp => ?_
      rw [sub_dotProduct, smul_dotProduct, h.head p hp, smul_zero, sub_zero]
    have hsquare : (v - (v ⬝ᵥ q) • q) ⬝ᵥ (v - (v ⬝ᵥ q) • q) = v ⬝ᵥ v - (v ⬝ᵥ q) ^ 2 := by
      simp only [sub_dotProduct, dotProduct_sub, smul_dotProduct, dotProduct_smul, smul_eq_mul,
        h.unit q List.mem_cons_self, dotProduct_comm q v]
      ring
    rw [remainder_cons, ih h.tail, hshares, hsquare, List.map_cons, List.sum_cons, sub_sub]

/-- The square of what the vectors leave of a unit vector. -/
def missing (vectors : List (Fin m → α)) (i : Fin m) : α :=
  1 - (vectors.map fun q => q i ^ 2).sum

theorem missing_append (vectors : List (Fin m → α)) (q : Fin m → α) (i : Fin m) :
    missing (vectors ++ [q]) i = missing vectors i - q i ^ 2 := by
  rw [missing, missing, List.map_append, List.sum_append, List.map_singleton, List.sum_singleton, sub_sub]

theorem Orthonormal.remainder_single_sq (h : Orthonormal vectors) (i : Fin m) :
    remainder vectors (Pi.single i 1) ⬝ᵥ remainder vectors (Pi.single i 1) = missing vectors i := by
  simp only [h.remainder_sq, single_dotProduct, one_mul, Pi.single_eq_same, missing]

/-- Over all unit vectors, the vectors leave as much as there are directions missing. -/
theorem Orthonormal.sum_missing (h : Orthonormal vectors) : ∑ i, missing vectors i = m - vectors.length := by
  have hshares : ∑ i, (vectors.map fun q => q i ^ 2).sum = (vectors.length : α) := by
    induction vectors with
    | nil => simp
    | cons q vectors ih =>
      have hunit : ∑ i, q i ^ 2 = 1 := by
        rw [← h.unit q List.mem_cons_self, dotProduct]
        exact Finset.sum_congr rfl fun i _ => pow_two (q i)
      simp only [List.map_cons, List.sum_cons, Finset.sum_add_distrib, hunit, ih h.tail, List.length_cons]
      rw [Nat.cast_succ, add_comm]
  simp only [missing, Finset.sum_sub_distrib, hshares, Finset.sum_const, Finset.card_univ, Fintype.card_fin,
    nsmul_eq_mul, mul_one]

end

section

variable {α : Type} [Field α] {m : Nat}

/-- The entries of a list as a vector; entries that it lacks are zero. -/
def coordinates (m : Nat) (xs : List α) : Fin m → α :=
  fun i => xs.getD i 0

theorem dot_cons (x y : α) (xs ys : List α) : dot (x :: xs) (y :: ys) = x * y + dot xs ys := by
  rw [dot, dot, ← List.sum_eq_foldl, ← List.sum_eq_foldl, List.zipWith_cons_cons, List.sum_cons]

theorem dot_eq {xs ys : List α} (hx : xs.length = m) (hy : ys.length = m) :
    dot xs ys = coordinates m xs ⬝ᵥ coordinates m ys := by
  induction m generalizing xs ys with
  | zero =>
    rw [List.eq_nil_of_length_eq_zero hx]
    rfl
  | succ m ih =>
    obtain ⟨x, xs, rfl⟩ := List.exists_cons_of_length_eq_add_one hx
    obtain ⟨y, ys, rfl⟩ := List.exists_cons_of_length_eq_add_one hy
    rw [dot_cons, ih (Nat.succ.inj hx) (Nat.succ.inj hy), dotProduct, dotProduct, Fin.sum_univ_succ]
    rfl

theorem coordinates_zipWith {v q : List α} (hv : v.length = m) (hq : q.length = m) (c : α) :
    coordinates m (List.zipWith (fun x y => x - c * y) v q) = coordinates m v - c • coordinates m q := by
  ext i
  simp [coordinates, hv, hq]

/-- Taking off the shares of vectors of one length. -/
theorem coordinates_takeOff {vectors : List (List α)} (hvectors : ∀ q ∈ vectors, q.length = m) {v : List α}
    (hv : v.length = m) :
    (takeOff vectors v).length = m ∧
      coordinates m (takeOff vectors v) = remainder (vectors.map (coordinates m)) (coordinates m v) := by
  induction vectors generalizing v with
  | nil => exact ⟨hv, rfl⟩
  | cons q vectors ih =>
    have hq := hvectors q List.mem_cons_self
    have hnext : (List.zipWith (fun x y => x - dot v q * y) v q).length = m := by
      rw [List.length_zipWith, hv, hq, Nat.min_self]
    obtain ⟨hlength, hcoordinates⟩ := ih (fun p hp => hvectors p (List.mem_cons_of_mem q hp)) hnext
    refine ⟨hlength, ?_⟩
    rw [List.map_cons, remainder_cons, ← dot_eq hv hq, ← coordinates_zipWith hv hq]
    exact hcoordinates

theorem coordinates_unitVector (e : Fin m) : coordinates m (unitVector m e : List α) = Pi.single e 1 := by
  ext i
  simp [coordinates, unitVector, Pi.single_apply, Fin.ext_iff]

theorem length_unitVector (m e : Nat) : (unitVector m e : List α).length = m := by
  simp [unitVector]

theorem coordinates_map_div (xs : List α) (s : α) : coordinates m (xs.map (· / s)) = s⁻¹ • coordinates m xs := by
  ext i
  by_cases hi : (i : Nat) < xs.length
  · simp [coordinates, hi, div_eq_inv_mul]
  · simp [coordinates, hi]

/-- The share of the vectors is taken off a unit vector twice, and the second pass finds nothing to take off. -/
theorem coordinates_takeOff_twice {vectors : List (List α)} (hvectors : ∀ q ∈ vectors, q.length = m)
    (h : Orthonormal (vectors.map (coordinates m))) (e : Fin m) :
    (takeOff vectors (takeOff vectors (unitVector m e))).length = m ∧
      coordinates m (takeOff vectors (takeOff vectors (unitVector m e))) =
        remainder (vectors.map (coordinates m)) (Pi.single e 1) := by
  obtain ⟨hlength, hfirst⟩ := coordinates_takeOff hvectors (length_unitVector (α := α) m e)
  obtain ⟨hlength', hsecond⟩ := coordinates_takeOff hvectors hlength
  rw [coordinates_unitVector] at hfirst
  rw [hfirst, remainder_of_orthogonal (h.remainder_orthogonal _)] at hsecond
  exact ⟨hlength', hsecond⟩

end

section

variable {α : Type} [Field α] [LinearOrder α] {m : Nat}

/-- The basis when the unit vectors of the first axes have been tried: unless it is complete, it leaves of each of
    them less than the tolerance. -/
structure Tried (m : Nat) (tolerance : α) (count : Nat) (vectors : List (List α)) : Prop where
  length_eq : ∀ q ∈ vectors, q.length = m
  orthonormal : Orthonormal (vectors.map (coordinates m))
  length_le : vectors.length ≤ m
  near : vectors.length < m → ∀ i : Fin m, (i : Nat) < count →
    missing (vectors.map (coordinates m)) i < tolerance ^ 2

variable {tolerance : α} {vectors : List (List α)}

theorem Tried.full {count : Nat} (h : Tried m tolerance count vectors) (hfull : m ≤ vectors.length) (count' : Nat) :
    Tried m tolerance count' vectors :=
  ⟨h.length_eq, h.orthonormal, h.length_le, fun hless => absurd hless (Nat.not_lt.mpr hfull)⟩

theorem Tried.skip {e : Fin m} (h : Tried m tolerance e vectors)
    (hshort : missing (vectors.map (coordinates m)) e < tolerance ^ 2) : Tried m tolerance (e + 1) vectors := by
  refine ⟨h.length_eq, h.orthonormal, h.length_le, fun hless i hi => ?_⟩
  rcases Nat.lt_succ_iff_lt_or_eq.mp hi with hlt | heq
  · exact h.near hless i hlt
  · rwa [Fin.ext heq]

variable [IsStrictOrderedRing α]

/-- What is left of a unit vector, made as long as one, is a further vector of the basis, and with it nothing is left of
    this unit vector. -/
theorem Tried.append {e : Fin m} (h : Tried m tolerance e vectors) (htolerance : 0 < tolerance)
    (hroom : vectors.length < m) {q : List α} {s : α} (hq : q.length = m) (hs : s ≠ 0)
    (hss : s * s = missing (vectors.map (coordinates m)) e)
    (hentries : coordinates m q = s⁻¹ • remainder (vectors.map (coordinates m)) (Pi.single e 1)) :
    Tried m tolerance (e + 1) (vectors ++ [q]) := by
  have hleft := h.orthonormal.remainder_single_sq e
  have hunit : coordinates m q ⬝ᵥ coordinates m q = 1 := by
    rw [hentries, smul_dotProduct, dotProduct_smul, hleft, ← hss, smul_eq_mul, smul_eq_mul]
    field_simp
  have horthogonal : ∀ p ∈ vectors.map (coordinates m), p ⬝ᵥ coordinates m q = 0 := fun p hp => by
    rw [hentries, dotProduct_smul, dotProduct_comm, h.orthonormal.remainder_orthogonal _ p hp, smul_zero]
  have hentry : coordinates m q e = s := by
    have hvalue := h.orthonormal.remainder_dotProduct_self (Pi.single e 1)
    rw [dotProduct_single, mul_one, hleft, ← hss] at hvalue
    rw [hentries, Pi.smul_apply, hvalue, smul_eq_mul]
    field_simp
  refine ⟨fun p hp => ?_, ?_, ?_, fun _ i hi => ?_⟩
  · rcases List.mem_append.mp hp with hp | hp
    · exact h.length_eq p hp
    · rwa [List.mem_singleton.mp hp]
  · rw [List.map_append, List.map_singleton]
    exact h.orthonormal.append hunit horthogonal
  · rw [List.length_append, List.length_singleton]
    exact hroom
  · rw [List.map_append, List.map_singleton, missing_append]
    rcases Nat.lt_succ_iff_lt_or_eq.mp hi with hlt | heq
    · exact (sub_le_self _ (sq_nonneg _)).trans_lt (h.near hroom i hlt)
    · rw [Fin.ext heq, hentry, ← hss, pow_two, sub_self]
      exact pow_pos htolerance 2

/-- Trying one more unit vector. -/
theorem Tried.step [Numeric α] [Numeric.Rooted α] (htolerance : 0 < tolerance) {e : Fin m}
    (h : Tried m tolerance e vectors) : Tried m tolerance (e + 1) (extendBasis tolerance m vectors e) := by
  rw [extendBasis]
  split
  · rename_i hfull
    exact h.full hfull _
  · rename_i hroom
    obtain ⟨hlength, hleft⟩ := coordinates_takeOff_twice h.length_eq h.orthonormal e
    dsimp only
    generalize takeOff vectors (takeOff vectors (unitVector m e)) = v at hlength hleft ⊢
    have hsquare : dot v v = missing (vectors.map (coordinates m)) e := by
      rw [dot_eq hlength hlength, hleft, h.orthonormal.remainder_single_sq]
    have hnonneg : 0 ≤ dot v v := by
      rw [dot_eq hlength hlength]
      exact Finset.sum_nonneg fun i _ => mul_self_nonneg _
    have hroot := Numeric.Rooted.sqrt_nonneg _ hnonneg
    have hroots := Numeric.Rooted.sqrt_mul_sqrt _ hnonneg
    generalize Numeric.sqrt (dot v v) = s at hroot hroots ⊢
    split
    · rename_i hshort
      rw [Numeric.Ordered.lt_iff] at hshort
      apply h.skip
      rw [← hsquare, ← hroots, pow_two]
      exact mul_self_lt_mul_self hroot hshort
    · rename_i hlong
      rw [Numeric.Ordered.lt_iff, not_lt] at hlong
      have hs : s ≠ 0 := (htolerance.trans_le hlong).ne'
      exact h.append htolerance (Nat.lt_of_not_le hroom) (by rw [List.length_map, hlength]) hs
        (hroots.trans hsquare) (by rw [coordinates_map_div, hleft])

omit [LinearOrder α] [IsStrictOrderedRing α] in
theorem prefix_extendBasis [Numeric α] (tolerance : α) (vectors : List (List α)) (e : Nat) :
    vectors <+: extendBasis tolerance m vectors e := by
  rw [extendBasis]
  split
  · exact List.prefix_refl vectors
  · dsimp only
    split
    · exact List.prefix_refl vectors
    · exact List.prefix_append _ _

/-- Trying the unit vectors of the first axes keeps the vectors that are there. -/
theorem Tried.run [Numeric α] [Numeric.Rooted α] (htolerance : 0 < tolerance) (h : Tried m tolerance 0 vectors)
    {count : Nat} (hcount : count ≤ m) :
    Tried m tolerance count ((List.range count).foldl (extendBasis tolerance m) vectors) ∧
      vectors <+: (List.range count).foldl (extendBasis tolerance m) vectors := by
  induction count with
  | zero => exact ⟨h, List.prefix_refl vectors⟩
  | succ count ih =>
    obtain ⟨htried, hkept⟩ := ih (by omega)
    rw [List.range_succ, List.foldl_concat]
    exact ⟨htried.step htolerance (e := ⟨count, hcount⟩), hkept.trans (prefix_extendBasis tolerance _ count)⟩

/-- When all unit vectors have been tried, the basis is complete: otherwise a whole direction were missing, and the unit
    vectors together are not that far from the basis. -/
theorem Tried.length_eq_of_all (h : Tried m tolerance m vectors) (hm : m * tolerance ^ 2 ≤ 1) :
    vectors.length = m := by
  by_contra hne
  have hless : vectors.length < m := lt_of_le_of_ne h.length_le hne
  have hsum : ∑ i, missing (vectors.map (coordinates m)) i < ∑ _ : Fin m, tolerance ^ 2 :=
    Finset.sum_lt_sum_of_nonempty ⟨⟨vectors.length, hless⟩, Finset.mem_univ _⟩ fun i _ => h.near hless i i.isLt
  have hdirection : (vectors.length : α) + 1 ≤ m := by exact_mod_cast hless
  rw [h.orthonormal.sum_missing, Finset.sum_const, Finset.card_univ, Fintype.card_fin, nsmul_eq_mul,
    List.length_map] at hsum
  linarith

end

section

variable {α : Type} [Field α] {m n : Nat}

theorem coordinates_column (a : Mat α m n) (j : Nat) : coordinates m (a.column j) = fun i : Fin m => a.get i j := by
  ext i
  simp [coordinates, column]

/-- The columns of a matrix as vectors. -/
theorem orthonormal_columns {a : Mat α m n} {count : Nat} (h : a.OrthonormalColumns count) :
    Orthonormal (((List.range count).map a.column).map (coordinates m)) := by
  have hproduct {i j : Nat} (hi : i < count) (hj : j < count) :
      coordinates m (a.column i) ⬝ᵥ coordinates m (a.column j) = if i = j then 1 else 0 := by
    rw [coordinates_column, coordinates_column, ← h i hi j hj, dotProduct, Finset.sum_range]
  rw [List.map_map]
  constructor
  · intro q hq
    obtain ⟨i, hi, rfl⟩ := List.mem_map.mp hq
    have hi := List.mem_range.mp hi
    exact (hproduct hi hi).trans (if_pos rfl)
  · refine List.pairwise_map.mpr (List.pairwise_lt_range.imp_of_mem fun hi hj hlt => ?_)
    exact (hproduct (List.mem_range.mp hi) (List.mem_range.mp hj)).trans (if_neg hlt.ne)

/-- Vectors as the columns of a matrix. -/
theorem orthonormalColumns_ofColumns {vectors : List (List α)} (hlength : vectors.length = n)
    (h : Orthonormal (vectors.map (coordinates m))) : (ofColumns vectors : Mat α m n).OrthonormalColumns n := by
  have hproduct {i j : Nat} (hi : i < n) (hj : j < n) :
      ∑ r ∈ Finset.range m, (ofColumns vectors : Mat α m n).get r i * (ofColumns vectors : Mat α m n).get r j =
        coordinates m (vectors.getD i []) ⬝ᵥ coordinates m (vectors.getD j []) := by
    rw [dotProduct, Finset.sum_range]
    refine Finset.sum_congr rfl fun r _ => ?_
    rw [get_ofColumns _ r.isLt hi, get_ofColumns _ r.isLt hj]
    rfl
  have hbelow {i j : Nat} (hj : j < n) (hlt : i < j) :
      coordinates m (vectors.getD i []) ⬝ᵥ coordinates m (vectors.getD j []) = 0 := by
    have hpair := List.pairwise_iff_getElem.mp h.orthogonal i j (by simp; omega) (by simp; omega) hlt
    simpa [hlength, hj, hlt.trans hj] using hpair
  intro i hi j hj
  rw [hproduct hi hj]
  rcases Nat.lt_trichotomy i j with hlt | rfl | hlt
  · rw [hbelow hj hlt, if_neg hlt.ne]
  · rw [if_pos rfl]
    refine h.unit _ (List.mem_map_of_mem ?_)
    rw [List.getD_eq_getElem _ _ (by omega)]
    exact List.getElem_mem _
  · rw [dotProduct_comm, hbelow hi hlt, if_neg hlt.ne']

end

/-- Completing a basis with exact numbers. The columns of the square matrix are orthonormal, and the first ones are those
    that were there. One pass over the unit vectors finds all the vectors that are missing, although a unit vector that
    is nearly in the space of the others is never tried again. -/
theorem completeBasis_orthonormal {α : Type} [Field α] [LinearOrder α] [IsStrictOrderedRing α] [Numeric α]
    [Numeric.Rooted α] {m n keep : Nat} (a : Mat α m n) (hm : m ≤ 10 ^ 20) (hkeep : keep ≤ m)
    (ha : a.OrthonormalColumns keep) :
    (completeBasis basisTolerance a keep).OrthonormalColumns m ∧
      (∀ i < m, ∀ j < keep, (completeBasis basisTolerance a keep).get i j = a.get i j) ∧
      ((List.range m).foldl (extendBasis basisTolerance m) ((List.range keep).map a.column)).length = m := by
  have htolerance : (basisTolerance : α) = 1 / 10 ^ 10 := by
    norm_num [basisTolerance]
  have hstart : Tried m (basisTolerance : α) 0 ((List.range keep).map a.column) := by
    refine ⟨fun q hq => ?_, orthonormal_columns ha, ?_, fun _ i hi => absurd hi (Nat.not_lt_zero i)⟩
    · obtain ⟨j, -, rfl⟩ := List.mem_map.mp hq
      simp [column]
    · rwa [List.length_map, List.length_range]
  have hpositive : 0 < (basisTolerance : α) := by
    rw [htolerance]
    positivity
  have hclose : m * (basisTolerance : α) ^ 2 ≤ 1 := by
    have hcast : (m : α) ≤ 10 ^ 20 := by exact_mod_cast hm
    rw [htolerance]
    calc (m : α) * (1 / 10 ^ 10) ^ 2
      _ ≤ 10 ^ 20 * (1 / 10 ^ 10) ^ 2 := by gcongr
      _ = 1 := by norm_num
  obtain ⟨htried, more, hmore⟩ := hstart.run hpositive (Nat.le_refl m)
  have hlength := htried.length_eq_of_all hclose
  refine ⟨orthonormalColumns_ofColumns hlength htried.orthonormal, fun i hi j hj => ?_, hlength⟩
  have hcolumn : ((List.range keep).map a.column ++ more).getD j [] = a.column j := by
    rw [List.getD_append _ _ _ _ (by simpa using hj)]
    simp [hj]
  rw [completeBasis, ← hmore, get_ofColumns _ hi (by omega), hcolumn]
  simp [column, hi]

/-- A column of the plane that no axis goes along. -/
theorem completeBasis_orthonormal_plane :
    let a : Mat ℝ 2 1 := ofRowMajor #[3 / 5, 4 / 5]
    2 ≤ 10 ^ 20 ∧ 1 ≤ 2 ∧ a.OrthonormalColumns 1 ∧ (completeBasis basisTolerance a 1).OrthonormalColumns 2 := by
  intro a
  have ha : a.OrthonormalColumns 1 := by
    intro i hi j hj
    obtain rfl : i = 0 := by omega
    obtain rfl : j = 0 := by omega
    simp only [Finset.sum_range_succ, Finset.sum_range_zero, a, ofRowMajor, get_ofFn, Nat.zero_lt_one,
      Nat.zero_lt_two, Nat.one_lt_two]
    norm_num
  exact ⟨by norm_num, by norm_num, ha, (completeBasis_orthonormal a (by norm_num) (by norm_num) ha).1⟩

end ArrayCalc.Mat
