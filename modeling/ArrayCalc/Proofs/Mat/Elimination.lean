import ArrayCalc.Proofs.Mat.Exact
import ArrayCalc.Mat.LU

namespace ArrayCalc

theorem getD_push {α : Type} (xs : Array α) (x d : α) (i : Nat) :
    (xs.push x).getD i d = if i = xs.size then x else xs.getD i d := by
  rw [Array.getD_eq_getD_getElem?, Array.getElem?_push, Array.getD_eq_getD_getElem?]
  split <;> rfl

/-- A list grown at its end, one item for each number below `m`, where each item depends on those before it: each item
    is what the rule gives for the whole list. -/
theorem foldl_push {α : Type} [Zero α] {g : Array α → Nat → α}
    (hg : ∀ (xs ys : Array α) i, (∀ k < i, xs.getD k 0 = ys.getD k 0) → g xs i = g ys i) (m : Nat) :
    ((List.range m).foldl (fun xs i => xs.push (g xs i)) #[]).size = m ∧
      ∀ i < m, ((List.range m).foldl (fun xs i => xs.push (g xs i)) #[]).getD i 0 =
        g ((List.range m).foldl (fun xs i => xs.push (g xs i)) #[]) i := by
  induction m with
  | zero => exact ⟨rfl, nofun⟩
  | succ m ih =>
    rw [List.range_succ, List.foldl_concat]
    generalize (List.range m).foldl (fun xs i => xs.push (g xs i)) #[] = xs at ih
    obtain ⟨hsize, hitems⟩ := ih
    have hold {k : Nat} (hk : k < m) : (xs.push (g xs m)).getD k 0 = xs.getD k 0 := by
      rw [getD_push, if_neg (by omega)]
    refine ⟨by rw [Array.size_push, hsize], fun i hi => ?_⟩
    rw [hg (xs.push (g xs m)) xs i fun k hk => hold (by omega)]
    rcases Nat.lt_succ_iff_lt_or_eq.mp hi with hlt | rfl
    · rw [hold hlt, hitems i hlt]
    · rw [getD_push, if_pos hsize.symm]

namespace Mat

/-- Each entry of an eliminated column, with what the entries above it contribute put back. -/
theorem getD_eliminatedColumn {α : Type} [Field α] {m n : Nat} (a : Mat α m n) (j : Nat) {i : Nat} (hi : i < m) :
    ∑ k ∈ Finset.range (min i j), a.get i k * (eliminatedColumn a j).getD k 0 + (eliminatedColumn a j).getD i 0 =
      a.get i j := by
  have hitems := (foldl_push (m := m)
    (g := fun column i => a.get i j - sumBetween 0 (min i j) fun k => a.get i k * column.getD k 0)
    fun xs ys i hsame => by
      rw [sumBetween_eq_sum, sumBetween_eq_sum]
      refine congrArg (a.get i j - ·) (Finset.sum_congr rfl fun k hk => ?_)
      have hk : k < min i j := (Finset.mem_Ico.mp hk).2
      rw [hsame k (by omega)]).2 i hi
  rw [← eliminatedColumn, sumBetween_eq_sum, ← Finset.range_eq_Ico] at hitems
  rw [hitems, add_sub_cancel]

/-- A search that moves on only to what is better ends at what no candidate is better than. -/
theorem foldl_best {better : Nat → Nat → Bool} {R : Nat → Nat → Prop} (hrefl : ∀ i, R i i)
    (htrans : ∀ i j k, R i j → R j k → R i k) (hbetter : ∀ p i, if better p i then R i p else R p i)
    (xs : List Nat) (p : Nat) :
    xs.foldl (fun p i => if better p i then i else p) p ∈ p :: xs ∧
      ∀ i ∈ p :: xs, R (xs.foldl (fun p i => if better p i then i else p) p) i := by
  induction xs generalizing p with
  | nil => exact ⟨List.mem_cons_self, fun i hi => List.mem_singleton.mp hi ▸ hrefl p⟩
  | cons x xs ih =>
    have hstep := hbetter p x
    rw [List.foldl_cons]
    split at hstep
    · rename_i h
      rw [if_pos h]
      obtain ⟨hmem, hbest⟩ := ih x
      refine ⟨List.mem_cons_of_mem p hmem, fun i hi => ?_⟩
      rcases List.mem_cons.mp hi with rfl | hi
      · exact htrans _ _ _ (hbest x List.mem_cons_self) hstep
      · exact hbest i hi
    · rename_i h
      rw [if_neg h]
      obtain ⟨hmem, hbest⟩ := ih p
      refine ⟨?_, fun i hi => ?_⟩
      · rcases List.mem_cons.mp hmem with hmem | hmem
        · exact List.mem_cons.mpr (.inl hmem)
        · exact List.mem_cons_of_mem p (List.mem_cons_of_mem x hmem)
      · rcases List.mem_cons.mp hi with rfl | hi
        · exact hbest i List.mem_cons_self
        · rcases List.mem_cons.mp hi with rfl | hi
          · exact htrans _ _ _ (hbest p List.mem_cons_self) hstep
          · exact hbest i (List.mem_cons_of_mem p hi)

/-- The pivot row is one of those from `j` on, and no other one of them is better. -/
theorem pivotRow_best {α : Type} [Zero α] [Numeric α] {m : Nat} (column : Array α) {R : Nat → Nat → Prop}
    (hrefl : ∀ i, R i i) (htrans : ∀ i j k, R i j → R j k → R i k)
    (hbetter : ∀ p i, if Numeric.lt (Numeric.abs (column.getD p 0)) (Numeric.abs (column.getD i 0)) then R i p else R p i)
    {j : Nat} (hj : j < m) :
    j ≤ pivotRow m column j ∧ pivotRow m column j < m ∧ ∀ i, j ≤ i → i < m → R (pivotRow m column j) i := by
  obtain ⟨hmem, hbest⟩ := foldl_best hrefl htrans hbetter (List.range' (j + 1) (m - (j + 1))) j
  have hrows (i : Nat) : i ∈ j :: List.range' (j + 1) (m - (j + 1)) ↔ j ≤ i ∧ i < m := by
    rw [List.mem_cons, List.mem_range'_1]
    omega
  obtain ⟨hlow, hhigh⟩ := (hrows _).mp hmem
  exact ⟨hlow, hhigh, fun i hi hi' => hbest i ((hrows i).mpr ⟨hi, hi'⟩)⟩

section

variable {j p : Nat} (hp : j ≤ p)

include hp

theorem swapRow_of_lt {i : Nat} (hi : i < j) : swapRow j p i = i := by
  rw [swapRow, if_neg (by omega), if_neg (by omega)]

theorem le_swapRow {i : Nat} (hi : j ≤ i) : j ≤ swapRow j p i := by
  rw [swapRow]
  split
  · exact hp
  · split
    · exact Nat.le_refl j
    · exact hi

theorem swapRow_lt {m i : Nat} (hpm : p < m) (hi : i < m) : swapRow j p i < m := by
  rw [swapRow]
  split
  · exact hpm
  · split
    · omega
    · exact hi

omit hp in
theorem swapRow_self : swapRow j p j = p :=
  if_pos rfl

omit hp in
theorem swapRow_swapRow (i : Nat) : swapRow j p (swapRow j p i) = i := by
  unfold swapRow
  split_ifs <;> omega

end

namespace Elimination

section

variable {α : Type} {m n : Nat} [Field α]

/-- The row of the matrix that a row of the factors came from. -/
def row (e : Elimination α m n) (i : Nat) : Nat :=
  e.origin.toArray.getD i 0

/-- A matrix of which some columns are eliminated. Each row stems from one row of the matrix. The columns to come are as
    they were, and in those that are done the multipliers and the upper factor make up the matrix. -/
structure Factors (a : Mat α m n) (done : Nat) (e : Elimination α m n) : Prop where
  row_lt : ∀ i < m, e.row i < m
  row_inj : ∀ i < m, ∀ k < m, e.row i = e.row k → i = k
  kept : ∀ i < m, ∀ c < n, done ≤ c → e.factors.get i c = a.get (e.row i) c
  product : ∀ i < m, ∀ c < n, c < done →
    ∑ k ∈ Finset.range (min i c), e.factors.get i k * e.factors.get k c +
      (if i ≤ c then e.factors.get i c else e.factors.get i c * e.factors.get c c) = a.get (e.row i) c

section

variable [Numeric α] (e : Elimination α m n) (j : Nat)

/-- The row that is brought up when a column is eliminated. -/
def pivot : Nat :=
  pivotRow m (eliminatedColumn e.factors j) j

theorem get_step {i c : Nat} (hi : i < m) (hc : c < n) :
    (e.step j).factors.get i c =
      if c = j then
        if j < i ∧ Numeric.isZero ((eliminatedColumn e.factors j).getD (e.pivot j) 0) = false then
          (eliminatedColumn e.factors j).getD (swapRow j (e.pivot j) i) 0 /
            (eliminatedColumn e.factors j).getD (e.pivot j) 0
        else (eliminatedColumn e.factors j).getD (swapRow j (e.pivot j) i) 0
      else e.factors.get (swapRow j (e.pivot j) i) c := by
  rw [step, get_ofFn _ hi hc]
  by_cases hcj : c = j
  · simp only [hcj, if_true, true_and]
    rfl
  · simp only [hcj, if_false, false_and]
    rfl

theorem get_step_of_lt {i c : Nat} (hi : i < m) (hc : c < n) (hcj : c < j) :
    (e.step j).factors.get i c = e.factors.get (swapRow j (e.pivot j) i) c := by
  rw [e.get_step j hi hc, if_neg (Nat.ne_of_lt hcj)]

theorem row_step {i : Nat} (hi : i < m) : (e.step j).row i = e.row (swapRow j (e.pivot j) i) := by
  simp [row, step, pivot, hi]

variable [Numeric.Exact α]

/-- The pivot row is one of those from the diagonal on, and only a column that is zero from there on has a zero pivot. -/
theorem pivot_spec {j : Nat} (hj : j < m) :
    j ≤ e.pivot j ∧ e.pivot j < m ∧
      ((eliminatedColumn e.factors j).getD (e.pivot j) 0 = 0 →
        ∀ i, j ≤ i → i < m → (eliminatedColumn e.factors j).getD i 0 = 0) := by
  generalize hcolumn : eliminatedColumn e.factors j = column
  have hbest := pivotRow_best (m := m) column
    (R := fun p i => column.getD p 0 = 0 → column.getD i 0 = 0) (fun _ h => h) (fun _ _ _ h h' hp => h' (h hp))
    (fun p i => by
      split
      · intro hi
        rename_i hlt
        rw [hi, Numeric.Exact.not_lt_zero] at hlt
        cases hlt
      · intro hp
        rename_i hlt
        by_contra hi
        rw [hp, Numeric.Exact.zero_lt _ hi] at hlt
        exact hlt rfl) hj
  rw [pivot, hcolumn]
  exact ⟨hbest.1, hbest.2.1, fun hzero i hi hi' => hbest.2.2 i hi hi' hzero⟩

end

section

variable [Numeric α] [Numeric.Exact α] {a : Mat α m n} {e : Elimination α m n} {j : Nat}

/-- A row and the one that takes its place stand both from the diagonal of a column on, or they are the same. -/
theorem swapRow_cases (hjm : j < m) (i : Nat) :
    swapRow j (e.pivot j) i = i ∨ j ≤ i ∧ j ≤ swapRow j (e.pivot j) i := by
  obtain ⟨hlow, -⟩ := e.pivot_spec hjm
  rcases Nat.lt_or_ge i j with hi | hi
  · exact .inl (swapRow_of_lt hlow hi)
  · exact .inr ⟨hi, le_swapRow hlow hi⟩

/-- Rows change places in the columns that are done, and what they make up with them. -/
theorem Factors.product_earlier (h : Factors a j e) (hjm : j < m) {i c : Nat} (hi : i < m) (hc : c < n) (hcj : c < j) :
    ∑ k ∈ Finset.range (min i c), (e.step j).factors.get i k * (e.step j).factors.get k c +
      (if i ≤ c then (e.step j).factors.get i c else (e.step j).factors.get i c * (e.step j).factors.get c c) =
        a.get ((e.step j).row i) c := by
  obtain ⟨hlow, hhigh, -⟩ := e.pivot_spec hjm
  have hside := swapRow_cases (e := e) hjm i
  have hupper {k : Nat} (hk : k ≤ c) : (e.step j).factors.get k c = e.factors.get k c := by
    rw [e.get_step_of_lt j (by omega) hc hcj, swapRow_of_lt hlow (by omega)]
  have hmin : min i c = min (swapRow j (e.pivot j) i) c := by omega
  have hle : i ≤ c ↔ swapRow j (e.pivot j) i ≤ c := by omega
  rw [e.row_step j hi, ← h.product _ (swapRow_lt hlow hhigh hi) c hc hcj, e.get_step_of_lt j hi hc hcj,
    hupper (Nat.le_refl c), hmin]
  refine congrArg₂ _ (Finset.sum_congr rfl fun k hk => ?_) (if_congr hle rfl rfl)
  have hk := Finset.mem_range.mp hk
  rw [e.get_step_of_lt j hi (by omega) (by omega), hupper (by omega)]

/-- The column that is eliminated: its multipliers times the pivot are its entries, also where a zero pivot divides
    nothing, since then they are zero. -/
theorem Factors.product_eliminated (h : Factors a j e) (hjm : j < m) (hj : j < n) {i : Nat} (hi : i < m) :
    ∑ k ∈ Finset.range (min i j), (e.step j).factors.get i k * (e.step j).factors.get k j +
      (if i ≤ j then (e.step j).factors.get i j else (e.step j).factors.get i j * (e.step j).factors.get j j) =
        a.get ((e.step j).row i) j := by
  obtain ⟨hlow, hhigh, hzero⟩ := e.pivot_spec hjm
  have hside := swapRow_cases (e := e) hjm i
  have hswap := swapRow_lt hlow hhigh hi
  have hupper {k : Nat} (hk : k ≤ j) :
      (e.step j).factors.get k j = (eliminatedColumn e.factors j).getD (swapRow j (e.pivot j) k) 0 := by
    rw [e.get_step j (by omega) hj, if_pos rfl, if_neg (by omega)]
  have hlast : (if i ≤ j then (e.step j).factors.get i j else (e.step j).factors.get i j * (e.step j).factors.get j j) =
      (eliminatedColumn e.factors j).getD (swapRow j (e.pivot j) i) 0 := by
    split
    · rename_i hij
      exact hupper hij
    · rename_i hij
      rw [hupper (Nat.le_refl j), swapRow_self, e.get_step j hi hj, if_pos rfl]
      by_cases hpivot : (eliminatedColumn e.factors j).getD (e.pivot j) 0 = 0
      · rw [hpivot, mul_zero, hzero hpivot _ (by omega) hswap]
      · rw [if_pos ⟨by omega, Numeric.isZero_eq_false_iff.mpr hpivot⟩, div_mul_cancel₀ _ hpivot]
  have hmin : min i j = min (swapRow j (e.pivot j) i) j := by omega
  rw [hlast, e.row_step j hi, ← h.kept _ hswap j hj (Nat.le_refl j), ← getD_eliminatedColumn e.factors j hswap, hmin]
  refine congrArg₂ _ (Finset.sum_congr rfl fun k hk => ?_) rfl
  have hk := Finset.mem_range.mp hk
  rw [e.get_step_of_lt j hi (by omega) (by omega), hupper (by omega), swapRow_of_lt hlow (i := k) (by omega)]

/-- Eliminating one column keeps the columns before it and adds it to them. -/
theorem Factors.step (h : Factors a j e) (hjm : j < m) : Factors a (j + 1) (e.step j) := by
  obtain ⟨hlow, hhigh, -⟩ := e.pivot_spec hjm
  have hswap {i : Nat} (hi : i < m) : swapRow j (e.pivot j) i < m := swapRow_lt hlow hhigh hi
  constructor
  · intro i hi
    rw [e.row_step j hi]
    exact h.row_lt _ (hswap hi)
  · intro i hi k hk hsame
    rw [e.row_step j hi, e.row_step j hk] at hsame
    have hrows := congrArg (swapRow j (e.pivot j)) (h.row_inj _ (hswap hi) _ (hswap hk) hsame)
    rwa [swapRow_swapRow, swapRow_swapRow] at hrows
  · intro i hi c hc hdone
    rw [e.row_step j hi, e.get_step j hi hc, if_neg (by omega)]
    exact h.kept _ (hswap hi) c hc (by omega)
  · intro i hi c hc hdone
    rcases Nat.lt_succ_iff_lt_or_eq.mp hdone with hlt | rfl
    · exact h.product_earlier hjm hi hc hlt
    · exact h.product_eliminated hjm hc hi

omit [Numeric.Exact α] in
/-- What holds at the start of the elimination of a matrix that is not wide, and what eliminating a column keeps, holds
    when all columns are done. -/
theorem eliminate_induction {a : Mat α m n} (hmn : n ≤ m) {P : Nat → Elimination α m n → Prop}
    (hstart : P 0 ⟨a, Vector.ofFn fun i => i, 1⟩) (hstep : ∀ j e, j < m → P j e → P (j + 1) (e.step j)) :
    P n a.eliminate := by
  have hrun (done : Nat) (hdone : done ≤ n) :
      P done ((List.range done).foldl Elimination.step ⟨a, Vector.ofFn fun i => i, 1⟩) := by
    induction done with
    | zero => exact hstart
    | succ done ih =>
      rw [List.range_succ, List.foldl_concat]
      exact hstep done _ (by omega) (ih (by omega))
  exact hrun n (Nat.le_refl n)

omit [Numeric α] [Numeric.Exact α] in
theorem row_start {a : Mat α m n} {i : Nat} (hi : i < m) :
    row (⟨a, Vector.ofFn fun i => i, 1⟩ : Elimination α m n) i = i := by
  simp [row, hi]

omit [Numeric α] [Numeric.Exact α] in
/-- Before the first step no column is done. -/
theorem factors_start (a : Mat α m n) : Factors a 0 ⟨a, Vector.ofFn fun i => i, 1⟩ := by
  refine ⟨fun i hi => ?_, fun i hi k hk hsame => ?_, fun i hi c _ _ => ?_, fun i hi c _ hdone => ?_⟩
  · rwa [row_start hi]
  · rwa [row_start hi, row_start hk] at hsame
  · rw [row_start hi]
  · exact absurd hdone (Nat.not_lt_zero c)

/-- Elimination runs through all columns of a matrix that is not wide. -/
theorem factors_eliminate (a : Mat α m n) (hmn : n ≤ m) : Factors a n a.eliminate :=
  eliminate_induction hmn (factors_start a) fun _ _ hj h => h.step hj

end

section

variable {a : Mat α m n} {e : Elimination α m n} {done : Nat}

theorem get_lower (e : Elimination α m n) {i k : Nat} (hi : i < m) (hk : k < n) :
    e.lower.get i k = if k < i then e.factors.get i k else if i = k then 1 else 0 :=
  get_ofFn _ hi hk

theorem get_upper (e : Elimination α m n) {k c : Nat} (hk : k < m) (hc : c < n) :
    e.upper.get k c = if k ≤ c then e.factors.get k c else 0 :=
  get_ofFn _ hk hc

/-- The upper factor without the rows of zeros below it. -/
def upperBlock (e : Elimination α m n) : Mat α n n :=
  ofFn fun i j => e.upper.get i j

theorem Factors.lower_mul_upper (h : Factors a n e) (hmn : n ≤ m) {i c : Nat} (hi : i < m) (hc : c < n) :
    ∑ k ∈ Finset.range n, e.lower.get i k * e.upper.get k c = a.get (e.row i) c := by
  have hterm {k : Nat} (hk : k < min i c) :
      e.lower.get i k * e.upper.get k c = e.factors.get i k * e.factors.get k c := by
    rw [e.get_lower hi (by omega), e.get_upper (by omega) hc, if_pos (by omega), if_pos (by omega)]
  have hlast : e.lower.get i (min i c) * e.upper.get (min i c) c =
      if i ≤ c then e.factors.get i c else e.factors.get i c * e.factors.get c c := by
    rw [e.get_lower hi (by omega), e.get_upper (by omega) hc]
    by_cases hic : i ≤ c
    · rw [Nat.min_eq_left hic, if_neg (Nat.lt_irrefl i), if_pos rfl, if_pos hic, if_pos hic, one_mul]
    · rw [Nat.min_eq_right (by omega), if_pos (by omega), if_pos (Nat.le_refl c), if_neg hic]
  -- behind the shorter of row and column one of the factors has only zeros
  have hzero (k : Nat) (hk : k ∈ Finset.range n) (hpast : k ∉ Finset.range (min i c + 1)) :
      e.lower.get i k * e.upper.get k c = 0 := by
    rw [Finset.mem_range] at hk hpast
    rw [e.get_lower hi hk, e.get_upper (by omega) hc]
    by_cases hkc : k ≤ c
    · rw [if_neg (by omega), if_neg (by omega), zero_mul]
    · rw [if_neg hkc, mul_zero]
  have hsub : Finset.range (min i c + 1) ⊆ Finset.range n := by
    intro k hk
    rw [Finset.mem_range] at hk ⊢
    omega
  rw [← Finset.sum_subset hsub hzero, Finset.sum_range_succ, hlast, ← h.product i hi c hc hc]
  exact congrArg (· + _) (Finset.sum_congr rfl fun k hk => hterm (Finset.mem_range.mp hk))

/-- The permutation that takes each row of the factors to the row of the matrix that it came from. -/
noncomputable def Factors.perm (h : Factors a done e) : Equiv.Perm (Fin m) :=
  Equiv.ofBijective (fun i => ⟨e.row i, h.row_lt i i.isLt⟩) <| Finite.injective_iff_bijective.mp fun i k hsame =>
    Fin.ext (h.row_inj i i.isLt k k.isLt (Fin.mk.inj hsame))

theorem Factors.val_perm (h : Factors a done e) (i : Fin m) : (h.perm i : Nat) = e.row i := rfl

theorem Factors.toMatrix_permutation (h : Factors a done e) : e.permutation.toMatrix = h.perm⁻¹.permMatrix α := by
  ext i j
  have hsame : e.row j = i ↔ j ∈ (h.perm⁻¹).toPEquiv i := by
    rw [Equiv.toPEquiv_apply, Option.mem_some_iff, Equiv.Perm.inv_eq_iff_eq, Fin.ext_iff, h.val_perm, eq_comm]
  rw [toMatrix_apply, permutation, get_ofFn _ i.isLt j.isLt]
  exact if_congr hsame rfl rfl

/-- The lower factor times the upper one is the matrix with its rows in the order of the factors. -/
theorem Factors.toMatrix_lower_mul (h : Factors a n e) (hmn : n ≤ m) :
    e.lower.toMatrix * e.upperBlock.toMatrix = a.toMatrix.submatrix h.perm id := by
  rw [← toMatrix_mul]
  ext i j
  rw [toMatrix_apply, get_mul _ _ i.isLt j.isLt, Matrix.submatrix_apply, toMatrix_apply, h.val_perm, id_eq,
    ← h.lower_mul_upper hmn i.isLt j.isLt]
  refine Finset.sum_congr rfl fun k hk => ?_
  rw [upperBlock, get_ofFn _ (Finset.mem_range.mp hk) j.isLt]

theorem upperBlock_of_square (e : Elimination α n n) : e.upperBlock = e.upper :=
  ext_get fun _ _ hi hj => get_ofFn _ hi hj

/-- The permutation puts rows that are in the order of the factors back into their places. -/
theorem Factors.permutation_mul (h : Factors a done e) {k : Nat} (b : Mat α m k) :
    e.permutation.toMatrix * b.toMatrix.submatrix h.perm id = b.toMatrix := by
  rw [h.toMatrix_permutation, Equiv.Perm.permMatrix, PEquiv.toMatrix_toPEquiv_mul, Matrix.submatrix_submatrix]
  ext i j
  simp

end

end

section

variable {α : Type} {m n : Nat} [Field α] [LinearOrder α] [IsStrictOrderedRing α] [Numeric α] [Numeric.Ordered α]
  {e : Elimination α m n} {j : Nat}

/-- No multiplier of the columns that are done is above one. -/
def Bounded (done : Nat) (e : Elimination α m n) : Prop :=
  ∀ i < m, ∀ c < n, c < done → c < i → |e.factors.get i c| ≤ 1

omit [IsStrictOrderedRing α] in
theorem abs_le_abs_pivot (e : Elimination α m n) (hjm : j < m) {i : Nat} (hi : j ≤ i) (him : i < m) :
    |(eliminatedColumn e.factors j).getD i 0| ≤ |(eliminatedColumn e.factors j).getD (e.pivot j) 0| := by
  refine (pivotRow_best (m := m) (eliminatedColumn e.factors j)
    (R := fun p i => |(eliminatedColumn e.factors j).getD i 0| ≤ |(eliminatedColumn e.factors j).getD p 0|)
    (fun _ => le_refl _) (fun _ _ _ h h' => h'.trans h) (fun p i => ?_) hjm).2.2 i hi him
  split
  · rename_i hlt
    rw [Numeric.Ordered.lt_iff, Numeric.Ordered.abs_eq, Numeric.Ordered.abs_eq] at hlt
    exact hlt.le
  · rename_i hlt
    rw [Numeric.Ordered.lt_iff, Numeric.Ordered.abs_eq, Numeric.Ordered.abs_eq] at hlt
    exact not_lt.mp hlt

theorem Bounded.step (h : Bounded j e) (hjm : j < m) : Bounded (j + 1) (e.step j) := by
  intro i hi c hc hdone hci
  obtain ⟨hlow, hhigh, hzero⟩ := e.pivot_spec hjm
  have hswap := swapRow_lt hlow hhigh hi
  have hside := swapRow_cases (e := e) hjm i
  rcases Nat.lt_succ_iff_lt_or_eq.mp hdone with hlt | rfl
  · rw [e.get_step_of_lt j hi hc hlt]
    exact h _ hswap c hc hlt (by omega)
  · have hbest := abs_le_abs_pivot e hjm (i := swapRow c (e.pivot c) i) (by omega) hswap
    rw [e.get_step c hi hc, if_pos rfl]
    by_cases hpivot : (eliminatedColumn e.factors c).getD (e.pivot c) 0 = 0
    · rw [if_neg fun hnone => Numeric.isZero_eq_false_iff.mp hnone.2 hpivot, hzero hpivot _ (by omega) hswap, abs_zero]
      exact zero_le_one
    · rw [if_pos ⟨hci, Numeric.isZero_eq_false_iff.mpr hpivot⟩, abs_div]
      exact div_le_one_of_le₀ hbest (abs_nonneg _)

theorem bounded_eliminate (a : Mat α m n) (hmn : n ≤ m) : Bounded n a.eliminate :=
  eliminate_induction hmn (fun _ _ _ _ hdone => absurd hdone (Nat.not_lt_zero _)) fun _ _ hj h => h.step hj

end

end Elimination

end Mat

end ArrayCalc
