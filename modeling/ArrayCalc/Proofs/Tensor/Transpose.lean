import ArrayCalc.Proofs.Tensor.Broadcast
import ArrayCalc.Tensor.Transpose

namespace ArrayCalc

namespace Shape

/-- A multi-index of joined shapes is a multi-index of the first, followed by one of the second. -/
theorem within_append_iff {s t : Shape} {idx : List Nat} :
    Within (s ++ t) idx ↔ ∃ is js, idx = is ++ js ∧ s.Within is ∧ t.Within js := by
  induction s generalizing idx with
  | nil =>
    constructor
    · intro h
      exact ⟨[], idx, rfl, trivial, h⟩
    · rintro ⟨is, js, rfl, his, hjs⟩
      cases is with
      | nil => exact hjs
      | cons i is => exact his.elim
  | cons d ds ih =>
    constructor
    · intro h
      cases idx with
      | nil => exact h.elim
      | cons i idx =>
        obtain ⟨is, js, rfl, his, hjs⟩ := ih.mp h.2
        exact ⟨i :: is, js, rfl, ⟨h.1, his⟩, hjs⟩
    · rintro ⟨is, js, rfl, his, hjs⟩
      cases is with
      | nil => exact his.elim
      | cons i is => exact ⟨his.1, ih.mpr ⟨is, js, rfl, his.2, hjs⟩⟩

theorem within_pair_iff {m n : Nat} {idx : List Nat} :
    Within [m, n] idx ↔ ∃ i j, idx = [i, j] ∧ i < m ∧ j < n := by
  constructor
  · intro h
    obtain _ | ⟨i, _ | ⟨j, _ | ⟨k, ks⟩⟩⟩ := idx
    · exact h.elim
    · exact h.2.elim
    · exact ⟨i, j, rfl, h.1, h.2.1⟩
    · exact h.2.2.elim
  · rintro ⟨i, j, rfl, hi, hj⟩
    exact ⟨hi, hj, trivial⟩

/-- Joined multi-indices name a block and a place in it. -/
theorem ravel_append {s : Shape} {is : List Nat} (h : s.Within is) (t : Shape) (js : List Nat) :
    ravel (s ++ t) (is ++ js) = s.ravel is * t.size + t.ravel js := by
  induction s generalizing is with
  | nil => cases is with
    | nil => simp [ravel]
    | cons i is => exact h.elim
  | cons d ds ih => cases is with
    | nil => exact h.elim
    | cons i is =>
      rw [List.cons_append, List.cons_append, ravel, ravel, ih h.2, size_append, Nat.add_mul, Nat.mul_assoc,
        Nat.add_assoc]

theorem ravel_singleton (n i : Nat) : ravel [n] [i] = i := by
  simp [ravel]

theorem ravel_pair (m n i j : Nat) : ravel [m, n] [i, j] = i * n + j := by
  simp [ravel]

theorem pair_lt {m n i j : Nat} (hi : i < m) (hj : j < n) : i * n + j < m * n := by
  have hrow := Nat.mul_le_mul_right n (Nat.succ_le_of_lt hi)
  rw [Nat.succ_mul] at hrow
  omega

/-- A place in a run of blocks of one size is a block and a place in it. -/
theorem div_mod_block {size place : Nat} (h : place < size) (block : Nat) :
    (block * size + place) / size = block ∧ (block * size + place) % size = place := by
  rw [Nat.mul_comm block]
  refine ⟨?_, ?_⟩
  · rw [Nat.mul_add_div (by omega), Nat.div_eq_of_lt h, Nat.add_zero]
  · rw [Nat.mul_add_mod, Nat.mod_eq_of_lt h]

/-- A shape with two axes or more, cut in front of the last two. -/
theorem exists_append_pair {s : Shape} (h : 2 ≤ s.length) : ∃ lead r c, s = lead ++ [r, c] := by
  have htail : (s.drop (s.length - 2)).length = 2 := by
    rw [List.length_drop]
    omega
  obtain ⟨r, c, hpair⟩ := List.length_eq_two.mp htail
  exact ⟨s.take (s.length - 2), r, c, by rw [← hpair, List.take_append_drop]⟩

end Shape

namespace Tensor

variable {α : Type} [Zero α]

theorem swapShape_append_pair (lead : Shape) (r c : Nat) : swapShape (lead ++ [r, c]) = lead ++ [c, r] := by
  induction lead with
  | nil => rfl
  | cons d ds ih =>
    have hcons : swapShape (d :: (ds ++ [r, c])) = d :: swapShape (ds ++ [r, c]) := by
      cases ds with
      | nil => rfl
      | cons e es => cases es <;> rfl
    rw [List.cons_append, hcons, ih, List.cons_append]

/-- The place in a row of `r × c` blocks from which the transposed row of blocks takes its place `k`. -/
def swapPlace (r c k : Nat) : Nat :=
  let inside := k % (r * c)
  k / (r * c) * (r * c) + inside % r * c + inside / r

/-- The element in row `j` and column `i` of a transposed block is taken from row `i` and column `j`. -/
theorem swapPlace_block {r c i j : Nat} (hi : i < r) (hj : j < c) (block : Nat) :
    swapPlace r c (block * (c * r) + (j * r + i)) = block * (r * c) + (i * c + j) := by
  obtain ⟨hblock, hplace⟩ := Shape.div_mod_block (Shape.pair_lt hj hi) block
  obtain ⟨hcol, hrow⟩ := Shape.div_mod_block hi j
  simp only [swapPlace]
  rw [Nat.mul_comm r c, hblock, hplace, hcol, hrow, Nat.add_assoc]

/-- A fold comes to what one of its steps brings about, if the others keep it. -/
theorem foldl_of_mem {σ ι : Type} {step : σ → ι → σ} {Start Goal : σ → Prop} {x : ι} {l : List ι} (hx : x ∈ l)
    (hstart : ∀ i ∈ l, ∀ s, Start s → Start (step s i)) (hgoal : ∀ i ∈ l, ∀ s, Goal s → Goal (step s i))
    (hstep : ∀ s, Start s → Goal (step s x)) {s : σ} (hs : Start s) : Goal (l.foldl step s) := by
  obtain ⟨before, after, rfl⟩ := List.append_of_mem hx
  rw [List.foldl_append, List.foldl_cons]
  have hbefore : Start (before.foldl step s) :=
    List.foldlRecOn before step hs fun s hs i hi => hstart i (List.mem_append_left _ hi) s hs
  exact List.foldlRecOn after step (hstep _ hbefore) fun s hs i hi =>
    hgoal i (List.mem_append_right _ (List.mem_cons_of_mem _ hi)) s hs

theorem size_foldl {α : Type} {step : Array α → Nat → Array α} (h : ∀ out i, (step out i).size = out.size)
    (l : List Nat) (out : Array α) : (l.foldl step out).size = out.size :=
  List.foldlRecOn (motive := fun result => result.size = out.size) l step rfl fun result hsize i _ =>
    (h result i).trans hsize

section

variable {t : Tensor α} {r c : Nat} {out : Array α}

/-- An array of `n` elements that has the transposed element at a place already. -/
def Swapped (t : Tensor α) (r c n k : Nat) (out : Array α) : Prop :=
  out.size = n ∧ out[k]? = some (t.flat (swapPlace r c k))

variable {n k block i j : Nat}

theorem writeEntry_eq (hi : i < r) (hj : j < c) :
    t.writeEntry r c block i out j =
      let place := block * (c * r) + (j * r + i)
      out.setIfInBounds place (t.flat (swapPlace r c place)) := by
  dsimp only
  rw [swapPlace_block hi hj, writeEntry, Nat.mul_comm c r]

theorem size_writeEntry (out : Array α) (j : Nat) : (t.writeEntry r c block i out j).size = out.size :=
  Array.size_setIfInBounds

theorem size_writeRow (out : Array α) (i : Nat) : (t.writeRow r c block out i).size = out.size :=
  size_foldl size_writeEntry _ out

theorem size_writeBlock (out : Array α) (block : Nat) : (t.writeBlock r c out block).size = out.size :=
  size_foldl size_writeRow _ out

/-- A write to a place is the one that belongs there, so nothing that is in place already is lost. -/
theorem Swapped.writeEntry (hi : i < r) (hj : j < c) (h : t.Swapped r c n k out) :
    t.Swapped r c n k (t.writeEntry r c block i out j) := by
  refine ⟨(size_writeEntry out j).trans h.1, ?_⟩
  have hplace : k < out.size := (Array.getElem?_eq_some_iff.mp h.2).1
  rw [writeEntry_eq hi hj, Array.getElem?_setIfInBounds]
  split
  · next heq => rw [heq, if_pos hplace]
  · exact h.2

theorem swapped_writeEntry (hi : i < r) (hj : j < c) (hk : k = block * (c * r) + (j * r + i)) (hplace : k < n)
    (hsize : out.size = n) : t.Swapped r c n k (t.writeEntry r c block i out j) := by
  refine ⟨(size_writeEntry out j).trans hsize, ?_⟩
  rw [writeEntry_eq hi hj, ← hk, Array.getElem?_setIfInBounds_self_of_lt (hsize ▸ hplace)]

theorem Swapped.writeRow (hi : i < r) (h : t.Swapped r c n k out) : t.Swapped r c n k (t.writeRow r c block out i) :=
  List.foldlRecOn _ _ h fun _ h _ hj => h.writeEntry hi (List.mem_range.mp hj)

theorem swapped_writeRow (hi : i < r) (hj : j < c) (hk : k = block * (c * r) + (j * r + i)) (hplace : k < n)
    (hsize : out.size = n) : t.Swapped r c n k (t.writeRow r c block out i) :=
  foldl_of_mem (List.mem_range.mpr hj) (fun j _ out h => (size_writeEntry out j).trans h)
    (fun _ hj _ => Swapped.writeEntry hi (List.mem_range.mp hj)) (fun _ => swapped_writeEntry hi hj hk hplace) hsize

theorem Swapped.writeBlock (h : t.Swapped r c n k out) : t.Swapped r c n k (t.writeBlock r c out block) :=
  List.foldlRecOn _ _ h fun _ h _ hi => h.writeRow (List.mem_range.mp hi)

theorem swapped_writeBlock (hi : i < r) (hj : j < c) (hk : k = block * (c * r) + (j * r + i)) (hplace : k < n)
    (hsize : out.size = n) : t.Swapped r c n k (t.writeBlock r c out block) :=
  foldl_of_mem (List.mem_range.mpr hi) (fun i _ out h => (size_writeRow out i).trans h)
    (fun _ hi _ => Swapped.writeRow (List.mem_range.mp hi)) (fun _ => swapped_writeRow hi hj hk hplace) hsize

/-- The writes for all blocks put every element in place. -/
theorem swapped_writeBlocks {blocks : Nat} (hk : k < blocks * (c * r)) (hplaces : k < n) (hsize : out.size = n) :
    t.Swapped r c n k ((List.range blocks).foldl (t.writeBlock r c) out) := by
  have hpos : 0 < c * r := Nat.pos_of_mul_pos_left (Nat.zero_lt_of_lt hk)
  have hr : 0 < r := Nat.pos_of_mul_pos_left hpos
  have hblock : k / (c * r) < blocks := Nat.div_lt_of_lt_mul (Nat.mul_comm blocks _ ▸ hk)
  have hi : k % (c * r) % r < r := Nat.mod_lt _ hr
  have hj : k % (c * r) / r < c := Nat.div_lt_of_lt_mul (Nat.mul_comm c r ▸ Nat.mod_lt k hpos)
  have hplace : k = k / (c * r) * (c * r) + (k % (c * r) / r * r + k % (c * r) % r) := by
    rw [Nat.div_add_mod', Nat.div_add_mod']
  exact foldl_of_mem (List.mem_range.mpr hblock) (fun block _ out h => (size_writeBlock out block).trans h)
    (fun _ _ _ => Swapped.writeBlock) (fun _ => swapped_writeBlock hi hj hplace hplaces) hsize

end

theorem transpose_of_rank_lt {t : Tensor α} (h : t.rank < 2) : t.transpose = t := by
  obtain ⟨shape, data⟩ := t
  match shape, h with
  | [], _ => rfl
  | [_], _ => rfl

theorem transpose_eq_generate {t : Tensor α} (lead : Shape) {r c : Nat} (hshape : t.shape = lead ++ [r, c]) :
    t.transpose = generate (lead ++ [c, r]) fun k => t.flat (swapPlace r c k) := by
  have hreverse : t.shape.reverse = c :: r :: lead.reverse := by
    rw [hshape, List.reverse_append]
    rfl
  have hsize : t.shape.size = lead.size * (r * c) := by
    rw [hshape, Shape.size_append, Shape.size_pair]
  have hsame : t.shape.size = Shape.size (lead ++ [c, r]) := by
    rw [hsize, Shape.size_append, Shape.size_pair, Nat.mul_comm c r]
  rw [transpose, hreverse]
  dsimp only
  rw [hshape, swapShape_append_pair, ← hshape]
  refine (generate_eq ?_ fun k hk => ?_).symm
  · rw [size_foldl size_writeBlock, Array.size_replicate, hsame]
  · rw [size_foldl size_writeBlock, Array.size_replicate] at hk
    have hfull : 0 < r * c := Nat.pos_of_mul_pos_left (hsize ▸ Nat.zero_lt_of_lt hk)
    have hblocks : (if r * c = 0 then 0 else t.shape.size / (r * c)) * (c * r) = t.shape.size := by
      rw [if_neg hfull.ne', hsize, Nat.mul_div_cancel _ hfull, Nat.mul_comm c r]
    have hzeros : (Array.replicate t.shape.size (0 : α)).size = t.shape.size := Array.size_replicate
    obtain ⟨-, hswapped⟩ := swapped_writeBlocks (t := t) (hblocks.symm ▸ hk) hk hzeros
    exact (Array.getElem?_eq_some_iff.mp hswapped).2.symm

theorem shape_transpose {t : Tensor α} (lead : Shape) {r c : Nat} (hshape : t.shape = lead ++ [r, c]) :
    t.transpose.shape = lead ++ [c, r] := by
  rw [transpose_eq_generate lead hshape, shape_generate]

theorem WellFormed.transpose {t : Tensor α} (ht : t.WellFormed) : t.transpose.WellFormed := by
  by_cases hrank : t.rank < 2
  · rwa [transpose_of_rank_lt hrank]
  · obtain ⟨lead, r, c, hshape⟩ := Shape.exists_append_pair (Nat.not_lt.mp hrank)
    rw [transpose_eq_generate lead hshape]
    exact wellFormed_generate _ _

/-- Places of a transposed array with two axes. -/
theorem flat_transpose {t : Tensor α} {r c i j : Nat} (hshape : t.shape = [r, c]) (hi : i < r) (hj : j < c) :
    t.transpose.flat (j * r + i) = t.flat (i * c + j) := by
  have hplace : j * r + i < Shape.size [c, r] := by
    simpa using Shape.pair_lt hj hi
  have hswap := swapPlace_block hi hj 0
  rw [Nat.zero_mul, Nat.zero_add, Nat.zero_mul, Nat.zero_add] at hswap
  rw [transpose_eq_generate [] hshape]
  exact (flat_generate _ hplace).trans (congrArg t.flat hswap)

theorem rank_transpose (t : Tensor α) : t.transpose.rank = t.rank := by
  by_cases hrank : t.rank < 2
  · rw [transpose_of_rank_lt hrank]
  · obtain ⟨lead, r, c, hshape⟩ := Shape.exists_append_pair (Nat.not_lt.mp hrank)
    rw [rank, shape_transpose lead hshape, rank, hshape, List.length_append, List.length_append]
    rfl

theorem shape_transpose_eq_reverse {t : Tensor α} (h : t.rank = 1 ∨ t.rank = 2) :
    t.transpose.shape = t.shape.reverse := by
  rcases h with hrank | hrank
  · obtain ⟨k, hshape⟩ := List.length_eq_one_iff.mp hrank
    rw [transpose_of_rank_lt (by omega), hshape]
    rfl
  · obtain ⟨r, c, hshape⟩ := List.length_eq_two.mp hrank
    rw [shape_transpose [] hshape, hshape]
    rfl

/-- The element in row `j` and column `i` of a block of the transposed array is the one in row `i` and column `j`. -/
theorem hasEntry_transpose {t : Tensor α} (ht : t.WellFormed) {lead : Shape} {r c : Nat}
    (hshape : t.shape = lead ++ [r, c]) {idx : List Nat} {i j : Nat} (hidx : lead.Within idx) (hi : i < r) (hj : j < c) :
    ∃ x, t.HasEntry (idx ++ [i, j]) x ∧ t.transpose.HasEntry (idx ++ [j, i]) x := by
  have hwithin : t.shape.Within (idx ++ [i, j]) := by
    rw [hshape]
    exact Shape.within_append_iff.mpr ⟨idx, [i, j], rfl, hidx, hi, hj, trivial⟩
  have hswapped : Shape.Within (lead ++ [c, r]) (idx ++ [j, i]) :=
    Shape.within_append_iff.mpr ⟨idx, [j, i], rfl, hidx, hj, hi, trivial⟩
  have hplace : swapPlace r c (Shape.ravel (lead ++ [c, r]) (idx ++ [j, i])) = t.shape.ravel (idx ++ [i, j]) := by
    rw [hshape, Shape.ravel_append hidx, Shape.ravel_append hidx, Shape.ravel_pair, Shape.ravel_pair]
    simpa using swapPlace_block hi hj (lead.ravel idx)
  refine ⟨_, ht.hasEntry hwithin, ?_⟩
  rw [transpose_eq_generate lead hshape, ← hplace]
  exact hasEntry_generate hswapped

omit [Zero α] in
theorem HasEntry.unique {t : Tensor α} {idx : List Nat} {x y : α} (hx : t.HasEntry idx x) (hy : t.HasEntry idx y) :
    x = y :=
  Option.some.inj (hx.2.symm.trans hy.2)

/-- Well-formed arrays of one shape are equal when every multi-index has one element in both. -/
theorem ext_hasEntry {t u : Tensor α} (ht : t.WellFormed) (hu : u.WellFormed) (hshape : t.shape = u.shape)
    (hentries : ∀ idx, t.shape.Within idx → ∃ x, t.HasEntry idx x ∧ u.HasEntry idx x) : t = u := by
  refine ext_entry ht hu hshape fun idx hidx => ?_
  obtain ⟨x, hx, hy⟩ := hentries idx hidx
  have hleft := (ht.hasEntry hidx).unique hx
  have hright := (hu.hasEntry hy.1).unique hy
  rw [Tensor.entry, Tensor.entry, hleft, hright]

theorem transpose_transpose {t : Tensor α} (ht : t.WellFormed) : t.transpose.transpose = t := by
  by_cases hrank : t.rank < 2
  · rw [transpose_of_rank_lt hrank, transpose_of_rank_lt hrank]
  · obtain ⟨lead, r, c, hshape⟩ := Shape.exists_append_pair (Nat.not_lt.mp hrank)
    have hswapped := shape_transpose lead hshape
    have hback := shape_transpose lead hswapped
    refine ext_hasEntry ht.transpose.transpose ht (by rw [hback, hshape]) fun idx hidx => ?_
    rw [hback] at hidx
    obtain ⟨is, pair, rfl, his, hpair⟩ := Shape.within_append_iff.mp hidx
    obtain ⟨i, j, rfl, hi, hj⟩ := Shape.within_pair_iff.mp hpair
    obtain ⟨x, hx, hx'⟩ := hasEntry_transpose ht hshape his hi hj
    obtain ⟨y, hy, hy'⟩ := hasEntry_transpose ht.transpose hswapped his hj hi
    obtain rfl := hx'.unique hy
    exact ⟨x, hy', hx⟩

/-- Transposition swaps the last two axes of a well-formed array of any rank and leaves an array with fewer axes as it
    is. The element at `(.., j, i)` is the one that stood at `(.., i, j)`, and a second transposition takes the first one
    back. -/
theorem transpose_spec {t : Tensor α} (ht : t.WellFormed) :
    t.transpose.WellFormed ∧ (t.rank < 2 → t.transpose = t) ∧
      (2 ≤ t.rank → ∃ (lead : Shape) (r c : Nat), t.shape = lead ++ [r, c] ∧ t.transpose.shape = lead ++ [c, r] ∧
        ∀ idx i j, lead.Within idx → i < r → j < c →
          ∃ x, t.HasEntry (idx ++ [i, j]) x ∧ t.transpose.HasEntry (idx ++ [j, i]) x) ∧
      t.transpose.transpose = t := by
  refine ⟨ht.transpose, transpose_of_rank_lt, fun hrank => ?_, transpose_transpose ht⟩
  obtain ⟨lead, r, c, hshape⟩ := Shape.exists_append_pair hrank
  exact ⟨lead, r, c, hshape, shape_transpose lead hshape, fun idx i j => hasEntry_transpose ht hshape⟩

/-- Two blocks of one row and three columns become two blocks of three rows and one column. -/
theorem transpose_spec_blocks :
    let t : Tensor Nat := ⟨[2, 1, 3], #[1, 2, 3, 4, 5, 6]⟩
    t.WellFormed ∧ 2 ≤ t.rank ∧ t.transpose.shape = [2, 3, 1] ∧ t.transpose.HasEntry [1, 2, 0] 6 ∧
      t.transpose.transpose = t := by
  intro t
  have ht : t.WellFormed := by decide
  have hrank : 2 ≤ t.rank := by decide
  obtain ⟨-, -, hswap, hback⟩ := transpose_spec ht
  obtain ⟨lead, r, c, hshape, hswapped, hentries⟩ := hswap hrank
  obtain ⟨hlead, hpair⟩ : [2] = lead ∧ [1, 3] = [r, c] := List.append_inj' hshape rfl
  obtain ⟨rfl, rfl⟩ : 1 = r ∧ 3 = c := by simpa using hpair
  subst hlead
  obtain ⟨x, hx, hx'⟩ := hentries [1] 0 2 ⟨by decide, trivial⟩ (by decide) (by decide)
  obtain rfl : x = 6 := hx.unique ⟨hx.1, rfl⟩
  exact ⟨ht, hrank, hswapped, hx', hback⟩

end Tensor

end ArrayCalc
