import ArrayCalc.Tensor.Nested
import ArrayCalc.Proofs.Except

namespace ArrayCalc

/-- The places of a block are those of its parts, one part after the other. -/
theorem Shape.range'_mul (start d n : Nat) :
    List.range' start (d * n) = (List.range d).flatMap fun i => List.range' (start + i * n) n := by
  induction d with
  | zero => simp
  | succ d ih =>
    rw [Nat.succ_mul, ← List.range'_append_1, ih, List.range_succ, List.flatMap_append, List.flatMap_singleton]

theorem map_getD_range' {α : Type} (xs : Array α) (default : α) :
    (List.range' 0 xs.size).map (fun k => xs.getD k default) = xs.toList := by
  apply List.ext_getElem
  · simp
  · intro k hk hk'
    have hbound : k < xs.size := hk'
    simp [hbound]

namespace Nested

variable {α : Type}

/-- What stands inside a given number of lists, from left to right. -/
def level : Nat → Nested α → List (Nested α)
  | 0, v => [v]
  | _ + 1, leaf _ => []
  | k + 1, list items => items.flatMap (level k)

/-- All values stand inside one number of lists, the lists at one depth have one length, and lists without items are as
    deep as lists of values. -/
structure RectangularAt (v : Nested α) (rank : Nat) : Prop where
  leaves : ∀ k x, leaf x ∈ v.level k → k = rank
  empties : ∀ k, list [] ∈ v.level k → k + 1 = rank
  lengths : ∀ k xs ys, list xs ∈ v.level k → list ys ∈ v.level k → xs.length = ys.length

def Rectangular (v : Nested α) : Prop :=
  ∃ rank, v.RectangularAt rank

/-- The lists at each depth have the length that a shape has there, and values stand inside as many lists as the shape
    has axes. -/
structure Fits (v : Nested α) (s : Shape) : Prop where
  leaves : ∀ k x, leaf x ∈ v.level k → k = s.length
  lists : ∀ k xs, list xs ∈ v.level k → s[k]? = some xs.length

variable {u v w : Nested α} {items xs : List (Nested α)} {s ds : Shape} {d j k rank : Nat} {values : List α}

theorem mem_level_zero : u ∈ v.level 0 ↔ u = v := by
  rw [level, List.mem_singleton]

theorem mem_level_list : u ∈ (list items).level (k + 1) ↔ ∃ v ∈ items, u ∈ v.level k := by
  rw [level, List.mem_flatMap]

theorem notMem_level_leaf {x : α} : u ∉ (leaf x).level (k + 1) := by
  rw [level]
  exact List.not_mem_nil

theorem mem_level_add (hu : u ∈ v.level k) (hw : w ∈ u.level j) : w ∈ v.level (k + j) := by
  induction k generalizing v with
  | zero =>
    rw [mem_level_zero] at hu
    rwa [Nat.zero_add, ← hu]
  | succ k ih =>
    cases v with
    | leaf x => exact absurd hu notMem_level_leaf
    | list items =>
      obtain ⟨item, hitem, hu⟩ := mem_level_list.mp hu
      rw [Nat.succ_add]
      exact mem_level_list.mpr ⟨item, hitem, ih hu⟩

/-- The way down along first items ends at a value or at an empty list. -/
theorem exists_end (v : Nested α) : (∃ x, leaf x ∈ v.level v.leadingShape.length) ∨
    ∃ k, k + 1 = v.leadingShape.length ∧ list [] ∈ v.level k := by
  fun_induction leadingShape v with
  | case1 x => exact .inl ⟨x, mem_level_zero.mpr rfl⟩
  | case2 => exact .inr ⟨0, rfl, mem_level_zero.mpr rfl⟩
  | case3 first rest ih =>
    rw [List.length_cons]
    obtain ⟨x, hx⟩ | ⟨k, hk, hempty⟩ := ih
    · exact .inl ⟨x, mem_level_list.mpr ⟨first, List.mem_cons_self, hx⟩⟩
    · exact .inr ⟨k + 1, congrArg (· + 1) hk, mem_level_list.mpr ⟨first, List.mem_cons_self, hempty⟩⟩

/-- The lengths met on the way down are those of lists at each depth. -/
theorem exists_list_of_lt (hk : k < v.leadingShape.length) :
    ∃ xs, list xs ∈ v.level k ∧ v.leadingShape[k]? = some xs.length := by
  fun_induction leadingShape v generalizing k with
  | case1 x => exact absurd hk (Nat.not_lt_zero k)
  | case2 =>
    obtain rfl : k = 0 := Nat.lt_one_iff.mp hk
    exact ⟨[], mem_level_zero.mpr rfl, rfl⟩
  | case3 first rest ih =>
    cases k with
    | zero => exact ⟨first :: rest, mem_level_zero.mpr rfl, rfl⟩
    | succ k =>
      obtain ⟨xs, hxs, hlength⟩ := ih (Nat.lt_of_succ_lt_succ hk)
      exact ⟨xs, mem_level_list.mpr ⟨first, List.mem_cons_self, hxs⟩, hlength⟩

theorem last_of_leadingShape_zero (h : v.leadingShape[k]? = some 0) : k + 1 = v.leadingShape.length := by
  fun_induction leadingShape v generalizing k with
  | case1 x => cases h
  | case2 =>
    cases k with
    | zero => rfl
    | succ k => cases h
  | case3 first rest ih =>
    cases k with
    | zero => cases h
    | succ k => exact congrArg (· + 1) (ih h)

theorem leadingShape_list_pos (items : List (Nested α)) : 0 < (list items).leadingShape.length := by
  cases items <;> exact Nat.succ_pos _

theorem RectangularAt.lt_rank (h : v.RectangularAt rank) (hxs : list xs ∈ v.level k) : k < rank := by
  obtain ⟨x, hx⟩ | ⟨j, -, hempty⟩ := exists_end (list xs)
  · have hdepth := h.leaves _ x (mem_level_add hxs hx)
    have hpos := leadingShape_list_pos xs
    omega
  · have hdepth := h.empties _ (mem_level_add hxs hempty)
    omega

theorem RectangularAt.length_leadingShape (h : v.RectangularAt rank) : v.leadingShape.length = rank := by
  obtain ⟨x, hx⟩ | ⟨k, hk, hempty⟩ := exists_end v
  · exact h.leaves _ x hx
  · rw [← hk]
    exact h.empties k hempty

theorem RectangularAt.fits (h : v.RectangularAt rank) : v.Fits v.leadingShape := by
  refine ⟨fun k x hx => ?_, fun k xs hxs => ?_⟩
  · rw [h.length_leadingShape]
    exact h.leaves k x hx
  · obtain ⟨ys, hys, hlength⟩ := exists_list_of_lt (h.length_leadingShape.symm ▸ h.lt_rank hxs)
    rw [hlength, h.lengths k ys xs hys hxs]

theorem Fits.rectangularAt (h : v.Fits v.leadingShape) : v.RectangularAt v.leadingShape.length := by
  refine ⟨h.leaves, fun k hempty => last_of_leadingShape_zero (h.lists k [] hempty), fun k xs ys hxs hys => ?_⟩
  have hlengths := (h.lists k xs hxs).symm.trans (h.lists k ys hys)
  exact Option.some.inj hlengths

theorem Fits.item (h : (list items).Fits (d :: ds)) (hv : v ∈ items) : v.Fits ds := by
  refine ⟨fun k x hx => ?_, fun k xs hxs => ?_⟩
  · exact Nat.succ.inj (h.leaves (k + 1) x (mem_level_list.mpr ⟨v, hv, hx⟩))
  · exact h.lists (k + 1) xs (mem_level_list.mpr ⟨v, hv, hxs⟩)

/-- A list of nested values has the lengths of a shape if it has the first, and its items have the others. -/
theorem flatten?_list_eq_some_iff : (list items).flatten? (d :: ds) = some values ↔
    items.length = d ∧ ∃ xss, List.Forall₂ (fun v ys => v.flatten? ds = some ys) items xss ∧ values = xss.flatten := by
  simp only [flatten?, Option.ite_none_right_eq_some, Option.map_eq_some_iff, mapM_eq_some_iff_forall₂,
    eq_comm (a := values)]

theorem exists_of_flatten?_cons (h : v.flatten? (d :: ds) = some values) :
    ∃ items xss, v = list items ∧ items.length = d ∧
      List.Forall₂ (fun item ys => item.flatten? ds = some ys) items xss ∧ values = xss.flatten := by
  cases v with
  | leaf x =>
    rw [flatten?] at h
    · cases h
    · simp
    · simp
  | list items =>
    obtain ⟨hlength, xss, hxss, rfl⟩ := flatten?_list_eq_some_iff.mp h
    exact ⟨items, xss, rfl, hlength, hxss, rfl⟩

theorem eq_leaf_of_flatten?_nil (h : v.flatten? [] = some values) : ∃ x, v = leaf x ∧ values = [x] := by
  cases v with
  | leaf x => exact ⟨x, rfl, by simpa [flatten?, eq_comm] using h⟩
  | list items => simp [flatten?] at h

theorem Fits.exists_flatten? (h : v.Fits s) : ∃ values, v.flatten? s = some values := by
  induction s generalizing v with
  | nil =>
    cases v with
    | leaf x => exact ⟨[x], rfl⟩
    | list items => cases h.lists 0 items (mem_level_zero.mpr rfl)
  | cons d ds ih =>
    cases v with
    | leaf x => cases h.leaves 0 x (mem_level_zero.mpr rfl)
    | list items =>
      have hlength : d = items.length := Option.some.inj (h.lists 0 items (mem_level_zero.mpr rfl))
      obtain ⟨xss, hxss⟩ := exists_forall₂_iff.mpr fun item hitem => ih (h.item hitem)
      exact ⟨xss.flatten, flatten?_list_eq_some_iff.mpr ⟨hlength.symm, xss, hxss, rfl⟩⟩

theorem fits_of_flatten? (h : v.flatten? s = some values) : v.Fits s := by
  induction s generalizing v values with
  | nil =>
    obtain ⟨x, rfl, -⟩ := eq_leaf_of_flatten?_nil h
    refine ⟨fun k y hy => ?_, fun k xs hxs => ?_⟩
    · cases k with
      | zero => rfl
      | succ k => exact absurd hy notMem_level_leaf
    · cases k with
      | zero => cases mem_level_zero.mp hxs
      | succ k => exact absurd hxs notMem_level_leaf
  | cons d ds ih =>
    obtain ⟨items, xss, rfl, rfl, hxss, -⟩ := exists_of_flatten?_cons h
    have hitem : ∀ item ∈ items, item.Fits ds := by
      intro item hitem
      obtain ⟨ys, -, hys⟩ := exists_of_mem_forall₂ hxss.flip item hitem
      exact ih hys
    refine ⟨fun k x hx => ?_, fun k xs hxs => ?_⟩
    · cases k with
      | zero => cases mem_level_zero.mp hx
      | succ k =>
        obtain ⟨item, hmem, hx⟩ := mem_level_list.mp hx
        exact congrArg (· + 1) ((hitem item hmem).leaves k x hx)
    · cases k with
      | zero =>
        cases mem_level_zero.mp hxs
        rfl
      | succ k =>
        obtain ⟨item, hmem, hxs⟩ := mem_level_list.mp hxs
        exact (hitem item hmem).lists k xs hxs

/-- Nested values are rectangular exactly if they have the lengths met along first items everywhere. -/
theorem rectangular_iff : v.Rectangular ↔ ∃ values, v.flatten? v.leadingShape = some values :=
  ⟨fun ⟨_, h⟩ => h.fits.exists_flatten?, fun ⟨_, h⟩ => ⟨_, (fits_of_flatten? h).rectangularAt⟩⟩

theorem length_of_flatten? (h : v.flatten? s = some values) : values.length = Shape.size s := by
  induction s generalizing v values with
  | nil =>
    obtain ⟨x, -, rfl⟩ := eq_leaf_of_flatten?_nil h
    rfl
  | cons d ds ih =>
    obtain ⟨items, xss, -, rfl, hxss, rfl⟩ := exists_of_flatten?_cons h
    have hblocks : ∀ ys ∈ xss, ys.length = Shape.size ds := by
      intro ys hys
      obtain ⟨item, -, hitem⟩ := exists_of_mem_forall₂ hxss ys hys
      exact ih hitem
    rw [List.length_flatten, List.map_congr_left hblocks, List.map_const', List.sum_replicate, ← hxss.length_eq,
      Shape.size_cons, smul_eq_mul]

/-- Nested values of one shape are known by their values in order. -/
theorem flatten?_inj (hv : v.flatten? s = some values) (hw : w.flatten? s = some values) : v = w := by
  induction s generalizing v w values with
  | nil =>
    obtain ⟨x, rfl, rfl⟩ := eq_leaf_of_flatten?_nil hv
    obtain ⟨y, rfl, hy⟩ := eq_leaf_of_flatten?_nil hw
    rw [List.singleton_inj.mp hy]
  | cons d ds ih =>
    obtain ⟨items, xss, rfl, hitems, hxss, rfl⟩ := exists_of_flatten?_cons hv
    obtain ⟨items', yss, rfl, hitems', hyss, hflatten⟩ := exists_of_flatten?_cons hw
    have hblocks {items : List (Nested α)} {xss : List (List α)}
        (h : List.Forall₂ (fun item ys => item.flatten? ds = some ys) items xss) : ∀ ys ∈ xss, ys.length = Shape.size ds := by
      intro ys hys
      obtain ⟨item, -, hitem⟩ := exists_of_mem_forall₂ h ys hys
      exact length_of_flatten? hitem
    have hlengths : xss.map List.length = yss.map List.length := by
      rw [List.map_congr_left (hblocks hxss), List.map_congr_left (hblocks hyss), List.map_const', List.map_const',
        ← hxss.length_eq, ← hyss.length_eq, hitems, hitems']
    obtain rfl : xss = yss := List.eq_iff_flatten_eq.mpr ⟨hflatten, hlengths⟩
    have hsame := forall₂_trans hxss hyss.flip fun item _ ys item' hitem hitem' => ih hitem hitem'
    rw [List.forall₂_eq_eq_eq] at hsame
    rw [hsame]

end Nested

namespace Tensor

open Nested

variable {α : Type} {t : Tensor α} {s : Shape} {start : Nat} {v : Nested α}

theorem ofNested_of_flatten? {values : List α} (h : v.flatten? v.leadingShape = some values) :
    ofNested v = .ok ⟨v.leadingShape, values.toArray⟩ := by
  rw [ofNested, h]

theorem shape_of_ofNested (h : ofNested v = .ok t) : v.leadingShape = t.shape := by
  rw [ofNested] at h
  split at h <;> cases h
  rfl

variable [Zero α]

theorem flatten?_nestedFrom (t : Tensor α) (s : Shape) (start : Nat) :
    (t.nestedFrom s start).flatten? s = some ((List.range' start s.size).map t.flat) := by
  induction s generalizing start with
  | nil => rfl
  | cons d ds ih =>
    rw [nestedFrom, flatten?_list_eq_some_iff, List.length_map, List.length_range]
    refine ⟨rfl, (List.range d).map fun i => (List.range' (start + i * Shape.size ds) (Shape.size ds)).map t.flat, ?_, ?_⟩
    · rw [List.forall₂_map_left_iff, List.forall₂_map_right_iff, List.forall₂_same]
      exact fun i _ => ih _
    · rw [Shape.size_cons, Shape.range'_mul, List.map_flatMap, List.flatMap_def]

theorem leadingShape_nestedFrom (h : 0 ∉ s.dropLast) : (t.nestedFrom s start).leadingShape = s := by
  induction s generalizing start with
  | nil => rfl
  | cons d ds ih =>
    cases d with
    | zero =>
      obtain rfl : ds = [] := by
        cases ds with
        | nil => rfl
        | cons d ds => exact absurd List.mem_cons_self h
      rfl
    | succ d =>
      have hds : 0 ∉ ds.dropLast := by
        cases ds with
        | nil => exact List.not_mem_nil
        | cons d ds => exact fun hmem => h (List.mem_cons_of_mem _ hmem)
      rw [nestedFrom, List.range_succ_eq_map, List.map_cons, leadingShape, ih hds, List.length_map, List.length_map,
        List.length_range]

/-- Every way down along first items ends at the first empty list. -/
theorem zero_notMem_of_leadingShape (h : (t.nestedFrom s start).leadingShape = s) : 0 ∉ s.dropLast := by
  intro hzero
  obtain ⟨k, hk, hvalue⟩ := List.mem_iff_getElem.mp hzero
  rw [List.getElem_dropLast] at hvalue
  rw [List.length_dropLast] at hk
  have hlast : k + 1 = s.length := by
    rw [← h]
    apply last_of_leadingShape_zero
    rw [h, List.getElem?_eq_getElem (by omega), hvalue]
  omega

theorem WellFormed.flatten?_toNested (h : t.WellFormed) : t.toNested.flatten? t.shape = some t.data.toList := by
  rw [toNested, flatten?_nestedFrom, ← h]
  exact congrArg some (map_getD_range' t.data 0)

/-- The values of rectangular nested lists fill the array whose nesting they are. -/
theorem toNested_of_flatten? {values : List α} (h : v.flatten? s = some values) :
    (⟨s, values.toArray⟩ : Tensor α).WellFormed ∧ (⟨s, values.toArray⟩ : Tensor α).toNested = v := by
  have hfilled : (⟨s, values.toArray⟩ : Tensor α).WellFormed := by
    rw [WellFormed, List.size_toArray]
    exact length_of_flatten? h
  exact ⟨hfilled, flatten?_inj hfilled.flatten?_toNested h⟩

/-- Nested lists write an array exactly if they are rectangular, and they are the nesting of that array. The nesting of
    an array writes this array exactly if no axis but the last has size zero. -/
theorem ofNested_spec :
    (∀ v : Nested α, (v.Rectangular → ∃ t, ofNested v = .ok t ∧ t.WellFormed ∧ t.toNested = v) ∧
      (¬ v.Rectangular → ofNested v = .error .ragged)) ∧
    ∀ t : Tensor α, t.WellFormed → (ofNested t.toNested = .ok t ↔ 0 ∉ t.shape.dropLast) := by
  refine ⟨fun v => ⟨fun h => ?_, fun h => ?_⟩, fun t ht => ⟨fun h => ?_, fun h => ?_⟩⟩
  · obtain ⟨values, hvalues⟩ := rectangular_iff.mp h
    exact ⟨_, ofNested_of_flatten? hvalues, toNested_of_flatten? hvalues⟩
  · have hnone : v.flatten? v.leadingShape = none :=
      Option.eq_none_iff_forall_ne_some.mpr fun values hvalues => h (rectangular_iff.mpr ⟨values, hvalues⟩)
    rw [ofNested, hnone]
  · exact zero_notMem_of_leadingShape (shape_of_ofNested h)
  · have hshape : t.toNested.leadingShape = t.shape := leadingShape_nestedFrom h
    have hvalues := ht.flatten?_toNested
    rw [← hshape] at hvalues
    rw [ofNested_of_flatten? hvalues, hshape]

/-- Two rows of two, with a row that is too short, and with two rows without values. -/
theorem ofNested_spec_rows :
    let rows : Nested Float := .list [.list [.leaf 1, .leaf 2], .list [.leaf 3, .leaf 4]]
    let ragged : Nested Float := .list [.list [.leaf 1, .leaf 2], .list [.leaf 3]]
    let empty : Tensor Float := ⟨[2, 0], #[]⟩
    (rows.Rectangular ∧ ∃ t, ofNested rows = .ok t ∧ t.WellFormed ∧ t.toNested = rows) ∧
      (¬ ragged.Rectangular ∧ ofNested ragged = .error .ragged) ∧
      empty.WellFormed ∧ ofNested empty.toNested = .ok empty := by
  intro rows ragged empty
  have hrows : rows.Rectangular := rectangular_iff.mpr ⟨[1, 2, 3, 4], rfl⟩
  have hragged : ¬ ragged.Rectangular := by
    rintro ⟨rank, h⟩
    have hlengths := h.lengths 1 [.leaf 1, .leaf 2] [.leaf 3] (by simp [ragged, level]) (by simp [ragged, level])
    simp at hlengths
  exact ⟨⟨hrows, (ofNested_spec.1 rows).1 hrows⟩, ⟨hragged, (ofNested_spec.1 ragged).2 hragged⟩, rfl,
    (ofNested_spec.2 empty rfl).mpr (by decide)⟩

end Tensor

end ArrayCalc
