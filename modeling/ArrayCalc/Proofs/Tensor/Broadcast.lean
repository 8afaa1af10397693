import Mathlib
import ArrayCalc.Tensor.Broadcast

namespace ArrayCalc

namespace Shape

/-- The size of an axis, counted from the innermost one. The axes that a shape lacks have size one. -/
def axis (s : Shape) (i : Nat) : Nat :=
  s.reverse.getD i 1

theorem broadcastDim_eq_some_iff {a b c : Nat} :
    broadcastDim a b = some c ↔ (a = b ∨ a = 1 ∨ b = 1) ∧ c = if a = 1 then b else a := by
  grind [broadcastDim]

theorem broadcastDim_eq_none_iff {a b : Nat} : broadcastDim a b = none ↔ a ≠ b ∧ a ≠ 1 ∧ b ≠ 1 := by
  grind [broadcastDim]

/-- The common size of two axes is the size of each of them that is not one. -/
theorem eq_one_or_eq_of_broadcastDim {a b c : Nat} (h : broadcastDim a b = some c) :
    (a = 1 ∨ a = c) ∧ (b = 1 ∨ b = c) := by
  grind [broadcastDim]

theorem one_broadcastDim (b : Nat) : broadcastDim 1 b = some b :=
  rfl

theorem broadcastDim_one (a : Nat) : broadcastDim a 1 = some a := by
  grind [broadcastDim]

theorem broadcastInner_nil (as : Shape) : broadcastInner as [] = some as := by
  cases as <;> rfl

theorem broadcastInner_cons {a b : Nat} {as bs cs : Shape} :
    broadcastInner (a :: as) (b :: bs) = some cs ↔
      ∃ d ds, broadcastDim a b = some d ∧ broadcastInner as bs = some ds ∧ cs = d :: ds := by
  rw [broadcastInner, Option.bind_eq_bind, Option.bind_eq_some_iff]
  simp only [Option.bind_eq_bind, Option.bind_eq_some_iff, Option.some.injEq]
  constructor
  · rintro ⟨d, hd, ds, hds, rfl⟩
    exact ⟨d, ds, hd, hds, rfl⟩
  · rintro ⟨d, ds, hd, hds, rfl⟩
    exact ⟨d, hd, ds, hds, rfl⟩

private theorem eq_of_getD_eq {as bs : List Nat} (hlength : as.length = bs.length)
    (h : ∀ i, as.getD i 1 = bs.getD i 1) : as = bs := by
  apply List.ext_getElem hlength
  intro i hi hi'
  have hsame := h i
  rwa [List.getD_eq_getElem?_getD, List.getD_eq_getElem?_getD, List.getElem?_eq_getElem hi,
    List.getElem?_eq_getElem hi'] at hsame

/-- The common shape, axis by axis. -/
theorem broadcastInner_eq_some_iff {as bs cs : Shape} :
    broadcastInner as bs = some cs ↔
      cs.length = max as.length bs.length ∧ ∀ i, broadcastDim (as.getD i 1) (bs.getD i 1) = some (cs.getD i 1) := by
  induction as generalizing bs cs with
  | nil =>
    simp only [broadcastInner, List.getD_nil, one_broadcastDim, Option.some.injEq, List.length_nil, Nat.zero_max]
    exact ⟨fun h => h ▸ ⟨rfl, fun _ => rfl⟩, fun h => eq_of_getD_eq h.1.symm h.2⟩
  | cons a as ih =>
    cases bs with
    | nil =>
      simp only [broadcastInner_nil, List.getD_nil, broadcastDim_one, Option.some.injEq, List.length_nil, Nat.max_zero]
      exact ⟨fun h => h ▸ ⟨rfl, fun _ => rfl⟩, fun h => eq_of_getD_eq h.1.symm h.2⟩
    | cons b bs =>
      rw [broadcastInner_cons, List.length_cons, List.length_cons, Nat.add_max_add_right]
      constructor
      · rintro ⟨d, ds, hd, hds, rfl⟩
        obtain ⟨hlength, haxes⟩ := ih.mp hds
        refine ⟨by rw [List.length_cons, hlength], fun i => ?_⟩
        cases i with
        | zero => exact hd
        | succ i => exact haxes i
      · rintro ⟨hlength, haxes⟩
        cases cs with
        | nil => cases hlength
        | cons c cs =>
          exact ⟨c, cs, haxes 0, ih.mpr ⟨Nat.succ.inj hlength, fun i => haxes (i + 1)⟩, rfl⟩

/-- Shapes without a common one disagree at some axis. -/
theorem broadcastInner_eq_none_iff {as bs : Shape} :
    broadcastInner as bs = none ↔ ∃ i, broadcastDim (as.getD i 1) (bs.getD i 1) = none := by
  constructor
  · intro h
    induction as generalizing bs with
    | nil => cases h
    | cons a as ih =>
      cases bs with
      | nil => cases h
      | cons b bs =>
        cases hd : broadcastDim a b with
        | none => exact ⟨0, hd⟩
        | some d =>
          cases hds : broadcastInner as bs with
          | none =>
            obtain ⟨i, hi⟩ := ih hds
            exact ⟨i + 1, hi⟩
          | some ds =>
            rw [broadcastInner_cons.mpr ⟨d, ds, hd, hds, rfl⟩] at h
            cases h
  · rintro ⟨i, hi⟩
    cases h : broadcastInner as bs with
    | none => rfl
    | some cs =>
      rw [(broadcastInner_eq_some_iff.mp h).2 i] at hi
      cases hi

theorem broadcast?_eq_some_iff {a b c : Shape} :
    a.broadcast? b = some c ↔
      c.length = max a.length b.length ∧ ∀ i, broadcastDim (a.axis i) (b.axis i) = some (c.axis i) := by
  have hinner : a.broadcast? b = some c ↔ broadcastInner a.reverse b.reverse = some c.reverse := by
    rw [broadcast?, Option.map_eq_some_iff]
    constructor
    · rintro ⟨inner, hinner, rfl⟩
      rw [List.reverse_reverse, hinner]
    · intro h
      exact ⟨_, h, List.reverse_reverse c⟩
  rw [hinner, broadcastInner_eq_some_iff, List.length_reverse, List.length_reverse, List.length_reverse]
  rfl

theorem broadcast?_eq_none_iff {a b : Shape} :
    a.broadcast? b = none ↔ ∃ i, a.axis i ≠ b.axis i ∧ a.axis i ≠ 1 ∧ b.axis i ≠ 1 := by
  rw [broadcast?, Option.map_eq_none_iff, broadcastInner_eq_none_iff]
  exact exists_congr fun i => broadcastDim_eq_none_iff

/-- A shape stretches to another one: its axes stand at the innermost ones of the other, and each of them has the size
    that stands there or size one. -/
def Stretches (s c : Shape) : Prop :=
  s.length ≤ c.length ∧ ∀ i, s.axis i = 1 ∨ s.axis i = c.axis i

theorem stretches_of_broadcast? {a b c : Shape} (h : a.broadcast? b = some c) : a.Stretches c ∧ b.Stretches c := by
  obtain ⟨hlength, haxes⟩ := broadcast?_eq_some_iff.mp h
  refine ⟨⟨by omega, fun i => ?_⟩, by omega, fun i => ?_⟩
  · exact (eq_one_or_eq_of_broadcastDim (haxes i)).1
  · exact (eq_one_or_eq_of_broadcastDim (haxes i)).2

theorem axis_eq_getElem {s : Shape} {i : Nat} (h : i < s.reverse.length) : s.axis i = s.reverse[i] := by
  rw [axis, List.getD_eq_getElem?_getD, List.getElem?_eq_getElem h]
  rfl

/-- The axes of a shape beside those that they stand at, outermost first. -/
theorem Stretches.forall₂ {s c : Shape} (h : s.Stretches c) :
    List.Forall₂ (fun d e => d = 1 ∨ d = e) s (c.drop (c.length - s.length)) := by
  have hrank : c.length - (c.length - s.length) = s.length := Nat.sub_sub_self h.1
  rw [← List.forall₂_reverse_iff, List.reverse_drop, hrank, List.forall₂_iff_get]
  refine ⟨by rw [List.length_reverse, List.length_take, List.length_reverse, Nat.min_eq_left h.1], fun i hi hi' => ?_⟩
  have hwide : i < c.reverse.length := by
    rw [List.length_take] at hi'
    omega
  have haxis := h.2 i
  rw [axis_eq_getElem hi, axis_eq_getElem hwide] at haxis
  simpa using haxis

theorem Within.length_eq {s : Shape} {idx : List Nat} (h : s.Within idx) : idx.length = s.length := by
  induction s generalizing idx with
  | nil => cases idx with
    | nil => rfl
    | cons i is => exact h.elim
  | cons d ds ih => cases idx with
    | nil => exact h.elim
    | cons i is => rw [List.length_cons, List.length_cons, ih h.2]

theorem Within.drop {s : Shape} {idx : List Nat} (h : s.Within idx) (k : Nat) : Within (s.drop k) (idx.drop k) := by
  induction k generalizing s idx with
  | zero => exact h
  | succ k ih =>
    cases s with
    | nil => cases idx with
      | nil => trivial
      | cons i is => exact h.elim
    | cons d ds => cases idx with
      | nil => exact h.elim
      | cons i is => exact ih h.2

/-- The multi-index of a shape that stands for one of a shape that it stretches to: the coordinates of its own axes,
    with zero on those of size one. -/
def project (s : Shape) (idx : List Nat) : List Nat :=
  List.zipWith (fun d i => if d = 1 then 0 else i) s (idx.drop (idx.length - s.length))

/-- Axes of the same number: the steps, with none along axes of size one, lead to the place of the coordinates, with
    zero on these axes. -/
theorem offset_pinned {s c : Shape} (h : List.Forall₂ (fun d e => d = 1 ∨ d = e) s c) {idx : List Nat}
    (hidx : c.Within idx) :
    s.Within (List.zipWith (fun d i => if d = 1 then 0 else i) s idx) ∧
      offset idx (List.zipWith (fun d step => if d = 1 then 0 else step) s s.steps) =
        s.ravel (List.zipWith (fun d i => if d = 1 then 0 else i) s idx) := by
  induction h generalizing idx with
  | nil => cases idx with
    | nil => exact ⟨trivial, rfl⟩
    | cons i is => exact hidx.elim
  | @cons d e ds es hd _ ih =>
    cases idx with
    | nil => exact hidx.elim
    | cons i is =>
      obtain ⟨hwithin, hoffset⟩ := ih hidx.2
      rw [steps, List.zipWith_cons_cons, List.zipWith_cons_cons, offset, hoffset, ravel]
      by_cases hone : d = 1
      · rw [if_pos hone, if_pos hone, Nat.mul_zero, Nat.zero_mul]
        exact ⟨⟨by omega, hwithin⟩, rfl⟩
      · rw [if_neg hone, if_neg hone]
        have hi : i < d := by
          rw [hd.resolve_left hone]
          exact hidx.1
        exact ⟨⟨hi, hwithin⟩, rfl⟩

theorem offset_replicate_zero (k : Nat) (idx steps : List Nat) :
    offset idx (List.replicate k 0 ++ steps) = offset (idx.drop k) steps := by
  induction k generalizing idx with
  | zero => rfl
  | succ k ih =>
    cases idx with
    | nil => simp [offset]
    | cons i is =>
      rw [List.replicate_succ, List.cons_append, offset, ih, Nat.mul_zero, Nat.zero_add, List.drop_succ_cons]

/-- The steps for a common shape lead from its multi-indices to the places of their projections. -/
theorem offset_broadcastSteps {s c : Shape} (h : s.Stretches c) {idx : List Nat} (hidx : c.Within idx) :
    s.Within (s.project idx) ∧ offset idx (s.broadcastSteps c.length) = s.ravel (s.project idx) := by
  rw [broadcastSteps, offset_replicate_zero, project, hidx.length_eq]
  exact offset_pinned h.forall₂ (hidx.drop _)

end Shape

namespace Tensor

variable {α β γ : Type}

/-- The element at a multi-index: the multi-index lies within the shape, and the element is there in the data. -/
def HasEntry (t : Tensor α) (idx : List Nat) (x : α) : Prop :=
  t.shape.Within idx ∧ t.data[t.shape.ravel idx]? = some x

/-- Every place that broadcasting reads lies within the data. -/
theorem offset_lt_of_stretches {a : Tensor α} (ha : a.WellFormed) {c : Shape} (h : a.shape.Stretches c) {k : Nat}
    (hk : k < c.size) : Shape.offset (c.unravel k) (a.shape.broadcastSteps c.length) < a.data.size := by
  obtain ⟨hwithin, hoffset⟩ := Shape.offset_broadcastSteps h (Shape.within_unravel hk)
  rw [hoffset, ha]
  exact Shape.ravel_lt hwithin

variable [Zero α] [Zero β]

theorem WellFormed.hasEntry {t : Tensor α} (h : t.WellFormed) {idx : List Nat} (hidx : t.shape.Within idx) :
    t.HasEntry idx (t.flat (t.shape.ravel idx)) := by
  have hplace : t.shape.ravel idx < t.data.size := h ▸ Shape.ravel_lt hidx
  refine ⟨hidx, ?_⟩
  simp [flat, Array.getD, hplace]

theorem hasEntry_generate {shape : Shape} {f : Nat → γ} {idx : List Nat} (hidx : shape.Within idx) :
    (generate shape f).HasEntry idx (f (shape.ravel idx)) := by
  refine ⟨hidx, ?_⟩
  simp [generate, Shape.ravel_lt hidx]

/-- What broadcasting gives: an array of the common shape in which each element comes from the elements that its
    multi-index projects to. -/
theorem zipWith?_eq_some {f : α → β → γ} {a : Tensor α} {b : Tensor β} (ha : a.WellFormed) (hb : b.WellFormed)
    {c : Shape} (h : a.shape.broadcast? b.shape = some c) :
    ∃ t, zipWith? f a b = some t ∧ t.shape = c ∧ t.WellFormed ∧
      ∀ idx, c.Within idx → ∃ x y, a.HasEntry (a.shape.project idx) x ∧ b.HasEntry (b.shape.project idx) y ∧
        t.HasEntry idx (f x y) := by
  obtain ⟨hstretchA, hstretchB⟩ := Shape.stretches_of_broadcast? h
  refine ⟨_, by rw [zipWith?_eq_map, h]; rfl, rfl, wellFormed_generate _ _, fun idx hidx => ?_⟩
  obtain ⟨hwithinA, hoffsetA⟩ := Shape.offset_broadcastSteps hstretchA hidx
  obtain ⟨hwithinB, hoffsetB⟩ := Shape.offset_broadcastSteps hstretchB hidx
  refine ⟨_, _, ha.hasEntry hwithinA, hb.hasEntry hwithinB, ?_⟩
  rw [← hoffsetA, ← hoffsetB]
  have hentry := hasEntry_generate (f := fun k =>
    f (a.flat (Shape.offset (c.unravel k) (a.shape.broadcastSteps c.length)))
      (b.flat (Shape.offset (c.unravel k) (b.shape.broadcastSteps c.length)))) hidx
  rwa [Shape.unravel_ravel hidx] at hentry

end Tensor

end ArrayCalc
