import Mathlib
import ArrayCalc.Tensor.Index

namespace ArrayCalc

namespace Shape

/-- The multi-indices of a shape in row-major order: the last coordinate runs fastest. -/
def rowOrder : Shape → List (List Nat)
  | [] => [[]]
  | d :: ds => (List.range d).flatMap fun i => (rowOrder ds).map (i :: ·)

/-- The multi-indices of a shape in column-major order: the first coordinate runs fastest. -/
def columnOrder : Shape → List (List Nat)
  | [] => [[]]
  | d :: ds => (columnOrder ds).flatMap fun is => (List.range d).map (· :: is)

/-- The place of a multi-index in column-major order. -/
def columnPlace : Shape → List Nat → Nat
  | d :: ds, i :: is => columnPlace ds is * d + i
  | _, _ => 0

theorem length_flatMap_of_length {α β : Type} {xs : List α} {f : α → List β} {d : Nat}
    (h : ∀ x ∈ xs, (f x).length = d) : (xs.flatMap f).length = xs.length * d := by
  induction xs with
  | nil => simp
  | cons x xs ih =>
    have htail := ih fun y hy => h y (List.mem_cons_of_mem x hy)
    rw [List.flatMap_cons, List.length_append, h x List.mem_cons_self, htail, List.length_cons, Nat.succ_mul,
      Nat.add_comm]

/-- In a run of blocks of one length, a place is a block and a place in it. -/
theorem getElem?_flatMap_of_length {α β : Type} {xs : List α} {f : α → List β} {d : Nat}
    (h : ∀ x ∈ xs, (f x).length = d) {x : α} {k : Nat} (hx : xs[k]? = some x) {i : Nat} (hi : i < d) :
    (xs.flatMap f)[k * d + i]? = (f x)[i]? := by
  induction xs generalizing k with
  | nil => cases hx
  | cons y xs ih =>
    have hlength := h y List.mem_cons_self
    rw [List.flatMap_cons]
    cases k with
    | zero =>
      obtain rfl : y = x := Option.some.inj hx
      rw [Nat.zero_mul, Nat.zero_add, List.getElem?_append_left (by omega)]
    | succ k =>
      have hplace : (k + 1) * d + i - (f y).length = k * d + i := by
        rw [hlength, Nat.succ_mul]
        omega
      have hpast : (f y).length ≤ (k + 1) * d + i := by
        rw [hlength, Nat.succ_mul]
        omega
      rw [List.getElem?_append_right hpast, hplace]
      exact ih (fun z hz => h z (List.mem_cons_of_mem y hz)) hx

@[simp] theorem length_rowOrder (s : Shape) : s.rowOrder.length = s.size := by
  induction s with
  | nil => rfl
  | cons d ds ih =>
    rw [rowOrder, length_flatMap_of_length fun i _ => by rw [List.length_map, ih], List.length_range, size_cons]

@[simp] theorem length_columnOrder (s : Shape) : s.columnOrder.length = s.size := by
  induction s with
  | nil => rfl
  | cons d ds ih =>
    rw [columnOrder, length_flatMap_of_length fun is _ => by rw [List.length_map, List.length_range], ih, size_cons,
      Nat.mul_comm]

theorem mem_rowOrder {s : Shape} {idx : List Nat} : idx ∈ s.rowOrder ↔ Within s idx := by
  induction s generalizing idx with
  | nil => cases idx <;> simp [rowOrder, Within]
  | cons d ds ih =>
    rw [rowOrder, List.mem_flatMap]
    constructor
    · rintro ⟨i, hi, hidx⟩
      obtain ⟨is, his, rfl⟩ := List.mem_map.mp hidx
      exact ⟨List.mem_range.mp hi, ih.mp his⟩
    · intro h
      cases idx with
      | nil => exact h.elim
      | cons i is => exact ⟨i, List.mem_range.mpr h.1, List.mem_map_of_mem (ih.mpr h.2)⟩

theorem mem_columnOrder {s : Shape} {idx : List Nat} : idx ∈ s.columnOrder ↔ Within s idx := by
  induction s generalizing idx with
  | nil => cases idx <;> simp [columnOrder, Within]
  | cons d ds ih =>
    rw [columnOrder, List.mem_flatMap]
    constructor
    · rintro ⟨is, his, hidx⟩
      obtain ⟨i, hi, rfl⟩ := List.mem_map.mp hidx
      exact ⟨List.mem_range.mp hi, ih.mp his⟩
    · intro h
      cases idx with
      | nil => exact h.elim
      | cons i is => exact ⟨is, ih.mpr h.2, List.mem_map.mpr ⟨i, List.mem_range.mpr h.1, rfl⟩⟩

theorem getElem?_rowOrder {s : Shape} {idx : List Nat} (h : Within s idx) : s.rowOrder[ravel s idx]? = some idx := by
  induction s generalizing idx with
  | nil => cases idx with
    | nil => rfl
    | cons i is => exact h.elim
  | cons d ds ih =>
    cases idx with
    | nil => exact h.elim
    | cons i is =>
      have hlength : ∀ i ∈ List.range d, ((rowOrder ds).map (i :: ·)).length = size ds := fun i _ => by
        rw [List.length_map, length_rowOrder]
      rw [rowOrder, ravel, getElem?_flatMap_of_length hlength (List.getElem?_range h.1) (ravel_lt h.2),
        List.getElem?_map, ih h.2]
      rfl

theorem getElem?_columnOrder {s : Shape} {idx : List Nat} (h : Within s idx) :
    s.columnOrder[columnPlace s idx]? = some idx := by
  induction s generalizing idx with
  | nil => cases idx with
    | nil => rfl
    | cons i is => exact h.elim
  | cons d ds ih =>
    cases idx with
    | nil => exact h.elim
    | cons i is =>
      have hlength : ∀ is ∈ columnOrder ds, ((List.range d).map (· :: is)).length = d := fun is _ => by
        rw [List.length_map, List.length_range]
      rw [columnOrder, columnPlace, getElem?_flatMap_of_length hlength (ih h.2) h.1, List.getElem?_map,
        List.getElem?_range h.1]
      rfl

/-- The distances between neighbours lead to the place in column-major order. -/
theorem offset_columnSteps {s : Shape} {idx : List Nat} (h : Within s idx) (first : Nat) :
    offset idx (s.columnSteps first) = first * columnPlace s idx := by
  induction s generalizing idx first with
  | nil => cases idx with
    | nil => rfl
    | cons i is => exact h.elim
  | cons d ds ih =>
    cases idx with
    | nil => exact h.elim
    | cons i is =>
      rw [columnSteps, offset, ih h.2 (first * d), columnPlace, Nat.mul_add, Nat.mul_comm i,
        Nat.mul_comm (columnPlace ds is), Nat.mul_assoc, Nat.add_comm]

end Shape

namespace Tensor

/-- Elements listed in row-major order are the data of an array. -/
theorem ofIndex_eq {α : Type} (s : Shape) (f : List Nat → α) : ofIndex s f = ⟨s, (s.rowOrder.map f).toArray⟩ := by
  refine generate_eq (by simp) fun k hk => ?_
  have hlt : k < s.size := by simpa using hk
  have hplace := Shape.getElem?_rowOrder (Shape.within_unravel hlt)
  rw [Shape.ravel_unravel hlt] at hplace
  obtain ⟨hbound, helement⟩ := List.getElem?_eq_some_iff.mp hplace
  simp [helement]

end Tensor

end ArrayCalc
