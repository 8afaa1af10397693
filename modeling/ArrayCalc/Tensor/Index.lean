import ArrayCalc.Tensor.Basic

namespace ArrayCalc

namespace Shape

/-- A multi-index with one coordinate below the size of each axis. -/
def Within : Shape → List Nat → Prop
  | [], [] => True
  | d :: ds, i :: is => i < d ∧ Within ds is
  | _, _ => False

/-- The coordinates of a place in row-major order. -/
def unravel : Shape → Nat → List Nat
  | [], _ => []
  | _ :: ds, k => k / size ds :: unravel ds (k % size ds)

/-- The place of a multi-index in row-major order. -/
def ravel : Shape → List Nat → Nat
  | _ :: ds, i :: is => i * size ds + ravel ds is
  | _, _ => 0

@[simp] theorem length_unravel (s : Shape) (k : Nat) : (unravel s k).length = s.length := by
  induction s generalizing k with
  | nil => rfl
  | cons d ds ih => simp [unravel, ih]

theorem within_unravel {s : Shape} {k : Nat} (h : k < size s) : Within s (unravel s k) := by
  induction s generalizing k with
  | nil => trivial
  | cons d ds ih =>
    have hpos : 0 < size ds := Nat.pos_of_ne_zero fun hzero => by simp [hzero] at h
    exact ⟨Nat.div_lt_of_lt_mul (Nat.mul_comm d _ ▸ h), ih (Nat.mod_lt _ hpos)⟩

theorem ravel_unravel {s : Shape} {k : Nat} (h : k < size s) : ravel s (unravel s k) = k := by
  induction s generalizing k with
  | nil => simp at h; simp [ravel, h]
  | cons d ds ih =>
    have hpos : 0 < size ds := Nat.pos_of_ne_zero fun hzero => by simp [hzero] at h
    rw [unravel, ravel, ih (Nat.mod_lt _ hpos), Nat.mul_comm, Nat.div_add_mod]

theorem ravel_lt {s : Shape} {idx : List Nat} (h : Within s idx) : ravel s idx < size s := by
  induction s generalizing idx with
  | nil => cases idx <;> simp_all [Within, ravel]
  | cons d ds ih =>
    cases idx with
    | nil => exact h.elim
    | cons i is =>
      have hrest := ih h.2
      have hlead := Nat.mul_le_mul_right (size ds) (Nat.succ_le_of_lt h.1)
      rw [Nat.succ_mul] at hlead
      rw [ravel, size_cons]
      omega

theorem unravel_ravel {s : Shape} {idx : List Nat} (h : Within s idx) : unravel s (ravel s idx) = idx := by
  induction s generalizing idx with
  | nil => cases idx <;> simp_all [Within, unravel]
  | cons d ds ih =>
    cases idx with
    | nil => exact h.elim
    | cons i is =>
      have hrest := ravel_lt h.2
      have hpos : 0 < size ds := by omega
      rw [ravel, unravel, Nat.mul_comm i, Nat.mul_add_div hpos, Nat.mul_add_mod, Nat.div_eq_of_lt hrest,
        Nat.mod_eq_of_lt hrest, ih h.2, Nat.add_zero]

/-- How far apart neighbours along each axis lie in row-major order. -/
def steps : Shape → List Nat
  | [] => []
  | _ :: ds => size ds :: steps ds

/-- How far apart neighbours along each axis lie in column-major order, for an axis block that starts
    with distance `first`. -/
def columnSteps (first : Nat) : Shape → List Nat
  | [] => []
  | d :: ds => first :: columnSteps (first * d) ds

/-- The place that coordinates name under given distances. -/
def offset : (idx steps : List Nat) → Nat
  | i :: is, step :: steps => i * step + offset is steps
  | _, _ => 0

end Shape

namespace Tensor

variable {α : Type} [Zero α]

/-- The element at a multi-index. -/
def entry (t : Tensor α) (idx : List Nat) : α :=
  t.flat (t.shape.ravel idx)

/-- The array of a given shape with a given element at each multi-index. -/
def ofIndex (shape : Shape) (f : List Nat → α) : Tensor α :=
  generate shape fun k => f (shape.unravel k)

theorem entry_ofIndex {shape : Shape} {idx : List Nat} (f : List Nat → α) (h : shape.Within idx) :
    (ofIndex shape f).entry idx = f idx := by
  rw [Tensor.entry, ofIndex, shape_generate, flat_generate _ (Shape.ravel_lt h), Shape.unravel_ravel h]

/-- Two well-formed arrays of one shape are equal when they agree at every multi-index. -/
theorem ext_entry {t u : Tensor α} (ht : t.WellFormed) (hu : u.WellFormed) (hshape : t.shape = u.shape)
    (hentry : ∀ idx, t.shape.Within idx → t.entry idx = u.entry idx) : t = u := by
  obtain ⟨s, x⟩ := t
  obtain ⟨s', y⟩ := u
  obtain rfl : s = s' := hshape
  have hx : x.size = s.size := ht
  have hy : y.size = s.size := hu
  congr 1
  apply Array.ext (hx.trans hy.symm)
  intro k hkx hky
  have hk : k < s.size := hx ▸ hkx
  have hsame := hentry (s.unravel k) (Shape.within_unravel hk)
  simpa [Tensor.entry, flat, Shape.ravel_unravel hk, Array.getD, hkx, hky] using hsame

end Tensor

end ArrayCalc
