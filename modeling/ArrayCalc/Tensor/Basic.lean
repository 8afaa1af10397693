import ArrayCalc.Number.Layout

namespace ArrayCalc

instance instZeroFloat : Zero Float := ⟨0⟩
instance instOneFloat : One Float := ⟨1⟩

/-- The sizes of the axes of an array, outermost first. -/
abbrev Shape := List Nat

namespace Shape

/-- How many elements an array of this shape has. -/
def size : Shape → Nat
  | [] => 1
  | d :: ds => d * size ds

@[simp] theorem size_nil : size [] = 1 := rfl

@[simp] theorem size_cons (d : Nat) (ds : Shape) : size (d :: ds) = d * size ds := rfl

theorem size_singleton (d : Nat) : size [d] = d :=
  Nat.mul_one d

theorem size_pair (m n : Nat) : size [m, n] = m * n := by
  rw [size_cons, size_singleton]

theorem size_append (s t : Shape) : size (s ++ t) = size s * size t := by
  induction s with
  | nil => simp
  | cons d ds ih => rw [List.cons_append, size_cons, size_cons, ih, Nat.mul_assoc]

theorem size_eq_zero_iff {s : Shape} : size s = 0 ↔ 0 ∈ s := by
  induction s with
  | nil => simp
  | cons d ds ih => rw [size_cons, Nat.mul_eq_zero, ih, List.mem_cons, eq_comm]

/-- Sizes in parentheses; a single one is followed by a comma. -/
def tupleText (parts : List (List Char)) : List Char :=
  match parts with
  | [part] => '(' :: part ++ [',', ')']
  | _ => '(' :: List.intercalate [',', ' '] parts ++ [')']

def text (s : Shape) : List Char :=
  tupleText (s.map Number.natText)

end Shape

/-- A dense array in row-major order. Nothing ties the number of elements to the shape; `WellFormed`
    says that they agree. -/
structure Tensor (α : Type) where
  shape : Shape
  data : Array α
  deriving Repr, DecidableEq

namespace Tensor

variable {α β : Type}

def WellFormed (t : Tensor α) : Prop :=
  t.data.size = t.shape.size

instance (t : Tensor α) : Decidable t.WellFormed :=
  inferInstanceAs (Decidable (t.data.size = t.shape.size))

def rank (t : Tensor α) : Nat :=
  t.shape.length

/-- The array without axes that holds one element. -/
def single (x : α) : Tensor α :=
  ⟨[], #[x]⟩

theorem wellFormed_single (x : α) : (single x).WellFormed := rfl

/-- The array with one axis. -/
def ofList (xs : List α) : Tensor α :=
  ⟨[xs.length], xs.toArray⟩

theorem wellFormed_ofList (xs : List α) : (ofList xs).WellFormed := by
  simp [WellFormed, ofList]

def map (f : α → β) (t : Tensor α) : Tensor β :=
  ⟨t.shape, t.data.map f⟩

@[simp] theorem shape_map (f : α → β) (t : Tensor α) : (t.map f).shape = t.shape := rfl

theorem WellFormed.map {t : Tensor α} (h : t.WellFormed) (f : α → β) : (t.map f).WellFormed := by
  simpa [WellFormed, Tensor.map] using h

/-- The element at a place of the data; places past the end read as zero. -/
def flat [Zero α] (t : Tensor α) (k : Nat) : α :=
  t.data.getD k 0

/-- The array of a given shape whose element at each place is computed from the place. -/
def generate (shape : Shape) (f : Nat → α) : Tensor α :=
  ⟨shape, Array.ofFn (n := shape.size) fun k => f k⟩

@[simp] theorem shape_generate (shape : Shape) (f : Nat → α) : (generate shape f).shape = shape := rfl

theorem wellFormed_generate (shape : Shape) (f : Nat → α) : (generate shape f).WellFormed := by
  simp [WellFormed, generate]

theorem flat_generate [Zero α] {shape : Shape} {k : Nat} (f : Nat → α) (h : k < shape.size) :
    (generate shape f).flat k = f k := by
  simp [flat, generate, Array.getD, h]

theorem generate_eq {shape : Shape} {f : Nat → α} {xs : Array α} (hsize : xs.size = shape.size)
    (h : ∀ k, (hk : k < xs.size) → f k = xs[k]) : generate shape f = ⟨shape, xs⟩ := by
  rw [generate, mk.injEq]
  refine ⟨rfl, Array.ext (by rw [Array.size_ofFn, hsize]) fun k _ hk => ?_⟩
  rw [Array.getElem_ofFn, h k hk]

theorem generate_congr {shape : Shape} {f g : Nat → α} (h : ∀ k < shape.size, f k = g k) :
    generate shape f = generate shape g := by
  rw [generate, generate, mk.injEq]
  exact ⟨rfl, congrArg Array.ofFn (funext fun k => h k k.isLt)⟩

theorem WellFormed.generate_flat [Zero α] {t : Tensor α} (h : t.WellFormed) : generate t.shape t.flat = t :=
  generate_eq h fun k hk => by simp [flat, hk]

theorem toList_data_generate (shape : Shape) (f : Nat → α) :
    (generate shape f).data.toList = (List.range shape.size).map f := by
  rw [generate, Array.toList_ofFn]
  exact List.ext_getElem (by simp) fun k _ _ => by simp

end Tensor

end ArrayCalc
