import ArrayCalc.Tensor.Basic

namespace ArrayCalc

/-- Why an array cannot be built. -/
inductive BuildError where
  | invalidDimension (label : String) (dim : Float)
  | unfilled (count : Nat) (dims : List Float)
  | tooLarge (length : Float)
  | noMemory
  | ragged

namespace BuildError

def message : BuildError → String
  | invalidDimension label dim => label ++ ": invalid dimension " ++ String.ofList (Number.compact dim)
  | unfilled count dims =>
    "ndarray: " ++ toString count ++ " values do not fill shape (" ++
      String.ofList (List.intercalate [',', ' '] (dims.map Number.compact)) ++ ")"
  | tooLarge length => "Invalid typed array length: " ++ String.ofList (Number.compact length)
  | noMemory => "Array buffer allocation failed"
  | ragged => "fromNested: ragged nested array"

end BuildError

namespace Shape

/-- The product of sizes as doubles multiply, in the order of the axes. -/
def floatSize (dims : List Float) : Float :=
  dims.foldl (· * ·) 1

/-- Whole, non-negative sizes; the first size that is not names the error. -/
def ofFloats (label : String) (dims : List Float) : Except BuildError Shape :=
  dims.mapM fun dim =>
    match Number.toNat? dim with
    | some d => .ok d
    | none => .error (.invalidDimension label dim)

end Shape

/-- What a machine grants an array that is to be filled: the most elements that an array can have, and the most that
    there is memory for. A count of elements is a double, so that only those below `2 ^ 53` are told apart. -/
structure Capacity where
  largest : Nat
  largest_lt : largest < 2 ^ 53
  available : Nat

namespace Tensor

variable {α : Type}

/-- The array with given elements and sizes. -/
def ofData (dims : List Float) (data : Array α) : Except BuildError (Tensor α) := do
  let shape ← Shape.ofFloats "ndarray" dims
  if Number.toNat? (Shape.floatSize dims) = some data.size then .ok ⟨shape, data⟩
  else .error (.unfilled data.size dims)

/-- The array of a given shape with one value everywhere, if the machine grants it. -/
def filled (capacity : Capacity) (shape : Shape) (value : α) : Except BuildError (Tensor α) :=
  if capacity.largest < shape.size then .error (.tooLarge (Shape.floatSize (shape.map Number.ofNat)))
  else if capacity.available < shape.size then .error .noMemory
  else .ok ⟨shape, Array.replicate shape.size value⟩

theorem wellFormed_of_filled {capacity : Capacity} {shape : Shape} {value : α} {t : Tensor α}
    (h : filled capacity shape value = .ok t) : t.WellFormed := by
  rw [filled] at h
  split at h
  · cases h
  · split at h
    · cases h
    · cases h
      simp [WellFormed]

/-- The square array with ones on its diagonal. -/
def identity [Zero α] [One α] (capacity : Capacity) (n : Nat) : Except BuildError (Tensor α) := do
  let zeros ← filled capacity [n, n] (0 : α)
  .ok ⟨zeros.shape, zeros.data.mapIdx fun k x => if k / n = k % n then 1 else x⟩

end Tensor

end ArrayCalc
