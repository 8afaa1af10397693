import ArrayCalc.Tensor.Build

namespace ArrayCalc

/-- What operators and functions take. -/
inductive Value where
  | scalar (x : Float)
  | array (t : Tensor Float)
  deriving Repr

/-- What an evaluation gives. Only decompositions give tuples, and no tuple holds another. -/
inductive Result where
  | value (v : Value)
  | tuple (items : List Value)
  deriving Repr

namespace Value

/-- A scalar as an array without axes. -/
def toTensor : Value → Tensor Float
  | scalar x => .single x
  | array t => t

def map (f : Float → Float) : Value → Value
  | scalar x => scalar (f x)
  | array t => array (t.map f)

/-- The elements in row-major order. -/
def elements : Value → Array Float
  | scalar x => #[x]
  | array t => t.data

def WellFormed : Value → Prop
  | scalar _ => True
  | array t => t.WellFormed

end Value

namespace Result

def scalar (x : Float) : Result := .value (.scalar x)

def array (t : Tensor Float) : Result := .value (.array t)

end Result

/-- What a list of bindings says of a name does not depend on those of another. -/
theorem lookup_filter_ne {κ α : Type} [DecidableEq κ] [BEq κ] [LawfulBEq κ] {name other : κ} (h : other ≠ name)
    (bs : List (κ × α)) : (bs.filter (·.1 ≠ name)).lookup other = bs.lookup other := by
  induction bs with
  | nil => rfl
  | cons b bs ih =>
    by_cases hname : b.1 = name
    · have hother : (other == b.1) = false := by simpa [hname] using h
      rw [List.filter_cons_of_neg (by simpa using hname), ih, List.lookup_cons, hother]
    · rw [List.filter_cons_of_pos (by simpa using hname), List.lookup_cons, List.lookup_cons, ih]

/-- The arrays that placeholders stand for, by name. -/
structure Environment where
  bindings : List (String × Tensor Float) := []

namespace Environment

/-- The name that piped data is bound to. -/
def pipeName : String := "PIPE"

/-- The short name of piped data. -/
def pipeLetter : String := "P"

def find? (env : Environment) (name : String) : Option (Tensor Float) :=
  env.bindings.lookup name

/-- Binds a name, in place of what it was bound to. -/
def insert (env : Environment) (name : String) (t : Tensor Float) : Environment :=
  ⟨(name, t) :: env.bindings.filter (·.1 ≠ name)⟩

theorem find?_insert (env : Environment) (name other : String) (t : Tensor Float) :
    (env.insert name t).find? other = if other = name then some t else env.find? other := by
  unfold insert find?
  by_cases h : other = name
  · simp [h]
  · have hother : (other == name) = false := by simpa using h
    rw [List.lookup_cons, hother, if_neg h]
    exact lookup_filter_ne h env.bindings

/-- What a placeholder stands for. The letter of piped data means it wherever there is some, and otherwise
    the matrix of that letter. -/
def resolve? (env : Environment) (name : String) : Option (Tensor Float) :=
  if name = pipeLetter ∧ (env.find? pipeName).isSome then env.find? pipeName else env.find? name

end Environment

end ArrayCalc
