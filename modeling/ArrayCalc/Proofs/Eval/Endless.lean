import ArrayCalc.Proofs.Eval.Evaluate
import ArrayCalc.Proofs.Eval.Functions

namespace ArrayCalc

/-- A computation that comes to a value or to a failure in the end. -/
def Settles {α : Type} (x : Except Failure α) : Prop :=
  x ≠ .error .endless

section

variable {α β : Type}

theorem Settles.bind {x : Except Failure α} {f : α → Except Failure β} (hx : Settles x) (hf : ∀ a, Settles (f a)) :
    Settles (x >>= f) := by
  intro h
  rw [bind_eq_error_iff] at h
  obtain h | ⟨a, -, h⟩ := h
  · exact hx h
  · exact hf a h

end

namespace Arguments

variable (args : List Value) (label : String)

variable {args label} {index : Nat} {t : Tensor Float} {m n : Nat}

end Arguments

section

variable {m n : Nat}

/-- The iteration for the singular values of a matrix with entries never ends. -/
def Mat.Endless (a : Mat Float m n) : Prop :=
  m ≠ 0 ∧ n ≠ 0 ∧ a.singular? = none

variable {a : Mat Float m n}

end

section

variable {args : List Value} {label : String} {β : Type}

end

section

variable (label : String) (t : Tensor Float)

end

namespace Builtin

open Arguments

section

variable {capacity : Capacity} {f : Builtin} {args : List Value}

end

section

variable {host : Host} {f : Builtin} {args : List Value} {drawn : Nat}

theorem apply_eq_error_iff {failure : Failure} :
    f.apply host args drawn = .error failure ↔ f.pureValue host.capacity args = .error failure := by
  rw [apply, draw_bind_eq_error_iff, draw_lift_eq_error_iff]
  refine ⟨fun h => h.resolve_right ?_, .inl⟩
  rintro ⟨r, next, -, h⟩
  split at h <;> cases h

end

end Builtin

end ArrayCalc
