import ArrayCalc.Mat.Basic

namespace ArrayCalc

/-- Repeats a step until it gives a result. A repetition that never ends has none. -/
def repeatUntil {σ α : Type} (step : σ → σ ⊕ α) (s : σ) : Option α :=
  match step s with
  | .inl s => by
    apply repeatUntil
    · exact step
    · exact s
  | .inr a => some a
partial_fixpoint

end ArrayCalc
