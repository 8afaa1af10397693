import ArrayCalc.Mat.Eigen

namespace ArrayCalc

section

variable {σ α : Type} {step : σ → σ ⊕ α} {s s' : σ} {a : α}

end

namespace Mat

namespace Schur

variable {n : Nat} {t : Schur n} {norm : Float}

end Schur

end Mat

end ArrayCalc
