import ArrayCalc.Eval.Operators
import ArrayCalc.Proofs.Except
import ArrayCalc.Proofs.Tensor.Transpose

namespace ArrayCalc

namespace Tensor

theorem wellFormed_zipWith? {α β γ : Type} [Zero α] [Zero β] {f : α → β → γ} {a : Tensor α} {b : Tensor β}
    {t : Tensor γ} (h : zipWith? f a b = some t) : t.WellFormed := by
  rw [zipWith?, Option.map_eq_some_iff] at h
  obtain ⟨shape, _, rfl⟩ := h
  exact wellFormed_traverse _ _

/-- The shape of a product holds as many elements as the product has rows and columns. -/
theorem size_of_productSizes? {a b shape : Shape} {m k k' n : Nat}
    (h : productSizes? a b = some (m, k, k', n, shape)) : shape.size = m * n := by
  unfold productSizes? at h
  split at h <;> simp only [Option.some.injEq, Prod.mk.injEq, reduceCtorEq] at h
  all_goals
    obtain ⟨rfl, _, _, rfl, rfl⟩ := h
    simp

theorem wellFormed_matmul {α : Type} [Zero α] [Add α] [Mul α] {a b t : Tensor α} (h : a.matmul b = .ok t) :
    t.WellFormed := by
  unfold matmul at h
  split at h
  · cases h
  · rename_i m k k' n shape hsizes
    split at h
    · cases h
      simp [WellFormed, Mat.toTensor, generate, size_of_productSizes? hsizes]
    · cases h

end Tensor

theorem wellFormed_matrixPower {label : String} {t u : Tensor Float} {exponent : Int}
    (h : matrixPower label t exponent = .ok u) : u.WellFormed := by
  rw [matrixPower, bind_eq_ok_iff] at h
  obtain ⟨⟨n, a⟩, _, h⟩ := h
  rw [bind_eq_ok_iff] at h
  obtain ⟨power, _, h⟩ := h
  cases h
  exact power.wellFormed_toTensor

namespace Value

theorem WellFormed.map {v : Value} (h : v.WellFormed) (f : Float → Float) : (v.map f).WellFormed := by
  cases v with
  | scalar x => trivial
  | array t => exact Tensor.WellFormed.map h f

theorem WellFormed.transpose {v : Value} (h : v.WellFormed) : v.transpose.WellFormed := by
  cases v with
  | scalar x => trivial
  | array t => exact Tensor.WellFormed.transpose h

theorem wellFormed_elementwise {op : String} {f : Float → Float → Float} {a b v : Value}
    (h : elementwise op f a b = .ok v) : v.WellFormed := by
  unfold elementwise at h
  split at h
  · cases h
    trivial
  · split at h
    · rename_i t ht
      cases h
      exact Tensor.wellFormed_zipWith? ht
    · cases h

theorem wellFormed_matmul {a b v : Value} (h : matmul a b = .ok v) : v.WellFormed := by
  unfold matmul at h
  split at h
  · rename_i x y
    split at h
    · rename_i t ht
      cases h
      split
      · trivial
      · exact Tensor.wellFormed_matmul ht
    · cases h
    · cases h
  · cases h

theorem wellFormed_power {base exponent v : Value} (h : power base exponent = .ok v) : v.WellFormed := by
  unfold power at h
  cases exponent with
  | array t => cases h
  | scalar y =>
    dsimp only at h
    split at h
    · cases h
    · rename_i n _
      cases base with
      | scalar x =>
        cases h
        trivial
      | array t =>
        dsimp only at h
        cases hpower : matrixPower (Operand.binary "^").text t n with
        | error e =>
          rw [hpower] at h
          cases h
        | ok u =>
          rw [hpower] at h
          cases h
          exact wellFormed_matrixPower hpower

end Value

theorem wellFormed_of_unaryOperator? {op : String} {f : Value → Value} (h : unaryOperator? op = some f)
    {v : Value} (hv : v.WellFormed) : (f v).WellFormed := by
  unfold unaryOperator? at h
  split at h
  · cases h
    exact hv.transpose
  · cases h
    exact hv.map _
  · cases h

/-- A binary operator gives a well-formed value whatever its operands are. -/
theorem wellFormed_of_binaryOperator? {op : String} {f : Value → Value → Except Failure Value}
    (h : binaryOperator? op = some f) {a b v : Value} (hv : f a b = .ok v) : v.WellFormed := by
  unfold binaryOperator? at h
  split at h
  · cases h
    exact Value.wellFormed_elementwise (mapError_eq_ok_iff.mp hv)
  · cases h
    exact Value.wellFormed_elementwise (mapError_eq_ok_iff.mp hv)
  · cases h
    exact Value.wellFormed_elementwise (mapError_eq_ok_iff.mp hv)
  · cases h
    exact Value.wellFormed_matmul (mapError_eq_ok_iff.mp hv)
  · cases h
    exact Value.wellFormed_power hv
  · cases h

end ArrayCalc
