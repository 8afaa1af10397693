import ArrayCalc.Eval.Functions
import ArrayCalc.Proofs.Eval.Operators

namespace ArrayCalc

/-- Whether a value is an array or a scalar. -/
def Value.kind : Value → Builtin.Returns
  | scalar _ => .scalar
  | array _ => .array

theorem Value.kind_map (v : Value) (f : Float → Float) : (v.map f).kind = v.kind := by
  cases v <;> rfl

theorem Value.kind_ne_tuple (v : Value) : v.kind ≠ .tuple := by
  cases v <;> nofun

namespace Result

def kind : Result → Builtin.Returns
  | value v => v.kind
  | tuple _ => .tuple

/-- The arrays of the result are well-formed, and a tuple holds nothing but arrays. -/
def WellFormed : Result → Prop
  | value v => v.WellFormed
  | tuple items => ∀ item ∈ items, ∃ t : Tensor Float, item = .array t ∧ t.WellFormed

end Result

namespace Builtin

/-- The functions that act on each element and keep the kind of their argument. -/
def elementwise : List Builtin := [exp, sin, cos]

/-- The kind of what a function gives for a first argument. -/
def kindFor (f : Builtin) (first : Returns) : Returns :=
  if f ∈ elementwise then first else f.signature.returns

end Builtin

/-- The components of a decomposition. -/
def Arrays (items : List Value) : Prop :=
  ∀ item ∈ items, ∃ t : Tensor Float, item = .array t ∧ t.WellFormed

theorem arrays_nil : Arrays [] :=
  nofun

theorem Arrays.cons {t : Tensor Float} (ht : t.WellFormed) {items : List Value} (h : Arrays items) :
    Arrays (.array t :: items) := by
  intro item hitem
  rcases List.mem_cons.mp hitem with rfl | hitem
  · exact ⟨t, rfl, ht⟩
  · exact h item hitem

theorem arrays_pair {t u : Tensor Float} (ht : t.WellFormed) (hu : u.WellFormed) :
    Arrays [.array t, .array u] :=
  .cons ht (.cons hu arrays_nil)

theorem arrays_triple {t u v : Tensor Float} (ht : t.WellFormed) (hu : u.WellFormed) (hv : v.WellFormed) :
    Arrays [.array t, .array u, .array v] :=
  .cons ht (arrays_pair hu hv)

namespace Mat

variable {m n : Nat}

theorem arrays_svd {a : Mat Float m n} {items : List Value} (h : a.svd = .ok items) : Arrays items := by
  simp only [svd, bind_eq_ok_iff] at h
  obtain ⟨_, _, d, _, h⟩ := h
  cases h
  exact arrays_triple (wellFormed_toTensor _) (Tensor.wellFormed_ofList _) (wellFormed_toTensor _)

theorem arrays_lu {label : String} {a : Mat Float m n} {items : List Value} (h : a.lu label = .ok items) :
    Arrays items := by
  unfold lu at h
  split at h
  · cases h
  · cases h
    exact arrays_triple (wellFormed_toTensor _) (wellFormed_toTensor _) (wellFormed_toTensor _)

end Mat

theorem wellFormed_filled {capacity : Capacity} {shape : Shape} {x : Float} {t : Tensor Float}
    (h : filled capacity shape x = .ok t) : t.WellFormed :=
  Tensor.wellFormed_of_filled (mapError_eq_ok_iff.mp h)

theorem Tensor.WellFormed.mapIdx {t : Tensor Float} (h : t.WellFormed) (f : Nat → Float → Float) :
    (⟨t.shape, t.data.mapIdx f⟩ : Tensor Float).WellFormed := by
  have hsize : t.data.size = t.shape.size := h
  simpa [Tensor.WellFormed] using hsize

theorem wellFormed_identity {capacity : Capacity} {n : Nat} {t : Tensor Float}
    (h : Tensor.identity capacity n = .ok t) : t.WellFormed := by
  rw [Tensor.identity, bind_eq_ok_iff] at h
  obtain ⟨zeros, hzeros, h⟩ := h
  cases h
  exact (Tensor.wellFormed_of_filled hzeros).mapIdx _

theorem wellFormed_diagonal {capacity : Capacity} {label : String} {t u : Tensor Float}
    (h : diagonal capacity label t = .ok u) : u.WellFormed := by
  unfold diagonal at h
  split at h
  · rw [bind_eq_ok_iff] at h
    obtain ⟨zeros, hzeros, h⟩ := h
    cases h
    exact (wellFormed_filled hzeros).mapIdx _
  · cases h
    exact Tensor.wellFormed_generate _ _
  · cases h

theorem wellFormed_inverse {label : String} {t u : Tensor Float} (h : inverse label t = .ok u) : u.WellFormed := by
  simp only [inverse, bind_eq_ok_iff] at h
  obtain ⟨⟨n, a⟩, _, x, _, h⟩ := h
  cases h
  exact x.wellFormed_toTensor

theorem wellFormed_orthogonalFactors {label : String} {t q r : Tensor Float}
    (h : orthogonalFactors label t = .ok (q, r)) : q.WellFormed ∧ r.WellFormed := by
  simp only [orthogonalFactors, bind_eq_ok_iff] at h
  obtain ⟨⟨m, n, a⟩, _, h⟩ := h
  split at h
  · cases h
    exact ⟨Mat.wellFormed_toTensor _, Mat.wellFormed_toTensor _⟩
  · cases h

theorem wellFormed_cholesky {label : String} {t u : Tensor Float} (h : cholesky label t = .ok u) : u.WellFormed := by
  simp only [cholesky, bind_eq_ok_iff] at h
  obtain ⟨⟨n, a⟩, _, h⟩ := h
  split at h
  · cases h
  · split at h
    · cases h
      exact Mat.wellFormed_toTensor _
    · cases h

/-- A right-hand side with one axis is a single column. -/
theorem columns_of_rightSide {label : String} {rows cols k : Nat} {b : Tensor Float} {rhs : Mat Float rows k}
    (h : rightSide label rows cols b = .ok ⟨k, rhs⟩) (hrank : b.rank = 1) : k = 1 := by
  unfold rightSide at h
  split at h
  · split at h
    · cases h
      rfl
    · cases h
  · rename_i r c hshape
    simp [Tensor.rank, hshape] at hrank
  · cases h

theorem wellFormed_solutionFor {n k : Nat} {b : Tensor Float} (h : b.rank = 1 → k = 1) (x : Mat Float n k) :
    (solutionFor b x).WellFormed := by
  unfold solutionFor
  split
  · rename_i hrank
    have hk := h hrank
    subst hk
    simp [Tensor.WellFormed, Mat.toTensor, Tensor.generate]
  · exact x.wellFormed_toTensor

theorem wellFormed_solve {label : String} {a b t : Tensor Float} (h : solve label a b = .ok t) :
    t.WellFormed := by
  rw [solve, bind_eq_ok_iff] at h
  obtain ⟨⟨n, m⟩, _, h⟩ := h
  rw [bind_eq_ok_iff] at h
  obtain ⟨⟨k, rhs⟩, hrhs, h⟩ := h
  rw [bind_eq_ok_iff] at h
  obtain ⟨x, _, h⟩ := h
  cases h
  exact wellFormed_solutionFor (columns_of_rightSide (mapError_eq_ok_iff.mp hrhs)) x

theorem wellFormed_leastSquares {label : String} {a b t : Tensor Float} (h : leastSquares label a b = .ok t) :
    t.WellFormed := by
  rw [leastSquares, bind_eq_ok_iff] at h
  obtain ⟨⟨m, n, mat⟩, _, h⟩ := h
  rw [bind_eq_ok_iff] at h
  obtain ⟨⟨k, rhs⟩, hrhs, h⟩ := h
  rw [bind_eq_ok_iff] at h
  obtain ⟨inverse, _, h⟩ := h
  cases h
  exact wellFormed_solutionFor (columns_of_rightSide (mapError_eq_ok_iff.mp hrhs)) _

namespace Builtin

open Arguments

/-- What holds of the result of a call: it is well-formed, and its kind is the one for the first argument. -/
def Gives (f : Builtin) (args : List Value) (r : Result) : Prop :=
  r.WellFormed ∧ ∀ v, args[0]? = some v → r.kind = f.kindFor v.kind

theorem gives_array {f : Builtin} (hf : f ∉ elementwise ∧ f.signature.returns = .array) (args : List Value)
    {t : Tensor Float} (ht : t.WellFormed) : f.Gives args (.array t) :=
  ⟨ht, fun v _ => by rw [kindFor, if_neg hf.1, hf.2]; rfl⟩

theorem gives_scalar {f : Builtin} (hf : f ∉ elementwise ∧ f.signature.returns = .scalar) (args : List Value)
    (x : Float) : f.Gives args (.scalar x) :=
  ⟨trivial, fun v _ => by rw [kindFor, if_neg hf.1, hf.2]; rfl⟩

theorem gives_tuple {f : Builtin} (hf : f ∉ elementwise ∧ f.signature.returns = .tuple) (args : List Value)
    {items : List Value} (h : Arrays items) : f.Gives args (.tuple items) :=
  ⟨h, fun v _ => by rw [kindFor, if_neg hf.1, hf.2]; rfl⟩

theorem get_eq_ok_iff {args : List Value} {label : String} {index : Nat} {v : Value} :
    Arguments.get args label index = .ok v ↔ args[index]? = some v := by
  unfold Arguments.get
  split
  · rename_i w hw
    simp [hw]
  · rename_i hnone
    simp [hnone, complain]

theorem gives_elementwise {f : Builtin} (hf : f ∈ elementwise) {args : List Value}
    (hargs : ∀ v ∈ args, v.WellFormed) {g : Float → Float} {label : String} {r : Result}
    (h : (do return .value ((← Arguments.get args label 0).map g)) = Except.ok r) : f.Gives args r := by
  rw [bind_eq_ok_iff] at h
  obtain ⟨v, hv, h⟩ := h
  cases h
  rw [get_eq_ok_iff] at hv
  refine ⟨(hargs v (List.mem_of_getElem? hv)).map g, fun w hw => ?_⟩
  rw [hv, Option.some.injEq] at hw
  subst hw
  rw [kindFor, if_pos hf]
  exact v.kind_map g

/-- The value that a function computes from well-formed arguments is well-formed and of the declared kind. -/
theorem gives_pureValue {capacity : Capacity} {f : Builtin} {args : List Value} (hargs : ∀ v ∈ args, v.WellFormed)
    {r : Result} (h : f.pureValue capacity args = .ok r) : f.Gives args r := by
  cases f with
  | inv =>
    simp only [pureValue, bind_eq_ok_iff] at h
    obtain ⟨t, _, u, hu, h⟩ := h
    cases h
    exact gives_array (by decide) args (wellFormed_inverse hu)
  | pinv =>
    simp only [pureValue, bind_eq_ok_iff] at h
    obtain ⟨⟨m, n, a⟩, _, inverse, _, h⟩ := h
    cases h
    exact gives_array (by decide) args inverse.wellFormed_toTensor
  | matrixPower =>
    simp only [pureValue, bind_eq_ok_iff] at h
    obtain ⟨t, _, n, _, u, hu, h⟩ := h
    cases h
    exact gives_array (by decide) args (wellFormed_matrixPower hu)
  | exp => exact gives_elementwise (by decide) hargs h
  | sin => exact gives_elementwise (by decide) hargs h
  | cos => exact gives_elementwise (by decide) hargs h
  | det =>
    simp only [pureValue, bind_eq_ok_iff] at h
    obtain ⟨t, _, x, _, h⟩ := h
    cases h
    exact gives_scalar (by decide) args _
  | trace | tr =>
    simp only [pureValue, bind_eq_ok_iff] at h
    obtain ⟨⟨m, n, a⟩, _, h⟩ := h
    cases h
    exact gives_scalar (by decide) args _
  | norm | sum | prod | mean | std =>
    simp only [pureValue, bind_eq_ok_iff] at h
    obtain ⟨v, _, h⟩ := h
    cases h
    exact gives_scalar (by decide) args _
  | rank =>
    simp only [pureValue, bind_eq_ok_iff] at h
    obtain ⟨v, _, k, _, h⟩ := h
    cases h
    exact gives_scalar (by decide) args _
  | cond =>
    simp only [pureValue, bind_eq_ok_iff] at h
    obtain ⟨⟨m, n, a⟩, _, x, _, h⟩ := h
    cases h
    exact gives_scalar (by decide) args _
  | svd =>
    simp only [pureValue, bind_eq_ok_iff] at h
    obtain ⟨⟨m, n, a⟩, _, items, hitems, h⟩ := h
    cases h
    exact gives_tuple (by decide) args (Mat.arrays_svd hitems)
  | eig =>
    simp only [pureValue, bind_eq_ok_iff] at h
    obtain ⟨t, _, ⟨n, a⟩, _, _, _, found, _, ⟨values, vectors⟩, _, h⟩ := h
    cases h
    exact gives_tuple (by decide) args (arrays_pair (Tensor.wellFormed_ofList values) vectors.wellFormed_toTensor)
  | qr =>
    simp only [pureValue, bind_eq_ok_iff] at h
    obtain ⟨t, _, ⟨q, r⟩, hfactors, h⟩ := h
    cases h
    obtain ⟨hq, hr⟩ := wellFormed_orthogonalFactors hfactors
    exact gives_tuple (by decide) args (arrays_pair hq hr)
  | lu =>
    simp only [pureValue, bind_eq_ok_iff] at h
    obtain ⟨⟨m, n, a⟩, _, items, hitems, h⟩ := h
    cases h
    exact gives_tuple (by decide) args (Mat.arrays_lu hitems)
  | cholesky =>
    simp only [pureValue, bind_eq_ok_iff] at h
    obtain ⟨t, _, u, hu, h⟩ := h
    cases h
    exact gives_array (by decide) args (wellFormed_cholesky hu)
  | solve =>
    simp only [pureValue, bind_eq_ok_iff] at h
    obtain ⟨a, _, b, _, t, ht, h⟩ := h
    cases h
    exact gives_array (by decide) args (wellFormed_solve ht)
  | lstsq =>
    simp only [pureValue, bind_eq_ok_iff] at h
    obtain ⟨a, _, b, _, t, ht, h⟩ := h
    cases h
    exact gives_array (by decide) args (wellFormed_leastSquares ht)
  | eye =>
    simp only [pureValue, bind_eq_ok_iff] at h
    obtain ⟨n, _, h⟩ := h
    split at h
    · cases h
    · rw [bind_eq_ok_iff] at h
      obtain ⟨t, ht, h⟩ := h
      cases h
      exact gives_array (by decide) args (wellFormed_identity (mapError_eq_ok_iff.mp ht))
  | diag =>
    simp only [pureValue, bind_eq_ok_iff] at h
    obtain ⟨t, _, u, hu, h⟩ := h
    cases h
    exact gives_array (by decide) args (wellFormed_diagonal hu)
  | rand | zeros | ones =>
    simp only [pureValue, bind_eq_ok_iff] at h
    obtain ⟨dims, _, t, ht, h⟩ := h
    cases h
    exact gives_array (by decide) args (wellFormed_filled ht)

end Builtin

end ArrayCalc
