import ArrayCalc.Proofs.Number.Product
import ArrayCalc.Proofs.Tensor.TransposedProduct

namespace ArrayCalc.Value

/-- A product without axes is a scalar. -/
def ofProduct (t : Tensor Float) : Value :=
  if t.shape = [] then scalar (t.flat 0) else array t

theorem matmul_eq_ok_iff {a b v : Value} :
    matmul a b = .ok v ↔ ∃ s t u, a = .array s ∧ b = .array t ∧ s.matmul t = .ok u ∧ v = ofProduct u := by
  constructor
  · intro h
    unfold matmul at h
    split at h
    · rename_i s t
      split at h
      · rename_i u hu
        cases h
        exact ⟨s, t, u, rfl, rfl, hu, rfl⟩
      · cases h
      · cases h
    · cases h
  · rintro ⟨s, t, u, rfl, rfl, hu, rfl⟩
    rw [matmul, hu]
    rfl

theorem exists_matmul_array_iff {s t : Tensor Float} :
    (∃ v, matmul (.array s) (.array t) = .ok v) ↔ ∃ u, s.matmul t = .ok u := by
  constructor
  · rintro ⟨v, hv⟩
    obtain ⟨s', t', u, hs, ht, hu, -⟩ := matmul_eq_ok_iff.mp hv
    cases hs
    cases ht
    exact ⟨u, hu⟩
  · rintro ⟨u, hu⟩
    exact ⟨_, matmul_eq_ok_iff.mpr ⟨s, t, u, rfl, rfl, hu, rfl⟩⟩

theorem transpose_ofProduct (t : Tensor Float) : (ofProduct t).transpose = ofProduct t.transpose := by
  have hrank := Tensor.rank_transpose t
  by_cases hshape : t.shape = []
  · have hsame := Tensor.transpose_of_rank_lt (t := t) (by simp [Tensor.rank, hshape])
    rw [hsame, ofProduct, if_pos hshape]
    rfl
  · have hswapped : t.transpose.shape ≠ [] := by
      intro hnil
      rw [Tensor.rank, hnil, List.length_nil] at hrank
      exact hshape (List.eq_nil_of_length_eq_zero hrank.symm)
    rw [ofProduct, ofProduct, if_neg hshape, if_neg hswapped]
    rfl

/-- Two values have a product exactly if the transposed values have one in the other order, and this is then the product of
    the values, transposed. The two agree in every bit, for operands with one axis and with two. -/
theorem transpose_matmul (a b : Value) :
    ((∃ v, matmul a b = .ok v) ↔ ∃ v, matmul b.transpose a.transpose = .ok v) ∧
      ∀ v, matmul a b = .ok v → matmul b.transpose a.transpose = .ok v.transpose := by
  refine ⟨?_, ?_⟩
  · cases a with
    | scalar x => cases b <;> exact ⟨nofun, nofun⟩
    | array s => cases b with
      | scalar y => exact ⟨nofun, nofun⟩
      | array t =>
        rw [exists_matmul_array_iff]
        exact Tensor.exists_matmul_transpose_iff.symm.trans exists_matmul_array_iff.symm
  · intro v h
    obtain ⟨s, t, u, rfl, rfl, hu, rfl⟩ := matmul_eq_ok_iff.mp h
    rw [transpose_ofProduct]
    exact matmul_eq_ok_iff.mpr ⟨_, _, _, rfl, rfl, Tensor.matmul_transpose Number.float_mul_comm hu, rfl⟩

/-- One row by two columns, and the two columns as rows by the row as a column. -/
theorem transpose_matmul_row :
    let row : Value := .array ⟨[2], #[1, 2]⟩
    let columns : Value := .array ⟨[2, 2], #[3, 4, 5, 6]⟩
    matmul row columns = .ok (.array ⟨[2], #[13, 16]⟩) ∧
      matmul columns.transpose row.transpose = .ok (.array ⟨[2], #[13, 16]⟩) := by
  intro row columns
  have hproduct : matmul row columns = .ok (.array ⟨[2], #[13, 16]⟩) := by rfl
  exact ⟨hproduct, (transpose_matmul row columns).2 _ hproduct⟩

end ArrayCalc.Value
