import ArrayCalc.Proofs.Tensor.Product

namespace ArrayCalc

namespace Shape

/-- The shape of a left operand as a matrix: a single axis runs along one row. -/
def asRow : Shape → Shape
  | [k] => [1, k]
  | s => s

/-- The shape of a right operand as a matrix: a single axis runs along one column. -/
def asColumn : Shape → Shape
  | [k] => [k, 1]
  | s => s

theorem size_asRow (s : Shape) : s.asRow.size = s.size := by
  match s with
  | [] => rfl
  | [d] => simp [asRow]
  | _ :: _ :: _ => rfl

theorem size_asColumn (s : Shape) : s.asColumn.size = s.size := by
  match s with
  | [] => rfl
  | [d] => simp [asColumn]
  | _ :: _ :: _ => rfl

theorem asRow_eq_pair_iff {s : Shape} {m k : Nat} : s.asRow = [m, k] ↔ s = [m, k] ∨ s = [k] ∧ m = 1 := by
  match s with
  | [] => simp [asRow]
  | [d] => simp [asRow, eq_comm, and_comm]
  | d :: e :: ds => simp [asRow]

theorem asColumn_eq_pair_iff {s : Shape} {k n : Nat} : s.asColumn = [k, n] ↔ s = [k, n] ∨ s = [k] ∧ n = 1 := by
  match s with
  | [] => simp [asColumn]
  | [d] => simp [asColumn, eq_comm]
  | d :: e :: ds => simp [asColumn]

theorem exists_asRow_iff {s : Shape} {k : Nat} :
    (∃ m, s.asRow = [m, k]) ↔ (s.length = 1 ∨ s.length = 2) ∧ s.getLast? = some k := by
  match s with
  | [] => simp [asRow]
  | [d] => simp [asRow]
  | [d, e] => simp [asRow]
  | d :: e :: f :: ds => simp [asRow]

theorem exists_asColumn_iff {s : Shape} {k : Nat} :
    (∃ n, s.asColumn = [k, n]) ↔ (s.length = 1 ∨ s.length = 2) ∧ s.head? = some k := by
  match s with
  | [] => simp [asColumn]
  | [d] => simp [asColumn]
  | [d, e] => simp [asColumn]
  | d :: e :: f :: ds => simp [asColumn]

end Shape

namespace Tensor

theorem productSizes?_eq_some_iff {a b shape : Shape} {m k k' n : Nat} :
    productSizes? a b = some (m, k, k', n, shape) ↔
      a.asRow = [m, k] ∧ b.asColumn = [k', n] ∧ shape = a.dropLast ++ b.tail := by
  match a, b with
  | [], _ | _ :: _ :: _ :: _, _ => simp [productSizes?, Shape.asRow]
  | [_], [] | [_, _], [] | [_], _ :: _ :: _ :: _ | [_, _], _ :: _ :: _ :: _ => simp [productSizes?, Shape.asColumn]
  | [_], [_] | [_], [_, _] | [_, _], [_] | [_, _], [_, _] =>
    simp [productSizes?, Shape.asRow, Shape.asColumn, eq_comm, and_assoc]

section

variable {α : Type}

/-- A left operand as a matrix. -/
def asRow (t : Tensor α) : Tensor α :=
  ⟨t.shape.asRow, t.data⟩

/-- A right operand as a matrix. -/
def asColumn (t : Tensor α) : Tensor α :=
  ⟨t.shape.asColumn, t.data⟩

theorem WellFormed.asRow {t : Tensor α} (h : t.WellFormed) : t.asRow.WellFormed :=
  h.trans t.shape.size_asRow.symm

theorem WellFormed.asColumn {t : Tensor α} (h : t.WellFormed) : t.asColumn.WellFormed :=
  h.trans t.shape.size_asColumn.symm

end

variable {α : Type} [Zero α] [Add α] [Mul α]

/-- The product of two arrays that are read as matrices row by row. -/
def matrixProduct (a b : Tensor α) (m k n : Nat) : Mat α m n :=
  (Mat.ofRowMajor a.data : Mat α m k).mul (Mat.ofRowMajor b.data : Mat α k n)

/-- The product of arrays is the one of the matrices that they stand for, in a shape without the axes that this adds. -/
theorem matmul_eq_ok_iff {a b t : Tensor α} :
    a.matmul b = .ok t ↔ ∃ m k n, a.shape.asRow = [m, k] ∧ b.shape.asColumn = [k, n] ∧
      t = ⟨a.shape.dropLast ++ b.shape.tail, (matrixProduct a b m k n).toTensor.data⟩ := by
  rw [matmul]
  constructor
  · intro h
    split at h
    · cases h
    · rename_i m k k' n shape hsizes
      obtain ⟨hrow, hcolumn, rfl⟩ := productSizes?_eq_some_iff.mp hsizes
      split at h
      · subst k'
        cases h
        exact ⟨m, k, n, hrow, hcolumn, rfl⟩
      · cases h
  · rintro ⟨m, k, n, hrow, hcolumn, rfl⟩
    rw [productSizes?_eq_some_iff.mpr ⟨hrow, hcolumn, rfl⟩]
    exact if_pos rfl

theorem exists_matmul_eq_ok_iff {a b : Tensor α} :
    (∃ t, a.matmul b = .ok t) ↔
      (a.rank = 1 ∨ a.rank = 2) ∧ (b.rank = 1 ∨ b.rank = 2) ∧ a.shape.getLast? = b.shape.head? := by
  constructor
  · rintro ⟨t, h⟩
    obtain ⟨m, k, n, hrow, hcolumn, -⟩ := matmul_eq_ok_iff.mp h
    obtain ⟨hranka, hlast⟩ := Shape.exists_asRow_iff.mp ⟨m, hrow⟩
    obtain ⟨hrankb, hhead⟩ := Shape.exists_asColumn_iff.mp ⟨n, hcolumn⟩
    exact ⟨hranka, hrankb, hlast.trans hhead.symm⟩
  · rintro ⟨hranka, hrankb, halign⟩
    have hnonempty : b.shape ≠ [] := by
      intro hnil
      simp [rank, hnil] at hrankb
    have hhead := List.head?_eq_some_head hnonempty
    obtain ⟨m, hrow⟩ := Shape.exists_asRow_iff.mpr ⟨hranka, halign.trans hhead⟩
    obtain ⟨n, hcolumn⟩ := Shape.exists_asColumn_iff.mpr ⟨hrankb, hhead⟩
    exact ⟨_, matmul_eq_ok_iff.mpr ⟨m, _, n, hrow, hcolumn, rfl⟩⟩

namespace IsProduct

variable {x y p : Tensor α} {m k n : Nat}

end IsProduct

end Tensor

end ArrayCalc
