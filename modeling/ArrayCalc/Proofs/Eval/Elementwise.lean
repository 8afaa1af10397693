import ArrayCalc.Eval.Operators
import ArrayCalc.Proofs.Tensor.Broadcast

namespace ArrayCalc.Value

variable {a b : Value}

theorem WellFormed.toTensor (h : a.WellFormed) : a.toTensor.WellFormed := by
  cases a with
  | scalar x => exact Tensor.wellFormed_single x
  | array t => exact h

/-- Where some operand is an array, both are broadcast as arrays. -/
theorem elementwise_eq (op : String) (f : Float → Float → Float) (h : ¬ ∃ x y, a = .scalar x ∧ b = .scalar y) :
    elementwise op f a b =
      match Tensor.zipWith? f a.toTensor b.toTensor with
      | some t => .ok (.array t)
      | none => .error (.incompatible (Operand.binary op).text a.toTensor.shape b.toTensor.shape) := by
  cases a with
  | scalar x => cases b with
    | scalar y => exact absurd ⟨x, y, rfl, rfl⟩ h
    | array t => rfl
  | array s => rfl

/-- Two scalars are combined to a scalar. Otherwise the operands are aligned at their innermost axes, where axes that one
    of them lacks have size one. They cannot be combined exactly if some axis has two sizes neither of which is one.
    If they can, each axis of the result has the size that is not one, and each element combines the elements of the
    operands at its own coordinates, with zero for the coordinate on the axes where an operand has size one. Nothing is
    read from outside the data of the operands. -/
theorem elementwise_spec (op : String) (f : Float → Float → Float) (ha : a.WellFormed) (hb : b.WellFormed) :
    (∀ x y, a = .scalar x → b = .scalar y → elementwise op f a b = .ok (.scalar (f x y))) ∧
      ((¬ ∃ x y, a = .scalar x ∧ b = .scalar y) →
        let s := a.toTensor.shape
        let t := b.toTensor.shape
        ((∃ e, elementwise op f a b = .error e ∧ e.code = "MC_EVAL_SHAPE") ↔
          ∃ i, s.axis i ≠ t.axis i ∧ s.axis i ≠ 1 ∧ t.axis i ≠ 1) ∧
        ((¬ ∃ i, s.axis i ≠ t.axis i ∧ s.axis i ≠ 1 ∧ t.axis i ≠ 1) →
          ∃ u : Tensor Float, elementwise op f a b = .ok (.array u) ∧ u.WellFormed ∧
            u.rank = max a.toTensor.rank b.toTensor.rank ∧
            (∀ i, u.shape.axis i = if s.axis i = 1 then t.axis i else s.axis i) ∧
            (∀ idx, u.shape.Within idx → ∃ x y, a.toTensor.HasEntry (s.project idx) x ∧
              b.toTensor.HasEntry (t.project idx) y ∧ u.HasEntry idx (f x y)) ∧
            ∀ k, k < u.shape.size →
              Shape.offset (u.shape.unravel k) (s.broadcastSteps u.rank) < a.toTensor.data.size ∧
                Shape.offset (u.shape.unravel k) (t.broadcastSteps u.rank) < b.toTensor.data.size)) := by
  refine ⟨?_, fun hvalues => ?_⟩
  · rintro x y rfl rfl
    rfl
  intro s t
  rw [elementwise_eq op f hvalues]
  cases hcommon : s.broadcast? t with
  | none =>
    have hclash := Shape.broadcast?_eq_none_iff.mp hcommon
    have hnone : Tensor.zipWith? f a.toTensor b.toTensor = none := by
      rw [Tensor.zipWith?_eq_map, hcommon]
      rfl
    rw [hnone]
    exact ⟨⟨fun _ => hclash, fun _ => ⟨_, rfl, rfl⟩⟩, fun hagree => absurd hclash hagree⟩
  | some c =>
    obtain ⟨u, hu, rfl, hwf, hentries⟩ := Tensor.zipWith?_eq_some (f := f) ha.toTensor hb.toTensor hcommon
    obtain ⟨hstretchA, hstretchB⟩ := Shape.stretches_of_broadcast? hcommon
    obtain ⟨hrank, haxes⟩ := Shape.broadcast?_eq_some_iff.mp hcommon
    have hagree : ¬ ∃ i, s.axis i ≠ t.axis i ∧ s.axis i ≠ 1 ∧ t.axis i ≠ 1 := by
      rw [← Shape.broadcast?_eq_none_iff, hcommon]
      exact Option.some_ne_none _
    rw [hu]
    have hsuccess : ¬ ∃ e : EvaluationError, Except.ok (Value.array u) = .error e ∧ e.code = "MC_EVAL_SHAPE" := by
      rintro ⟨e, he, -⟩
      cases he
    refine ⟨⟨fun hfail => absurd hfail hsuccess, fun hclash => absurd hclash hagree⟩, fun _ => ?_⟩
    refine ⟨u, rfl, hwf, hrank, fun i => ?_, hentries, fun k hk => ?_⟩
    · exact (Shape.broadcastDim_eq_some_iff.mp (haxes i)).2
    · exact ⟨Tensor.offset_lt_of_stretches ha.toTensor hstretchA hk,
        Tensor.offset_lt_of_stretches hb.toTensor hstretchB hk⟩

/-- A column of two and an array of three are added to two rows of three. -/
theorem elementwise_spec_column :
    let column : Value := .array ⟨[2, 1], #[1, 2]⟩
    let row : Value := .array ⟨[3], #[3, 4, 5]⟩
    column.WellFormed ∧ row.WellFormed ∧ ∃ u, elementwise "+" (· + ·) column row = .ok (.array u) ∧ u.rank = 2 := by
  intro column row
  have hcolumn : column.WellFormed := rfl
  have hrow : row.WellFormed := rfl
  have hagree : ¬ ∃ i, Shape.axis [2, 1] i ≠ Shape.axis [3] i ∧ Shape.axis [2, 1] i ≠ 1 ∧ Shape.axis [3] i ≠ 1 := by
    rintro ⟨_ | i, hdiffer, hleft, hright⟩
    · exact hleft rfl
    · exact hright rfl
  obtain ⟨-, harrays⟩ := elementwise_spec "+" (· + ·) hcolumn hrow
  obtain ⟨u, hu, -, hrank, -⟩ := (harrays nofun).2 hagree
  exact ⟨hcolumn, hrow, u, hu, hrank⟩

end ArrayCalc.Value
