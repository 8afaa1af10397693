import ArrayCalc.Eval.Evaluate
import ArrayCalc.Proofs.Eval.Operators

namespace ArrayCalc

theorem draw_bind_eq_ok_iff {α β : Type} {x : Draw α} {f : α → Draw β} {drawn : Nat} {y : β × Nat} :
    (x >>= f) drawn = .ok y ↔ ∃ a next, x drawn = .ok (a, next) ∧ f a next = .ok y := by
  rw [show (x >>= f) drawn = x drawn >>= fun p => f p.1 p.2 from rfl, bind_eq_ok_iff]
  exact ⟨fun ⟨⟨a, next⟩, h⟩ => ⟨a, next, h⟩, fun ⟨a, next, h⟩ => ⟨(a, next), h⟩⟩

theorem draw_bind_eq_error_iff {α β : Type} {x : Draw α} {f : α → Draw β} {drawn : Nat} {failure : Failure} :
    (x >>= f) drawn = .error failure ↔
      x drawn = .error failure ∨ ∃ a next, x drawn = .ok (a, next) ∧ f a next = .error failure := by
  rw [show (x >>= f) drawn = x drawn >>= fun p => f p.1 p.2 from rfl, bind_eq_error_iff, Prod.exists]

/-- A computation that draws nothing leaves the count of drawn samples as it is. -/
theorem draw_lift_eq_ok_iff {α : Type} {x : Except Failure α} {drawn next : Nat} {a : α} :
    (liftM x : Draw α) drawn = .ok (a, next) ↔ x = .ok a ∧ next = drawn := by
  rw [show (liftM x : Draw α) drawn = x >>= fun a => .ok (a, drawn) from rfl, bind_eq_ok_iff]
  constructor
  · rintro ⟨_, hx, h⟩
    cases h
    exact ⟨hx, rfl⟩
  · rintro ⟨hx, rfl⟩
    exact ⟨a, hx, rfl⟩

theorem draw_lift_eq_error_iff {α : Type} {x : Except Failure α} {drawn : Nat} {failure : Failure} :
    (liftM x : Draw α) drawn = .error failure ↔ x = .error failure := by
  rw [show (liftM x : Draw α) drawn = x >>= fun a => .ok (a, drawn) from rfl, bind_eq_error_iff]
  simp

theorem draw_pure_eq_ok_iff {α : Type} {a b : α} {drawn next : Nat} :
    (pure a : Draw α) drawn = .ok (b, next) ↔ b = a ∧ next = drawn := by
  rw [show (pure a : Draw α) drawn = .ok (a, drawn) from rfl]
  simp [eq_comm]

namespace Result

theorem toValue_eq_ok_iff {operand : Operand} {r : Result} {v : Value} :
    (r.toValue operand).mapError Failure.evaluation = .ok v ↔ r = .value v := by
  cases r with
  | value w => simp [toValue, Except.mapError]
  | tuple items => simp [toValue, Except.mapError]

end Result

namespace Expr

variable {host : Host} {env : Environment} {drawn next : Nat} {r : Result}

theorem eval_constant {x : Float} (h : eval host env (.constant x) drawn = .ok (r, next)) :
    r = .scalar x ∧ next = drawn := by
  rwa [eval, draw_pure_eq_ok_iff] at h

theorem eval_placeholder {name : String} (h : eval host env (.placeholder name) drawn = .ok (r, next)) :
    ∃ t, env.resolve? name = some t ∧ r = .array t ∧ next = drawn := by
  rw [eval] at h
  cases hname : env.resolve? name with
  | none =>
    rw [hname] at h
    cases h
  | some t =>
    rw [hname] at h
    exact ⟨t, rfl, draw_pure_eq_ok_iff.mp h⟩

/-- The value of an expression where no tuple may stand. -/
def operandValue (host : Host) (env : Environment) (operand : Operand) (e : Expr) : Draw Value := do
  let result ← eval host env e
  (result.toValue operand).mapError Failure.evaluation

theorem eval_unary_eq {op : String} {f : Value → Value} (hop : unaryOperator? op = some f) (e : Expr) :
    eval host env (.unary op e) = do
      let v ← operandValue host env (.unary op) e
      return .value (f v) := by
  rw [eval, hop]
  simp only [operandValue, bind_assoc]

theorem eval_binary_eq {op : String} {f : Value → Value → Except Failure Value} (hop : binaryOperator? op = some f)
    (left right : Expr) :
    eval host env (.binary op left right) = do
      let a ← operandValue host env (.binary op) left
      let b ← operandValue host env (.binary op) right
      return .value (← f a b) := by
  rw [eval, hop]
  simp only [operandValue, bind_assoc]

theorem evalArguments_cons_eq (function : String) (position : Nat) (arg : Expr) (args : List Expr) :
    evalArguments host env function position (arg :: args) = do
      let v ← operandValue host env (.argument function position) arg
      let vs ← evalArguments host env function (position + 1) args
      return v :: vs := by
  rw [evalArguments]
  simp only [operandValue, bind_assoc]

theorem operandValue_eq_ok_iff {operand : Operand} {e : Expr} {v : Value} :
    operandValue host env operand e drawn = .ok (v, next) ↔ eval host env e drawn = .ok (.value v, next) := by
  rw [operandValue, draw_bind_eq_ok_iff]
  constructor
  · rintro ⟨r, mid, hr, h⟩
    rw [draw_lift_eq_ok_iff, Result.toValue_eq_ok_iff] at h
    obtain ⟨rfl, rfl⟩ := h
    exact hr
  · intro h
    exact ⟨_, _, h, draw_lift_eq_ok_iff.mpr ⟨Result.toValue_eq_ok_iff.mpr rfl, rfl⟩⟩

theorem eval_unary {op : String} {operand : Expr}
    (h : eval host env (.unary op operand) drawn = .ok (r, next)) :
    ∃ f v, unaryOperator? op = some f ∧ eval host env operand drawn = .ok (.value v, next) ∧
      r = .value (f v) := by
  cases hop : unaryOperator? op with
  | none =>
    rw [eval, hop] at h
    cases h
  | some f =>
    rw [eval_unary_eq hop, draw_bind_eq_ok_iff] at h
    obtain ⟨v, mid, hv, h⟩ := h
    rw [draw_pure_eq_ok_iff] at h
    obtain ⟨rfl, rfl⟩ := h
    exact ⟨f, v, rfl, operandValue_eq_ok_iff.mp hv, rfl⟩

theorem eval_binary {op : String} {left right : Expr}
    (h : eval host env (.binary op left right) drawn = .ok (r, next)) :
    ∃ f a b mid v, binaryOperator? op = some f ∧ eval host env left drawn = .ok (.value a, mid) ∧
      eval host env right mid = .ok (.value b, next) ∧ f a b = .ok v ∧ r = .value v := by
  cases hop : binaryOperator? op with
  | none =>
    rw [eval, hop] at h
    cases h
  | some f =>
    rw [eval_binary_eq hop, draw_bind_eq_ok_iff] at h
    obtain ⟨a, mid, ha, h⟩ := h
    rw [draw_bind_eq_ok_iff] at h
    obtain ⟨b, _, hb, h⟩ := h
    rw [draw_bind_eq_ok_iff] at h
    obtain ⟨v, _, hv, h⟩ := h
    rw [draw_lift_eq_ok_iff] at hv
    obtain ⟨hv, rfl⟩ := hv
    rw [draw_pure_eq_ok_iff] at h
    obtain ⟨rfl, rfl⟩ := h
    exact ⟨f, a, b, mid, v, rfl, operandValue_eq_ok_iff.mp ha, operandValue_eq_ok_iff.mp hb, hv, rfl⟩

theorem eval_call {name : String} {args : List Expr}
    (h : eval host env (.call name args) drawn = .ok (r, next)) :
    ∃ values mid, evalArguments host env name 1 args drawn = .ok (values, mid) ∧
      Builtin.call host name values mid = .ok (r, next) := by
  rwa [eval_call_eq, draw_bind_eq_ok_iff] at h

theorem evalArguments_cons {function : String} {position : Nat} {arg : Expr} {args : List Expr}
    {values : List Value}
    (h : evalArguments host env function position (arg :: args) drawn = .ok (values, next)) :
    ∃ v vs mid, eval host env arg drawn = .ok (.value v, mid) ∧
      evalArguments host env function (position + 1) args mid = .ok (vs, next) ∧ values = v :: vs := by
  rw [evalArguments_cons_eq, draw_bind_eq_ok_iff] at h
  obtain ⟨v, mid, hv, h⟩ := h
  rw [draw_bind_eq_ok_iff] at h
  obtain ⟨vs, _, hvs, h⟩ := h
  rw [draw_pure_eq_ok_iff] at h
  obtain ⟨rfl, rfl⟩ := h
  exact ⟨v, vs, mid, operandValue_eq_ok_iff.mp hv, hvs, rfl⟩

theorem length_evalArguments {function : String} {args : List Expr} :
    ∀ {position : Nat} {values : List Value} {drawn : Nat},
      evalArguments host env function position args drawn = .ok (values, next) →
        values.length = args.length := by
  induction args with
  | nil =>
    intro position values drawn h
    rw [evalArguments_nil, draw_pure_eq_ok_iff] at h
    rw [h.1, List.length_nil, List.length_nil]
  | cons arg args ih =>
    intro position values drawn h
    obtain ⟨v, vs, mid, _, hvs, rfl⟩ := evalArguments_cons h
    rw [List.length_cons, List.length_cons, ih hvs]

theorem evaluate_eq_ok_iff {e : Expr} :
    evaluate host env e = .ok r ↔ ∃ next, eval host env e 0 = .ok (r, next) := by
  have hrun : evaluate host env e = Prod.fst <$> eval host env e 0 := rfl
  rw [hrun]
  cases eval host env e 0 with
  | error failure => simp [Functor.map, Except.map]
  | ok outcome =>
    obtain ⟨r', next⟩ := outcome
    simp [Functor.map, Except.map]

end Expr

end ArrayCalc
