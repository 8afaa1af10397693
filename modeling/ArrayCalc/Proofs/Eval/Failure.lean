import ArrayCalc.Proofs.Eval.Endless
import ArrayCalc.Proofs.Mat.Iteration
import ArrayCalc.Proofs.Number.Bits

namespace ArrayCalc

namespace Mat

variable {n : Nat} {a : Mat Float n n}

end Mat

namespace Value

end Value

namespace Failure

/-- A failure that is none of the expression's own errors. -/
def Escapes (failure : Failure) : Prop :=
  ∀ err, failure ≠ .evaluation err

/-- What a failure inside a function is to the expression that calls it: a fault is wrapped. -/
def inside (f : Builtin) : Failure → Failure
  | evaluation e => .evaluation e
  | fault x => .evaluation (.numeric f.name x)
  | endless => .endless

end Failure

theorem mapError_evaluation_ne {α : Type} {failure : Failure} (hescapes : failure.Escapes)
    (x : Except EvaluationError α) : x.mapError Failure.evaluation ≠ .error failure := by
  intro h
  obtain ⟨e, -, he⟩ := mapError_eq_error_iff.mp h
  exact hescapes e he.symm

namespace Builtin

variable {host : Host} {f : Builtin} {args : List Value} {drawn : Nat}

theorem call_of_apply_eq_error (hleast : f.signature.least ≤ args.length) (hmost : args.length ≤ f.signature.most)
    {failure : Failure} (h : f.apply host args drawn = .error failure) :
    call host f.name args drawn = .error (failure.inside f) := by
  have hcount : ¬ (args.length < f.signature.least ∨ f.signature.most < args.length) := by omega
  unfold call
  rw [ofName?_name]
  dsimp only
  rw [if_neg hcount, h]
  cases failure with
  | evaluation e => rfl
  | fault x => rfl
  | endless => rfl

end Builtin

namespace Expr

section

variable {host : Host} {env : Environment} {drawn next : Nat}

/-- A tuple out of place is an error of the expression, so what escapes is a failure of the operand. -/
theorem eval_of_operandValue_eq_error {operand : Operand} {e : Expr} {failure : Failure} (hescapes : failure.Escapes)
    (h : operandValue host env operand e drawn = .error failure) : eval host env e drawn = .error failure := by
  rw [operandValue, draw_bind_eq_error_iff] at h
  obtain h | ⟨r, mid, -, h⟩ := h
  · exact h
  · rw [draw_lift_eq_error_iff] at h
    exact absurd h (mapError_evaluation_ne hescapes _)

end

/-- Evaluating an expression, with so many samples drawn, reaches a part of it with so many drawn by then: the
    operands and arguments before it have values. -/
inductive Reaches (host : Host) (env : Environment) : Expr → Nat → Expr → Nat → Prop where
  | here (e : Expr) (drawn : Nat) : Reaches host env e drawn e drawn
  | operand {op : String} {f : Value → Value} {operand e : Expr} {drawn k : Nat} (hop : unaryOperator? op = some f)
      (h : Reaches host env operand drawn e k) : Reaches host env (.unary op operand) drawn e k
  | left {op : String} {f : Value → Value → Except Failure Value} {left right e : Expr} {drawn k : Nat}
      (hop : binaryOperator? op = some f) (h : Reaches host env left drawn e k) :
      Reaches host env (.binary op left right) drawn e k
  | right {op : String} {f : Value → Value → Except Failure Value} {left right e : Expr} {a : Value}
      {drawn mid k : Nat} (hop : binaryOperator? op = some f)
      (hleft : eval host env left drawn = .ok (.value a, mid)) (h : Reaches host env right mid e k) :
      Reaches host env (.binary op left right) drawn e k
  | argument {name : String} {before after : List Expr} {arg e : Expr} {values : List Value} {drawn mid k : Nat}
      (hbefore : evalArguments host env name 1 before drawn = .ok (values, mid))
      (h : Reaches host env arg mid e k) : Reaches host env (.call name (before ++ arg :: after)) drawn e k

section

variable {host : Host} {env : Environment} {failure : Failure}

end

/-- With values for all its operands and arguments, the expression itself fails. -/
inductive Raises (host : Host) (env : Environment) : Expr → Nat → Failure → Prop where
  | operator {op : String} {f : Value → Value → Except Failure Value} {left right : Expr} {a b : Value}
      {drawn mid next : Nat} {failure : Failure} (hop : binaryOperator? op = some f)
      (hleft : eval host env left drawn = .ok (.value a, mid)) (hright : eval host env right mid = .ok (.value b, next))
      (h : f a b = .error failure) : Raises host env (.binary op left right) drawn failure
  | function {name : String} {args : List Expr} {values : List Value} {drawn next : Nat} {failure : Failure}
      (hvalues : evalArguments host env name 1 args drawn = .ok (values, next))
      (h : Builtin.call host name values next = .error failure) : Raises host env (.call name args) drawn failure

/-- The evaluation comes to a part that fails itself. -/
def ReachesFailure (host : Host) (env : Environment) (e : Expr) (drawn : Nat) (failure : Failure) : Prop :=
  ∃ part k, Reaches host env e drawn part k ∧ Raises host env part k failure

section

variable {host : Host} {env : Environment} {failure : Failure}

theorem ReachesFailure.of_part {e e' : Expr} {drawn mid : Nat} (h : ReachesFailure host env e' mid failure)
    (hpart : ∀ inner k, Reaches host env e' mid inner k → Reaches host env e drawn inner k) :
    ReachesFailure host env e drawn failure := by
  obtain ⟨part, k, hreaches, hraises⟩ := h
  exact ⟨part, k, hpart _ _ hreaches, hraises⟩

-- one case for each constructor: what escapes from a part is passed on, and operators and calls add their own
mutual

theorem reachesFailure_of_error (hescapes : failure.Escapes) : (e : Expr) → (drawn : Nat) →
    eval host env e drawn = .error failure → ReachesFailure host env e drawn failure
  | constant x, drawn, h => by
    rw [eval] at h
    cases h
  | placeholder name, drawn, h => by
    rw [eval] at h
    cases hname : env.resolve? name with
    | none =>
      rw [hname] at h
      cases h
      exact absurd rfl (hescapes _)
    | some t =>
      rw [hname] at h
      cases h
  | unary op operand, drawn, h => by
    cases hop : unaryOperator? op with
    | none =>
      rw [eval, hop] at h
      cases h
      exact absurd rfl (hescapes _)
    | some f =>
      rw [eval_unary_eq hop, draw_bind_eq_error_iff] at h
      obtain h | ⟨v, next, -, h⟩ := h
      · have hpart := reachesFailure_of_error hescapes operand _ (eval_of_operandValue_eq_error hescapes h)
        exact hpart.of_part fun _ _ => .operand hop
      · cases h
  | binary op left right, drawn, h => by
    cases hop : binaryOperator? op with
    | none =>
      rw [eval, hop] at h
      cases h
      exact absurd rfl (hescapes _)
    | some f =>
      rw [eval_binary_eq hop, draw_bind_eq_error_iff] at h
      obtain h | ⟨a, mid, hleft, h⟩ := h
      · have hpart := reachesFailure_of_error hescapes left _ (eval_of_operandValue_eq_error hescapes h)
        exact hpart.of_part fun _ _ => .left hop
      rw [operandValue_eq_ok_iff] at hleft
      rw [draw_bind_eq_error_iff] at h
      obtain h | ⟨b, next, hright, h⟩ := h
      · have hpart := reachesFailure_of_error hescapes right _ (eval_of_operandValue_eq_error hescapes h)
        exact hpart.of_part fun _ _ => .right hop hleft
      rw [operandValue_eq_ok_iff] at hright
      rw [draw_bind_eq_error_iff, draw_lift_eq_error_iff] at h
      obtain h | ⟨v, last, -, h⟩ := h
      · exact ⟨_, drawn, .here _ _, .operator hop hleft hright h⟩
      · cases h
  | call name args, drawn, h => by
    rw [eval_call_eq, draw_bind_eq_error_iff] at h
    obtain h | ⟨values, mid, hvalues, h⟩ := h
    · obtain ⟨before, arg, after, values, mid, rfl, hbefore, hpart⟩ := argument_of_error hescapes args _ _ _ h
      exact hpart.of_part fun _ _ => .argument hbefore
    · exact ⟨_, drawn, .here _ _, .function hvalues h⟩

theorem argument_of_error (hescapes : failure.Escapes) : (args : List Expr) → (function : String) →
    (position drawn : Nat) → evalArguments host env function position args drawn = .error failure →
      ∃ before arg after values mid, args = before ++ arg :: after ∧
        evalArguments host env function position before drawn = .ok (values, mid) ∧
          ReachesFailure host env arg mid failure
  | [], function, position, drawn, h => by
    rw [evalArguments_nil] at h
    cases h
  | arg :: args, function, position, drawn, h => by
    rw [evalArguments_cons_eq, draw_bind_eq_error_iff] at h
    obtain h | ⟨v, mid, hv, h⟩ := h
    · have hpart := reachesFailure_of_error hescapes arg _ (eval_of_operandValue_eq_error hescapes h)
      refine ⟨[], arg, args, [], drawn, rfl, ?_, hpart⟩
      rw [evalArguments_nil, draw_pure_eq_ok_iff]
      exact ⟨rfl, rfl⟩
    rw [draw_bind_eq_error_iff] at h
    obtain h | ⟨vs, next, -, h⟩ := h
    · obtain ⟨before, part, after, values, last, rfl, hbefore, hpart⟩ := argument_of_error hescapes args _ _ _ h
      refine ⟨arg :: before, part, after, v :: values, last, rfl, ?_, hpart⟩
      rw [evalArguments_cons_eq, draw_bind_eq_ok_iff]
      refine ⟨v, mid, hv, draw_bind_eq_ok_iff.mpr ⟨values, last, hbefore, ?_⟩⟩
      rw [draw_pure_eq_ok_iff]
      exact ⟨rfl, rfl⟩
    · cases h

end

variable {e : Expr} {drawn : Nat}

end

end Expr

end ArrayCalc
