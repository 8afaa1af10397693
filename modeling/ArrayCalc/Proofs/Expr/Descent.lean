import ArrayCalc.Expr.Descent
import ArrayCalc.Proofs.Except
import ArrayCalc.Proofs.Expr.Parsing

namespace ArrayCalc.Parser

open Descent

/-- An outcome goes by what a rule reads: it is the rule's error, or else that of `next` from the value on. -/
def Follows {α : Type} {n : Nat} (outcome : Except SyntaxError Expr)
    (next : α → List Token → Except SyntaxError Expr) (result : Except SyntaxError (Parsed α n)) : Prop :=
  outcome = result >>= fun r => next r.value r.rest

/-- The tokens do not begin with one of the operators. -/
def Stops (operator? : Token → Option String) (ts : List Token) : Prop :=
  ∀ t, ts.head? = some t → operator? t = none

/-- A rule that goes on after the value of another one. -/
theorem Follows.bind {α β : Type} {m n : Nat} {outcome : Except SyntaxError Expr}
    {next : α → List Token → Except SyntaxError Expr} {last : β → List Token → Except SyntaxError Expr}
    {result : Except SyntaxError (Parsed α m)} {k : Parsed α m → Except SyntaxError (Parsed β n)}
    (h : Follows outcome next result) (hk : ∀ r, result = .ok r → Follows (next r.value r.rest) last (k r)) :
    Follows outcome last (result >>= k) := by
  cases result with
  | error e => exact h
  | ok r => exact Eq.trans h (hk r rfl)

/-- How an outcome goes on after the value may be told in another way. -/
theorem Follows.congr {α : Type} {n : Nat} {outcome : Except SyntaxError Expr}
    {next next' : α → List Token → Except SyntaxError Expr} {result : Except SyntaxError (Parsed α n)}
    (h : Follows outcome next result) (hnext : ∀ r, result = .ok r → next r.value r.rest = next' r.value r.rest) :
    Follows outcome next' result := by
  cases result with
  | error e => exact h
  | ok r => exact Eq.trans h (hnext r rfl)

section Chain

variable {m n : Nat} {operator? : Token → Option String} {operand : Rule Expr n}

/-- A chain ends where none of its operators follows, and there its last operand ends. -/
theorem stops_chain {P : List Token → Prop} (hoperand : ∀ us h r, operand us h = .ok r → P r.rest) (hmn : m ≤ n)
    (left : Parsed Expr m) (hleft : P left.rest) :
    ∀ r, chain operator? operand hmn left = .ok r → P r.rest ∧ Stops operator? r.rest := by
  fun_induction chain operator? operand hmn left with
  | case1 left hrest =>
    intro r hr
    cases hr
    refine ⟨hleft, fun t ht => ?_⟩
    rw [hrest] at ht
    cases ht
  | case2 left t us hrest hnone =>
    intro r hr
    cases hr
    refine ⟨hleft, fun t' ht => ?_⟩
    rw [hrest, List.head?_cons] at ht
    cases ht
    exact hnone
  | case3 left t us hrest op hop hlength ih =>
    intro r hr
    obtain ⟨right, hright, hchain⟩ := bind_eq_ok_iff.mp hr
    exact ih right (hoperand _ _ _ hright) r hchain

theorem stops_leftAssoc {P : List Token → Prop} (hoperand : ∀ us h r, operand us h = .ok r → P r.rest)
    {ts : List Token} {h : ts.length < n} {r : Parsed Expr ts.length} (hr : leftAssoc operator? operand ts h = .ok r) :
    P r.rest ∧ Stops operator? r.rest := by
  obtain ⟨left, hleft, hchain⟩ := bind_eq_ok_iff.mp hr
  exact stops_chain hoperand _ left (hoperand _ _ _ hleft) r hchain

variable {held : Expr → State} (waiting : Expr → String → State)

/-- The reader goes by a chain if it does so for one operator with its operand. In `held` are the operands so far, and
    in `waiting` also the operator after them. -/
theorem follows_chain (hstep : ∀ e t op, operator? t = some op → (held e).step t = .ok (waiting e op))
    (hoperand : ∀ e op us h,
      Follows ((waiting e op).outcome us) (fun r => (held (.binary op e r)).outcome) (operand us h))
    (hmn : m ≤ n) (left : Parsed Expr m) :
    Follows ((held left.value).outcome left.rest) (fun e => (held e).outcome) (chain operator? operand hmn left) := by
  fun_induction chain operator? operand hmn left with
  | case1 left hrest => rfl
  | case2 left t us hrest hnone => rfl
  | case3 left t us hrest op hop hlength ih =>
    rw [hrest, State.outcome_cons (hstep _ _ _ hop)]
    exact (hoperand _ _ _ _).bind fun right _ => ih right

theorem follows_leftAssoc (hstep : ∀ e t op, operator? t = some op → (held e).step t = .ok (waiting e op))
    (hoperand : ∀ e op us h,
      Follows ((waiting e op).outcome us) (fun r => (held (.binary op e r)).outcome) (operand us h))
    {s : State} (hfirst : ∀ us h, Follows (s.outcome us) (fun e => (held e).outcome) (operand us h))
    (ts : List Token) (h : ts.length < n) :
    Follows (s.outcome ts) (fun e => (held e).outcome) (leftAssoc operator? operand ts h) :=
  (hfirst ts h).bind fun left _ => follows_chain waiting hstep hoperand _ left

end Chain

section States

variable {stack : List (Bracket × Pending)} {p : Pending} {e : Expr} {ts : List Token}

theorem State.outcome_cons_error {s : State} {t : Token} {err : SyntaxError} (h : s.step t = .error err)
    (ts : List Token) : s.outcome (t :: ts) = .error err := by
  rw [State.outcome, List.foldlM_cons, h]
  rfl

/-- An argument list that does not end at once begins with an operand. -/
theorem outcome_arguments (hclosing : ts.head? ≠ some .closing) :
    State.outcome ⟨stack, p, .arguments⟩ ts = State.outcome ⟨stack, p, .operand⟩ ts := by
  refine State.outcome_congr rfl fun t ht => ?_
  have hne : t ≠ .closing := by
    rintro rfl
    exact hclosing ht
  rw [State.step_of_awaits (.inr rfl) hne, State.step_of_awaits (.inl rfl) hne]
  rfl

/-- Without an exponent to come it does not matter whether the power has one. -/
theorem outcome_raised (hcaret : ts.head? ≠ some .caret) (raised : Bool) :
    State.outcome ⟨stack, p, .complete e raised⟩ ts = State.outcome ⟨stack, p, .complete e true⟩ ts := by
  refine State.outcome_congr rfl fun t ht => ?_
  cases t with
  | caret => exact absurd ht hcaret
  | _ => rfl

/-- A power may be joined at once with the powers of the term before it. -/
theorem outcome_closeProduct :
    State.outcome ⟨stack, p, .complete e true⟩ ts =
      State.outcome ⟨stack, { sum := p.sum }, .complete (p.closeProduct e) true⟩ ts := by
  refine State.outcome_congr rfl fun t _ => ?_
  cases t <;> rfl

/-- Where a term ends it may be joined at once with the terms before it. -/
theorem outcome_closeSum (hproduct : Stops productOperator? ts) :
    State.outcome ⟨stack, p, .complete e true⟩ ts =
      State.outcome ⟨stack, .empty, .complete (p.closeSum e) true⟩ ts := by
  refine State.outcome_congr rfl fun t ht => ?_
  have hnone := hproduct t ht
  cases t with
  | times | atSign => cases hnone
  | _ => rfl

/-- A sign that waits for an operand may be joined with it at once. -/
theorem outcome_negated (e : Expr) (ts : List Token) :
    State.outcome (State.complete ⟨stack, { p with signs := p.signs + 1 }, .operand⟩ e) ts =
      State.outcome (State.complete ⟨stack, p, .operand⟩ (.unary Expr.negateOp e)) ts := by
  rw [State.complete, State.complete, State.outcome_complete, State.outcome_complete, Pending.closePower,
    Pending.closePower, negations_succ]
  rfl

/-- After an expression no other token can stand than one that closes or goes on with the brackets around it. -/
theorem step_misplaced {t : Token} (hproduct : productOperator? t = none) (hsum : sumOperator? t = none)
    (hclosing : t = .closing → stack = [])
    (hcomma : t = .comma → ∀ f args outer rest, stack ≠ (.call f args, outer) :: rest) :
    State.step ⟨stack, .empty, .complete e true⟩ t =
      .error (State.misplaced ⟨stack, .empty, .complete e true⟩ t) := by
  cases t with
  | plus | minus => cases hsum
  | times | atSign => cases hproduct
  | closing =>
    rw [hclosing rfl]
    rfl
  | comma =>
    simp only [State.step, State.afterPower]
    split
    · exact absurd rfl (hcomma rfl _ _ _ _)
    · rfl
  | _ => rfl

/-- The operand that a bracket becomes with the expression before its end. -/
def Bracket.close : Bracket → Expr → Expr
  | .group, e => e
  | .call f args, e => .call f.name (args ++ [e])

/-- What comes of tokens that have to begin with a closing bracket, from the state `s` on after it. -/
def closing (s : State) : List Token → Except SyntaxError Expr
  | .closing :: us => s.outcome us
  | t :: _ => .error (.missingClosing (some t.text))
  | [] => .error (.missingClosing none)

/-- After an expression in a bracket, of which no further argument follows, the bracket has to close. -/
theorem outcome_bracket {b : Bracket} (hproduct : Stops productOperator? ts) (hsum : Stops sumOperator? ts)
    (hcomma : ts.head? = some .comma → b = .group) :
    State.outcome ⟨(b, p) :: stack, .empty, .complete e true⟩ ts =
      closing (State.complete ⟨stack, p, .operand⟩ (b.close e)) ts := by
  cases ts with
  | nil => rfl
  | cons t us =>
    by_cases hclosing : t = .closing
    · subst hclosing
      refine State.outcome_cons ?_ us
      cases b <;> rfl
    · have hgroup : t = .comma → ∀ f args outer rest, (b, p) :: stack ≠ (.call f args, outer) :: rest := by
        intro ht f args outer rest heq
        have hb := hcomma (congrArg some ht)
        subst hb
        cases heq
      rw [State.outcome_cons_error (step_misplaced (hproduct t rfl) (hsum t rfl) (absurd · hclosing) hgroup)]
      simp only [closing]
      rfl

theorem follows_expectClosing {α : Type} {n : Nat} (next : α → State) (r : Parsed α n) :
    Follows (closing (next r.value) r.rest) (fun x => (next x).outcome) r.expectClosing := by
  unfold Parsed.expectClosing
  split
  · next us hrest => exact congrArg (closing (next r.value)) hrest
  · next t us hne hrest =>
    rw [hrest]
    simp only [closing]
    rfl
  · next hrest =>
    rw [hrest]
    rfl

end States

/-- The reader goes by the rule from the beginning of a level on, and an operator that the level could go on with does
    not follow what the rule reads. -/
structure GoesBy {n : Nat} (rule : Rule Expr n) : Prop where
  follows : ∀ stack ts h, Follows (State.outcome ⟨stack, .empty, .operand⟩ ts)
    (fun e => State.outcome ⟨stack, .empty, .complete e true⟩) (rule ts h)
  stops : ∀ ts h r, rule ts h = .ok r → Stops productOperator? r.rest ∧ Stops sumOperator? r.rest

section Nested

variable {n : Nat} {nested : Rule Expr n} (hnested : GoesBy nested) {stack : List (Bracket × Pending)}

include hnested

/-- The arguments of a call have to be followed by its closing bracket. -/
theorem follows_arguments (f : Builtin) (p : Pending) (args : List Expr) (ts : List Token) (h : ts.length < n) :
    Follows (State.outcome ⟨(.call f args, p) :: stack, .empty, .operand⟩ ts)
      (fun es => closing (State.complete ⟨stack, p, .operand⟩ (.call f.name es))) (arguments nested args ts h) := by
  fun_induction arguments nested args ts h with
  | case1 args ts h ih =>
    refine (hnested.follows _ ts h).bind fun arg harg => ?_
    split
    · next us hrest =>
      have hcomma : State.outcome ⟨(.call f args, p) :: stack, .empty, .complete arg.value true⟩ arg.rest =
          State.outcome ⟨(.call f (args ++ [arg.value]), p) :: stack, .empty, .operand⟩ us := by
        rw [hrest]
        exact State.outcome_cons rfl us
      rw [hcomma]
      exact (ih arg us hrest).bind fun r _ => rfl
    · next hne =>
      obtain ⟨hproduct, hsum⟩ := hnested.stops ts h arg harg
      refine outcome_bracket hproduct hsum fun hcomma => ?_
      obtain ⟨us, hrest⟩ := List.head?_eq_some_iff.mp hcomma
      exact absurd hrest (hne us)

theorem follows_call (f : Builtin) (p : Pending) (ts : List Token) (h : ts.length < n + 1) :
    Follows (State.outcome ⟨stack, p, .opening f⟩ ts)
      (fun e => State.outcome (State.complete ⟨stack, p, .operand⟩ e)) (call nested f ts h) := by
  unfold call
  split
  · next us => rfl
  · next us _ hne =>
    have hopen : State.outcome ⟨stack, p, .opening f⟩ (.opening :: us) =
        State.outcome ⟨(.call f [], p) :: stack, .empty, .operand⟩ us := by
      refine (State.outcome_cons rfl us).trans (outcome_arguments fun hclosing => ?_)
      obtain ⟨vs, hus⟩ := List.head?_eq_some_iff.mp hclosing
      subst hus
      exact hne vs _ HEq.rfl rfl
    rw [hopen]
    refine (follows_arguments hnested f p [] us _).bind fun args _ => ?_
    have hcall := follows_expectClosing (fun es => State.complete ⟨stack, p, .operand⟩ (.call f.name es)) args
    exact hcall.bind fun r _ => rfl
  · next t us _ _ hnot =>
    refine State.outcome_cons_error ?_ us
    cases t with
    | opening => exact absurd rfl hnot
    | _ => rfl
  · rfl

omit hnested in
theorem follows_placeholder (name : String) (p : Pending) (ts : List Token) :
    Follows (State.outcome ⟨stack, p, .placeholder name⟩ ts)
      (fun e => State.outcome (State.complete ⟨stack, p, .operand⟩ e)) (placeholder name ts) := by
  unfold placeholder
  split
  · rfl
  · next t us hne =>
    refine (State.outcome_cons rfl (t :: us)).trans (State.outcome_cons_error ?_ us)
    simp only [State.step]
  · rfl
  · next hdot hend =>
    refine State.outcome_placeholder ⟨stack, p, .operand⟩ name fun hhead => ?_
    obtain ⟨us, rfl⟩ := List.head?_eq_some_iff.mp hhead
    cases us with
    | nil => exact hend rfl
    | cons t us => exact hdot t us rfl

theorem follows_factor (p : Pending) (ts : List Token) (h : ts.length < n + 1) :
    Follows (State.outcome ⟨stack, p, .operand⟩ ts)
      (fun e => State.outcome (State.complete ⟨stack, p, .operand⟩ e)) (factor nested ts h) := by
  -- a sign waits at the level of its operand, so what waits there changes along the signs
  induction ts generalizing p with
  | nil => rfl
  | cons t us ih =>
    cases t with
    | opening =>
      rw [State.outcome_cons rfl, factor]
      refine (hnested.follows _ us _).bind fun inner hinner => ?_
      obtain ⟨hproduct, hsum⟩ := hnested.stops _ _ inner hinner
      rw [outcome_bracket hproduct hsum fun _ => rfl]
      exact (follows_expectClosing (State.complete ⟨stack, p, .operand⟩) inner).bind fun r _ => rfl
    | name f =>
      rw [State.outcome_cons rfl]
      exact follows_call hnested f p us _
    | letter c =>
      rw [State.outcome_cons rfl]
      exact follows_placeholder _ p us
    | number text => exact State.outcome_cons rfl us
    | minus =>
      rw [State.outcome_cons rfl, factor]
      refine (ih { p with signs := p.signs + 1 } _).bind fun operand _ => ?_
      exact outcome_negated operand.value operand.rest
    | _ => rfl

theorem follows_power (sum product : Option (Expr × String)) (ts : List Token) (h : ts.length < n + 1) :
    Follows (State.outcome ⟨stack, { sum, product }, .operand⟩ ts)
      (fun e => State.outcome ⟨stack, { sum, product }, .complete e true⟩) (power nested ts h) := by
  unfold power
  refine (follows_factor hnested _ ts h).bind fun base _ => ?_
  change Follows (State.outcome ⟨stack, { sum, product }, .complete base.value false⟩ base.rest) _ _
  split
  · next us hrest =>
    have hcaret : State.outcome ⟨stack, { sum, product }, .complete base.value false⟩ base.rest =
        State.outcome ⟨stack, { sum, product, base := some base.value }, .operand⟩ us := by
      rw [hrest]
      exact State.outcome_cons rfl us
    rw [hcaret]
    refine (follows_factor hnested _ us _).bind fun exponent _ => ?_
    exact State.outcome_complete ⟨stack, { sum, product, base := some base.value }, .operand⟩ _ true exponent.rest
  · next hne =>
    refine outcome_raised (fun hcaret => ?_) false
    obtain ⟨us, hrest⟩ := List.head?_eq_some_iff.mp hcaret
    exact hne us hrest

theorem follows_term (sum : Option (Expr × String)) (ts : List Token) (h : ts.length < n + 1) :
    Follows (State.outcome ⟨stack, { sum }, .operand⟩ ts)
      (fun e => State.outcome ⟨stack, { sum }, .complete e true⟩) (term nested ts h) := by
  refine follows_leftAssoc (fun e op => ⟨stack, { sum, product := some (e, op) }, .operand⟩) ?_ ?_
    (follows_power hnested sum none) ts h
  · intro e t op hop
    cases t <;> cases hop <;> rfl
  · intro e op us h
    exact (follows_power hnested sum (some (e, op)) us h).congr fun r _ => outcome_closeProduct

omit hnested in
theorem stops_term {ts : List Token} {h : ts.length < n + 1} {r : Parsed Expr ts.length}
    (hr : term nested ts h = .ok r) : Stops productOperator? r.rest :=
  (stops_leftAssoc (P := fun _ => True) (fun _ _ _ _ => trivial) hr).2

theorem goesBy_sum : GoesBy (sum nested) where
  follows stack ts h := by
    refine follows_leftAssoc (fun e op => ⟨stack, { sum := some (e, op) }, .operand⟩) ?_ ?_
      (follows_term hnested none) ts h
    · intro e t op hop
      cases t <;> cases hop <;> rfl
    · intro e op us h
      exact (follows_term hnested (some (e, op)) us h).congr fun r hr => outcome_closeSum (stops_term hr)
  stops ts h r hr := stops_leftAssoc (fun _ _ _ => stops_term) hr

end Nested

/-- On tokens fewer than any bound the reader goes by the rule for expressions. -/
theorem goesBy_expression (n : Nat) : GoesBy (fun ts (_ : ts.length < n) => expression ts) := by
  induction n using Nat.strong_induction_on with
  | _ n ih =>
    -- the expressions nested in `ts` are read by the same rule, from fewer tokens than `ts` has
    constructor
    · intro stack ts h
      rw [expression]
      exact (goesBy_sum (ih ts.length h)).follows stack ts _
    · intro ts h r hr
      rw [expression] at hr
      exact (goesBy_sum (ih ts.length h)).stops ts _ r hr

/-- The descent through the rules of the grammar gives the tree or the error of the parser. -/
theorem parseTokens_eq_descent (ts : List Token) : parseTokens ts = Descent.parse ts := by
  have hexpression := goesBy_expression (ts.length + 1)
  have hfollows := hexpression.follows [] ts (Nat.lt_succ_self _)
  refine hfollows.trans ?_
  unfold Descent.parse
  cases htree : expression ts with
  | error err => rfl
  | ok tree =>
    obtain ⟨hproduct, hsum⟩ := hexpression.stops ts (Nat.lt_succ_self _) tree htree
    change State.outcome ⟨[], .empty, .complete tree.value true⟩ tree.rest = tree.expectEnd
    rw [Parsed.expectEnd]
    cases hrest : tree.rest with
    | nil => rfl
    | cons t us =>
      rw [hrest] at hproduct hsum
      exact State.outcome_cons_error
        (step_misplaced (hproduct t rfl) (hsum t rfl) (fun _ => rfl) fun _ _ _ _ _ => nofun) us

end ArrayCalc.Parser
