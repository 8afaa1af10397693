import ArrayCalc.Proofs.Expr.Reading

namespace ArrayCalc.Parser

open Grammar

namespace State

/-- What comes of the tokens from a state on. -/
def outcome (s : State) (ts : List Token) : Except SyntaxError Expr := do
  let next ← ts.foldlM step s
  next.finish

theorem outcome_cons {s next : State} {t : Token} (h : s.step t = .ok next) (ts : List Token) :
    s.outcome (t :: ts) = next.outcome ts := by
  rw [outcome, List.foldlM_cons, h]
  rfl

/-- States come to the same that neither the next token nor the end of the tokens tells apart. -/
theorem outcome_congr {s s' : State} {ts : List Token} (hfinish : s.finish = s'.finish)
    (hstep : ∀ t, ts.head? = some t → s.step t = s'.step t) : s.outcome ts = s'.outcome ts := by
  cases ts with
  | nil => exact hfinish
  | cons t ts => rw [outcome, outcome, List.foldlM_cons, List.foldlM_cons, hstep t rfl]

/-- What comes of the texts from a state on. -/
def run (s : State) (texts : List (List Char)) : Except SyntaxError Expr := do
  let next ← (texts.map Token.ofText).foldlM step s
  next.finish

theorem run_cons {s next : State} {text : List Char} (h : s.step (Token.ofText text) = .ok next)
    (texts : List (List Char)) : s.run (text :: texts) = next.run texts :=
  outcome_cons h (texts.map Token.ofText)

/-- An operand can begin here. -/
def Awaits (s : State) : Prop :=
  s.phase = .operand ∨ s.phase = .arguments

theorem step_of_awaits {s : State} (h : s.Awaits) {t : Token} (ht : t ≠ .closing) : s.step t = s.begin t := by
  unfold step
  rcases h with h | h
  · rw [h]
  · rw [h]
    dsimp only
    split
    · contradiction
    · rfl

/-- A level on which a power is complete; what waited for the power is forgotten. -/
def after (s : State) (power : Expr) (raised : Bool) : State :=
  ⟨s.stack, { sum := s.pending.sum, product := s.pending.product }, .complete power raised⟩

/-- On a level with a complete power it does not matter what waited for the power. -/
theorem outcome_complete (s : State) (power : Expr) (raised : Bool) (ts : List Token) :
    State.outcome { s with phase := .complete power raised } ts = (s.after power raised).outcome ts := by
  refine outcome_congr rfl fun t _ => ?_
  simp only [after, step, afterPower]
  cases t <;> rfl

theorem run_complete (s : State) (power : Expr) (raised : Bool) (texts : List (List Char)) :
    State.run { s with phase := .complete power raised } texts = (s.after power raised).run texts :=
  outcome_complete s power raised (texts.map Token.ofText)

/-- A placeholder that no point follows is an operand. -/
theorem outcome_placeholder (s : State) (name : String) {ts : List Token} (hdot : ts.head? ≠ some .dot) :
    State.outcome { s with phase := .placeholder name } ts = (s.complete (.placeholder name)).outcome ts := by
  refine outcome_congr rfl fun t ht => ?_
  simp only [complete, step, afterPower]
  cases t with
  | dot => exact absurd ht hdot
  | _ => rfl

theorem run_placeholder (s : State) (name : String) {texts : List (List Char)}
    (hdot : texts.head? ≠ some ['.']) :
    State.run { s with phase := .placeholder name } texts = (s.complete (.placeholder name)).run texts := by
  refine outcome_placeholder s name fun h => hdot ?_
  rw [List.head?_map, Option.map_eq_some_iff] at h
  obtain ⟨text, htexts, htoken⟩ := h
  have htext := Token.text_ofText text
  rw [htoken] at htext
  rw [htexts, ← htext]
  rfl

end State

theorem negations_succ (k : Nat) (e : Expr) :
    Pending.negations (k + 1) e = Pending.negations k (.unary Expr.negateOp e) := by
  induction k with
  | zero => rfl
  | succ k ih => rw [Pending.negations, ih, Pending.negations]

/-- What must not follow an operand: a point would belong to its last token. -/
def NoPoint (texts : List (List Char)) : Prop :=
  texts.head? ≠ some ['.']

theorem noPoint_cons {text : List Char} {texts : List (List Char)} (h : text ≠ ['.']) :
    NoPoint (text :: texts) := by
  simpa [NoPoint] using h

theorem noPoint_op {op : String} (h : op ∈ sumOps ++ productOps) (texts : List (List Char)) :
    NoPoint (op.toList :: texts) := by
  have hne : ∀ op ∈ sumOps ++ productOps, op.toList ≠ ['.'] := by decide
  exact noPoint_cons (hne op h)

theorem step_sum {op : String} (hop : op ∈ sumOps) (stack : List (Bracket × Pending)) (p : Pending)
    (power : Expr) (raised : Bool) :
    State.step ⟨stack, p, .complete power raised⟩ (Token.ofText op.toList) =
      .ok ⟨stack, { sum := some (p.closeSum power, op) }, .operand⟩ := by
  simp only [sumOps, List.mem_cons, List.not_mem_nil, or_false] at hop
  rcases hop with rfl | rfl <;> rfl

theorem step_product {op : String} (hop : op ∈ productOps) (stack : List (Bracket × Pending)) (p : Pending)
    (power : Expr) (raised : Bool) :
    State.step ⟨stack, p, .complete power raised⟩ (Token.ofText op.toList) =
      .ok ⟨stack, { sum := p.sum, product := some (p.closeProduct power, op) }, .operand⟩ := by
  simp only [productOps, List.mem_cons, List.not_mem_nil, or_false] at hop
  rcases hop with rfl | rfl <;> rfl

/-- After the texts of an expression its level holds a complete power and closes to the tree. -/
def RunsExpression (ts : List (List Char)) (e : Expr) : Prop :=
  ∀ s : State, s.Awaits → s.pending = .empty →
    ∃ p power raised, p.closeSum power = e ∧ ∀ rest, NoPoint rest →
      s.run (ts ++ rest) = State.run ⟨s.stack, p, .complete power raised⟩ rest

/-- After the texts of a term its level holds a complete power, which closes the product to the tree. -/
def RunsTerm (ts : List (List Char)) (e : Expr) : Prop :=
  ∀ s : State, s.Awaits → s.pending = { sum := s.pending.sum } →
    ∃ product power raised, Pending.apply product power = e ∧ ∀ rest, NoPoint rest →
      s.run (ts ++ rest) =
        State.run ⟨s.stack, { sum := s.pending.sum, product }, .complete power raised⟩ rest

/-- After the texts of a power its level holds it. -/
def RunsPower (ts : List (List Char)) (e : Expr) : Prop :=
  ∀ s : State, s.Awaits → s.pending = { sum := s.pending.sum, product := s.pending.product } →
    ∃ raised, ∀ rest, NoPoint rest → s.run (ts ++ rest) = (s.after e raised).run rest

/-- After the texts of a factor its level holds the power that it completes. -/
def RunsFactor (ts : List (List Char)) (e : Expr) : Prop :=
  ∀ s : State, s.Awaits → ∀ rest, NoPoint rest →
    s.run (ts ++ rest) = (s.after (s.pending.closePower e) s.pending.base.isSome).run rest

/-- After the texts of the arguments and the bracket that closes them, the call is an operand. -/
def RunsArguments (ts : List (List Char)) (args : List Expr) : Prop :=
  ∀ (f : Builtin) (stack : List (Bracket × Pending)) (p : Pending) (rest : List (List Char)),
    State.run ⟨(.call f [], p) :: stack, .empty, .arguments⟩ (ts ++ [')'] :: rest) =
      (State.complete ⟨stack, p, .operand⟩ (.call f.name args)).run rest

/-- The same for the further arguments of a call whose last argument so far is complete. -/
def RunsMoreArguments (ts : List (List Char)) (es : List Expr) : Prop :=
  ∀ (f : Builtin) (stack : List (Bracket × Pending)) (outer p : Pending) (args : List Expr) (power : Expr)
    (raised : Bool) (rest : List (List Char)),
    State.run ⟨(.call f args, outer) :: stack, p, .complete power raised⟩ (ts ++ [')'] :: rest) =
      (State.complete ⟨stack, outer, .operand⟩ (.call f.name (args ++ p.closeSum power :: es))).run rest

theorem RunsTerm.expression {ts : List (List Char)} {e : Expr} (h : RunsTerm ts e) : RunsExpression ts e := by
  intro s hs hempty
  obtain ⟨product, power, raised, hterm, hrun⟩ := h s hs (by simp [hempty, Pending.empty])
  refine ⟨_, power, raised, ?_, hrun⟩
  simpa [hempty, Pending.empty, Pending.closeSum, Pending.closeProduct, Pending.apply] using hterm

theorem RunsExpression.sum {ts us : List (List Char)} {l r : Expr} {op : String} (hop : op ∈ sumOps)
    (hl : RunsExpression ts l) (hr : RunsTerm us r) :
    RunsExpression (ts ++ op.toList :: us) (.binary op l r) := by
  intro s hs hempty
  obtain ⟨p, power, raised, rfl, hrun⟩ := hl s hs hempty
  obtain ⟨product, power', raised', rfl, hrun'⟩ :=
    hr ⟨s.stack, { sum := some (p.closeSum power, op) }, .operand⟩ (.inl rfl) rfl
  refine ⟨{ sum := some (p.closeSum power, op), product }, power', raised', rfl, fun rest hrest => ?_⟩
  have hpoint := noPoint_op (List.mem_append_left productOps hop) (us ++ rest)
  rw [List.append_assoc, List.cons_append, hrun _ hpoint, State.run_cons (step_sum hop ..), hrun' rest hrest]

theorem RunsPower.term {ts : List (List Char)} {e : Expr} (h : RunsPower ts e) : RunsTerm ts e := by
  intro s hs hpending
  have hproduct : s.pending.product = none := by rw [hpending]
  obtain ⟨raised, hrun⟩ := h s hs (by rw [hpending])
  refine ⟨none, e, raised, rfl, fun rest hrest => ?_⟩
  rw [hrun rest hrest, State.after, hproduct]

theorem RunsTerm.product {ts us : List (List Char)} {l r : Expr} {op : String} (hop : op ∈ productOps)
    (hl : RunsTerm ts l) (hr : RunsPower us r) : RunsTerm (ts ++ op.toList :: us) (.binary op l r) := by
  intro s hs hpending
  obtain ⟨product, power, raised, rfl, hrun⟩ := hl s hs hpending
  obtain ⟨raised', hrun'⟩ :=
    hr ⟨s.stack, { sum := s.pending.sum, product := some (Pending.apply product power, op) }, .operand⟩
      (.inl rfl) rfl
  refine ⟨some (Pending.apply product power, op), r, raised', rfl, fun rest hrest => ?_⟩
  have hpoint := noPoint_op (List.mem_append_right sumOps hop) (us ++ rest)
  rw [List.append_assoc, List.cons_append, hrun _ hpoint, State.run_cons (step_product hop ..)]
  exact hrun' rest hrest

/-- Before a power nothing of the power is pending. -/
theorem closePower_of_pending {p : Pending} (h : p = { sum := p.sum, product := p.product }) :
    p.base = none ∧ ∀ e, p.closePower e = e := by
  have hbase : p.base = none := by rw [h]
  have hsigns : p.signs = 0 := by rw [h]
  refine ⟨hbase, fun e => ?_⟩
  rw [Pending.closePower, hbase, hsigns]
  rfl

theorem RunsFactor.power {ts : List (List Char)} {e : Expr} (h : RunsFactor ts e) : RunsPower ts e := by
  intro s hs hpending
  obtain ⟨hbase, hclose⟩ := closePower_of_pending hpending
  refine ⟨false, fun rest hrest => ?_⟩
  rw [h s hs rest hrest, hclose, hbase, Option.isSome_none]

theorem RunsFactor.raised {ts us : List (List Char)} {base exponent : Expr} (hb : RunsFactor ts base)
    (he : RunsFactor us exponent) : RunsPower (ts ++ ['^'] :: us) (.binary "^" base exponent) := by
  intro s hs hpending
  obtain ⟨hbase, hclose⟩ := closePower_of_pending hpending
  refine ⟨true, fun rest hrest => ?_⟩
  have hstep : (s.after base false).step (Token.ofText ['^']) = .ok ((s.after base false).raise base) := rfl
  rw [List.append_assoc, List.cons_append, hb s hs _ (noPoint_cons (by decide)), hclose, hbase,
    Option.isSome_none, State.run_cons hstep, he _ (.inl rfl) rest hrest]
  rfl

theorem RunsExpression.group {ts : List (List Char)} {e : Expr} (h : RunsExpression ts e) :
    RunsFactor (['('] :: ts ++ [[')']]) e := by
  intro s hs rest hrest
  obtain ⟨p, power, raised, rfl, hrun⟩ := h (s.enter .group .operand) (.inl rfl) rfl
  have hopen : s.step (Token.ofText ['(']) = .ok (s.enter .group .operand) := State.step_of_awaits hs nofun
  have hclose : State.step ⟨(s.enter .group .operand).stack, p, .complete power raised⟩ (Token.ofText [')']) =
      .ok (State.complete ⟨s.stack, s.pending, .operand⟩ (p.closeSum power)) := rfl
  rw [List.cons_append, List.cons_append, List.append_assoc, List.singleton_append, State.run_cons hopen,
    hrun _ (noPoint_cons (by decide)), State.run_cons hclose]
  exact State.run_complete s _ _ rest

theorem RunsArguments.call {ts : List (List Char)} {args : List Expr} (f : Builtin) (h : RunsArguments ts args) :
    RunsFactor (f.name.toList :: ['('] :: ts ++ [[')']]) (.call f.name args) := by
  intro s hs rest hrest
  have hname : s.step (Token.ofText f.name.toList) = .ok { s with phase := .opening f } := by
    rw [Token.ofText_name, State.step_of_awaits (t := .name f) hs nofun]
    rfl
  have hopen : State.step { s with phase := .opening f } (Token.ofText ['(']) =
      .ok ⟨(.call f [], s.pending) :: s.stack, .empty, .arguments⟩ := rfl
  simp only [List.cons_append, List.append_assoc, List.nil_append]
  rw [State.run_cons hname, State.run_cons hopen, h f s.stack s.pending rest]
  exact State.run_complete s _ _ rest

theorem step_letter {s : State} (hs : s.Awaits) {c : Char} (hc : Lexer.isUpper c = true) :
    s.step (Token.ofText [c]) = .ok { s with phase := .placeholder (String.singleton c) } := by
  rw [Token.ofText_letter hc, State.step_of_awaits (t := .letter c) hs nofun]
  rfl

theorem runsFactor_placeholder {c : Char} (hc : Lexer.isUpper c = true) :
    RunsFactor [[c]] (.placeholder (String.singleton c)) := by
  intro s hs rest hrest
  rw [List.singleton_append, State.run_cons (step_letter hs hc), State.run_placeholder s _ hrest]
  exact State.run_complete s _ _ rest

theorem runsFactor_transposed {c : Char} (hc : Lexer.isUpper c = true) :
    RunsFactor [[c], ['.'], ['T']] (.unary Expr.transposeOp (.placeholder (String.singleton c))) := by
  intro s hs rest hrest
  have hdot : State.step { s with phase := .placeholder (String.singleton c) } (Token.ofText ['.']) =
      .ok { s with phase := .property (String.singleton c) } := rfl
  have hproperty : State.step { s with phase := .property (String.singleton c) } (Token.ofText ['T']) =
      .ok (s.complete (.unary Expr.transposeOp (.placeholder (String.singleton c)))) := rfl
  simp only [List.cons_append, List.nil_append]
  rw [State.run_cons (step_letter hs hc), State.run_cons hdot, State.run_cons hproperty]
  exact State.run_complete s _ _ rest

theorem runsFactor_literal {text : List Char} {d : Number.Decimal} (h : Number.Literal text d) :
    RunsFactor [text] (.constant (d.toFloat false)) := by
  intro s hs rest hrest
  have hnumber : s.step (Token.ofText text) = .ok (s.complete (.constant (d.toFloat false))) := by
    rw [Token.ofText_literal h, State.step_of_awaits (t := .number text) hs nofun, State.begin_number,
      Number.ofText?_literal h, Option.getD_some]
  rw [List.singleton_append, State.run_cons hnumber]
  exact State.run_complete s _ _ rest

theorem RunsFactor.negated {ts : List (List Char)} {e : Expr} (h : RunsFactor ts e) :
    RunsFactor (['-'] :: ts) (.unary Expr.negateOp e) := by
  intro s hs rest hrest
  have hminus : s.step (Token.ofText ['-']) =
      .ok { s with pending.signs := s.pending.signs + 1, phase := .operand } := State.step_of_awaits hs nofun
  rw [List.cons_append, State.run_cons hminus, h _ (.inl rfl) rest hrest]
  simp only [Pending.closePower, negations_succ]
  rfl

theorem runsArguments_none : RunsArguments [] [] :=
  fun _ _ _ rest => State.run_cons rfl rest

theorem RunsExpression.arguments {ts us : List (List Char)} {e : Expr} {es : List Expr}
    (h : RunsExpression ts e) (hmore : RunsMoreArguments us es)
    (hpoint : ∀ rest, NoPoint (us ++ [')'] :: rest)) : RunsArguments (ts ++ us) (e :: es) := by
  intro f stack p rest
  obtain ⟨q, power, raised, rfl, hrun⟩ :=
    h ⟨(.call f [], p) :: stack, .empty, .arguments⟩ (.inr rfl) rfl
  rw [List.append_assoc, hrun _ (hpoint rest), hmore f stack p q [] power raised rest]
  rfl

theorem runsMoreArguments_none : RunsMoreArguments [] [] :=
  fun _ _ _ _ _ _ _ rest => State.run_cons rfl rest

theorem RunsExpression.moreArguments {ts us : List (List Char)} {e : Expr} {es : List Expr}
    (h : RunsExpression ts e) (hmore : RunsMoreArguments us es)
    (hpoint : ∀ rest, NoPoint (us ++ [')'] :: rest)) : RunsMoreArguments ([','] :: ts ++ us) (e :: es) := by
  intro f stack outer p args power raised rest
  obtain ⟨q, power', raised', rfl, hrun⟩ :=
    h ⟨(.call f (args ++ [p.closeSum power]), outer) :: stack, .empty, .operand⟩ (.inl rfl) rfl
  have hcomma : State.step ⟨(.call f args, outer) :: stack, p, .complete power raised⟩ (Token.ofText [',']) =
      .ok ⟨(.call f (args ++ [p.closeSum power]), outer) :: stack, .empty, .operand⟩ := rfl
  rw [List.cons_append, List.cons_append, List.append_assoc, State.run_cons hcomma, hrun _ (hpoint rest),
    hmore f stack outer q _ power' raised' rest, List.append_assoc]
  rfl

theorem noPoint_moreArguments {ts : List (List Char)} {es : List Expr} (h : MoreArguments ts es)
    (rest : List (List Char)) : NoPoint (ts ++ [')'] :: rest) := by
  cases h with
  | none => exact noPoint_cons (by decide)
  | some h hmore => exact noPoint_cons (by decide)

-- one case for each constructor, each by its own lemma above
mutual

theorem runsExpression {ts : List (List Char)} {e : Expr} : Expression ts e → RunsExpression ts e
  | .term h => (runsTerm h).expression
  | .sum hop hl hr => .sum hop (runsExpression hl) (runsTerm hr)

theorem runsTerm {ts : List (List Char)} {e : Expr} : Term ts e → RunsTerm ts e
  | .power h => (runsPower h).term
  | .product hop hl hr => .product hop (runsTerm hl) (runsPower hr)

theorem runsPower {ts : List (List Char)} {e : Expr} : Power ts e → RunsPower ts e
  | .factor h => (runsFactor h).power
  | .raised hb he => (runsFactor hb).raised (runsFactor he)

theorem runsFactor {ts : List (List Char)} {e : Expr} : Factor ts e → RunsFactor ts e
  | .group h => (runsExpression h).group
  | .call f h => (runsArguments h).call f
  | .placeholder hc => runsFactor_placeholder hc
  | .transposed hc => runsFactor_transposed hc
  | .literal h => runsFactor_literal h
  | .negated h => (runsFactor h).negated

theorem runsArguments {ts : List (List Char)} {args : List Expr} : Arguments ts args → RunsArguments ts args
  | .none => runsArguments_none
  | .some h hmore => (runsExpression h).arguments (runsMoreArguments hmore) (noPoint_moreArguments hmore)

theorem runsMoreArguments {ts : List (List Char)} {es : List Expr} :
    MoreArguments ts es → RunsMoreArguments ts es
  | .none => runsMoreArguments_none
  | .some h hmore => (runsExpression h).moreArguments (runsMoreArguments hmore) (noPoint_moreArguments hmore)

end

/-- Every tree that the grammar gives to the texts is parsed. -/
theorem parse_of_expression {ts : List (List Char)} {e : Expr} (h : Expression ts e) : parse ts = .ok e := by
  obtain ⟨p, power, raised, rfl, hrun⟩ := runsExpression h State.initial (.inl rfl) rfl
  have hend := hrun [] nofun
  rw [List.append_nil] at hend
  exact hend

/-- Parsing gives exactly the trees of the grammar. So a list of tokens has at most one tree, and parsing
    fails on every list that has none. -/
theorem parse_eq_ok_iff_expression (ts : List (List Char)) :
    (∀ e, parse ts = .ok e ↔ Expression ts e) ∧
      (∀ e e', Expression ts e → Expression ts e' → e = e') ∧
      ((¬ ∃ e, Expression ts e) → ∃ err, parse ts = .error err) := by
  refine ⟨fun e => ⟨expression_of_parse, parse_of_expression⟩, fun e e' h h' => ?_, fun hnone => ?_⟩
  · have heq := (parse_of_expression h).symm.trans (parse_of_expression h')
    exact Except.ok.inj heq
  · cases hparse : parse ts with
    | error err => exact ⟨err, rfl⟩
    | ok e => exact absurd ⟨e, expression_of_parse hparse⟩ hnone

end ArrayCalc.Parser
