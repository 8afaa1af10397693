import ArrayCalc.Proofs.Expr.Parsing

namespace ArrayCalc.Parser

open Grammar

/-- Some expression begins with the tokens. -/
def Viable (ts : List (List Char)) : Prop :=
  ∃ rest e, Expression (ts ++ rest) e

theorem Viable.of_isPrefix {ts us : List (List Char)} (h : Viable us) (hbegins : ts <+: us) : Viable ts := by
  obtain ⟨vs, rfl⟩ := hbegins
  obtain ⟨rest, e, he⟩ := h
  exact ⟨vs ++ rest, e, by rwa [← List.append_assoc]⟩

/-- The tokens `before` and `t` begin the list, and nothing shorter that begins it is impossible. -/
structure FirstImpossible (ts before : List (List Char)) (t : List Char) : Prop where
  beginning : before ++ [t] <+: ts
  impossible : ¬ Viable (before ++ [t])
  shortest : ∀ us, us <+: ts → ¬ Viable us → (before ++ [t]).length ≤ us.length

/-- What can be read before a token that cannot be read is all that is viable. -/
theorem firstImpossible_of_viable {before rest : List (List Char)} {t : List Char} (hbefore : Viable before)
    (ht : ¬ Viable (before ++ [t])) : FirstImpossible (before ++ t :: rest) before t := by
  refine ⟨⟨rest, by simp⟩, ht, fun us hus hviable => Nat.le_of_not_lt fun hlength => ?_⟩
  have hle : us.length ≤ before.length := by
    rw [List.length_append, List.length_singleton] at hlength
    omega
  have hbegins : us <+: before := List.prefix_of_prefix_length_le hus (List.prefix_append ..) hle
  exact hviable (hbefore.of_isPrefix hbegins)

namespace State

/-- The state after the texts. -/
def advance (s : State) (texts : List (List Char)) : Except SyntaxError State :=
  (texts.map Token.ofText).foldlM step s

theorem advance_cons (s : State) (text : List Char) (texts : List (List Char)) :
    s.advance (text :: texts) = s.step (Token.ofText text) >>= fun next => next.advance texts := by
  rw [advance, List.map_cons, List.foldlM_cons]
  rfl

theorem run_append {s next : State} {ts : List (List Char)} (h : s.advance ts = .ok next)
    (rest : List (List Char)) : s.run (ts ++ rest) = next.run rest := by
  rw [run, List.map_append, List.foldlM_append, ← advance, h]
  rfl

/-- Reading fails at the first token that the state before it does not accept. -/
theorem exists_step_of_advance {ts : List (List Char)} {err : SyntaxError} :
    ∀ {s : State}, s.advance ts = .error err →
      ∃ before t rest next, ts = before ++ t :: rest ∧ s.advance before = .ok next ∧
        next.step (Token.ofText t) = .error err := by
  induction ts with
  | nil =>
    intro s h
    cases h
  | cons t ts ih =>
    intro s h
    rw [advance_cons] at h
    cases hstep : s.step (Token.ofText t) with
    | error e =>
      rw [hstep] at h
      cases h
      exact ⟨[], t, ts, s, rfl, rfl, hstep⟩
    | ok middle =>
      rw [hstep] at h
      obtain ⟨before, t', rest, next, rfl, hbefore, hnext⟩ := ih h
      refine ⟨t :: before, t', rest, next, rfl, ?_, hnext⟩
      rw [advance_cons, hstep]
      exact hbefore

/-- Once a power is complete, closing all open brackets ends the expression. -/
theorem exists_run_complete (stack : List (Bracket × Pending)) :
    ∀ (p : Pending) (power : Expr) (raised : Bool),
      ∃ rest e, run ⟨stack, p, .complete power raised⟩ rest = .ok e := by
  induction stack with
  | nil => exact fun p power raised => ⟨[], p.closeSum power, rfl⟩
  | cons level stack ih =>
    intro p power raised
    obtain ⟨b, outer⟩ := level
    cases b with
    | group =>
      obtain ⟨rest, e, h⟩ := ih outer (outer.closePower (p.closeSum power)) outer.base.isSome
      exact ⟨[')'] :: rest, e, (run_cons rfl rest).trans h⟩
    | call f args =>
      obtain ⟨rest, e, h⟩ :=
        ih outer (outer.closePower (.call f.name (args ++ [p.closeSum power]))) outer.base.isSome
      exact ⟨[')'] :: rest, e, (run_cons rfl rest).trans h⟩

theorem exists_run_awaits {s : State} (h : s.Awaits) : ∃ rest e, s.run rest = .ok e := by
  have hzero : Token.ofText ['0'] = .number ['0'] := by decide
  have hstep : s.step (Token.ofText ['0']) = .ok (s.complete (.constant ((Number.ofText? ['0']).getD 0))) := by
    rw [hzero, step_of_awaits (t := .number ['0']) h nofun, begin_number]
  obtain ⟨rest, e, hrest⟩ := exists_run_complete s.stack s.pending
    (s.pending.closePower (.constant ((Number.ofText? ['0']).getD 0))) s.pending.base.isSome
  exact ⟨['0'] :: rest, e, (run_cons hstep rest).trans hrest⟩

/-- Whatever has been read so far, some tokens complete it to an expression. -/
theorem exists_run (s : State) : ∃ rest e, s.run rest = .ok e := by
  obtain ⟨stack, p, phase⟩ := s
  cases phase with
  | operand => exact exists_run_awaits (.inl rfl)
  | arguments => exact exists_run_awaits (.inr rfl)
  | opening f =>
    obtain ⟨rest, e, h⟩ := exists_run_complete stack p (p.closePower (.call f.name [])) p.base.isSome
    exact ⟨['('] :: [')'] :: rest, e, (run_cons rfl _).trans ((run_cons rfl rest).trans h)⟩
  | placeholder name =>
    obtain ⟨rest, e, h⟩ := exists_run_complete stack p
      (p.closePower (.unary Expr.transposeOp (.placeholder name))) p.base.isSome
    exact ⟨['.'] :: ['T'] :: rest, e, (run_cons rfl _).trans ((run_cons rfl rest).trans h)⟩
  | property name =>
    obtain ⟨rest, e, h⟩ := exists_run_complete stack p
      (p.closePower (.unary Expr.transposeOp (.placeholder name))) p.base.isSome
    exact ⟨['T'] :: rest, e, (run_cons rfl rest).trans h⟩
  | complete power raised => exact exists_run_complete stack p power raised

/-- What a state has read is the beginning of an expression. -/
theorem viable_of_advance {s : State} {ts : List (List Char)} (h : initial.advance ts = .ok s) : Viable ts := by
  obtain ⟨rest, e, hrun⟩ := s.exists_run
  exact ⟨rest, e, expression_of_parse ((run_append h rest).trans hrun)⟩

theorem viable_of_step {s next : State} {ts : List (List Char)} {t : List Char}
    (h : initial.advance ts = .ok s) (hstep : s.step (Token.ofText t) = .ok next) : Viable (ts ++ [t]) := by
  obtain ⟨rest, e, hrun⟩ := next.exists_run
  have hparse : parse (ts ++ t :: rest) = .ok e := by
    exact (run_append h _).trans ((run_cons hstep rest).trans hrun)
  exact ⟨rest, e, by simpa using expression_of_parse hparse⟩

/-- A token that a state refuses begins no expression with what the state has read. -/
theorem not_viable_of_step {s : State} {ts : List (List Char)} {t : List Char} {err : SyntaxError}
    (h : initial.advance ts = .ok s) (hstep : s.step (Token.ofText t) = .error err) :
    ¬ Viable (ts ++ [t]) := by
  rintro ⟨rest, e, he⟩
  rw [List.append_assoc, List.singleton_append] at he
  have hparse : s.run (t :: rest) = .ok e := (run_append h _).symm.trans (parse_of_expression he)
  rw [run, List.map_cons, List.foldlM_cons, hstep] at hparse
  cases hparse

/-- A power ends here unless a point or an operator continues it. -/
def EndsPower (s : State) : Prop :=
  (∃ power raised, s.phase = .complete power raised) ∨ ∃ name, s.phase = .placeholder name

theorem finish_of_endsPower {s : State} (h : s.EndsPower) (hstack : s.stack = []) : ∃ e, s.finish = .ok e := by
  unfold finish
  rcases h with ⟨power, raised, hphase⟩ | ⟨name, hphase⟩
  · rw [hphase, hstack]
    exact ⟨_, rfl⟩
  · rw [hphase, hstack]
    exact ⟨_, rfl⟩

theorem step_closing_of_endsPower {s : State} (h : s.EndsPower) (hstack : s.stack ≠ []) :
    ∃ next, s.step .closing = .ok next := by
  obtain ⟨stack, p, phase⟩ := s
  obtain ⟨⟨b, outer⟩, stack, rfl⟩ := List.exists_cons_of_ne_nil hstack
  rcases h with ⟨power, raised, rfl⟩ | ⟨name, rfl⟩
  · cases b <;> exact ⟨_, rfl⟩
  · cases b <;> exact ⟨_, rfl⟩

theorem begin_error {s : State} {t : Token} {err : SyntaxError} (h : s.begin t = .error err) :
    err = .unexpected t.text := by
  cases t <;> cases h
  all_goals rfl

theorem afterPower_error {s : State} {power : Expr} {raised : Bool} {t : Token} {err : SyntaxError}
    (h : s.afterPower power raised t = .error err) : err = s.misplaced t := by
  unfold afterPower at h
  cases t with
  | plus | minus | times | atSign => cases h
  | caret =>
    cases raised with
    | true =>
      cases h
      rfl
    | false => cases h
  | closing | comma =>
    dsimp only at h
    split at h <;> cases h
    rfl
  | _ =>
    cases h
    rfl

/-- The ways in which a token is refused. -/
theorem step_error {s : State} {t : Token} {err : SyntaxError} (h : s.step t = .error err) :
    err = .unexpected t.text ∨
      (∃ f, s.phase = .opening f ∧ err = .missingOpening f.name (some t.text)) ∨
      (∃ name, s.phase = .property name ∧ err = .unknownProperty t.text) ∨
      (s.EndsPower ∧ err = s.misplaced t) := by
  unfold step at h
  cases hphase : s.phase with
  | operand =>
    rw [hphase] at h
    exact .inl (begin_error h)
  | opening f =>
    rw [hphase] at h
    dsimp only at h
    split at h
    · cases h
    · cases h
      exact .inr (.inl ⟨f, rfl, rfl⟩)
  | arguments =>
    rw [hphase] at h
    dsimp only at h
    split at h
    · cases h
    · exact .inl (begin_error h)
  | placeholder name =>
    rw [hphase] at h
    dsimp only at h
    split at h
    · cases h
    · exact .inr (.inr (.inr ⟨.inr ⟨name, hphase⟩, afterPower_error h⟩))
  | property name =>
    rw [hphase] at h
    dsimp only at h
    split at h
    · cases h
    · cases h
      exact .inr (.inr (.inl ⟨name, rfl, rfl⟩))
  | complete power raised =>
    rw [hphase] at h
    exact .inr (.inr (.inr ⟨.inl ⟨power, raised, hphase⟩, afterPower_error h⟩))

/-- The ways in which the end of the tokens is refused. -/
theorem finish_error {s : State} {err : SyntaxError} (h : s.finish = .error err) :
    err = .unexpectedEnd ∨
      (∃ f, s.phase = .opening f ∧ err = .missingOpening f.name none) ∨
      (∃ name, s.phase = .property name ∧ err = .endAfterDot) ∨
      (s.EndsPower ∧ s.stack ≠ [] ∧ err = .missingClosing none) := by
  unfold finish at h
  cases hphase : s.phase with
  | operand | arguments =>
    rw [hphase] at h
    cases h
    exact .inl rfl
  | opening f =>
    rw [hphase] at h
    cases h
    exact .inr (.inl ⟨f, rfl, rfl⟩)
  | property name =>
    rw [hphase] at h
    cases h
    exact .inr (.inr (.inl ⟨name, rfl, rfl⟩))
  | placeholder name =>
    rw [hphase] at h
    dsimp only at h
    split at h
    · cases h
    · next hstack =>
      cases h
      exact .inr (.inr (.inr ⟨.inr ⟨name, hphase⟩, by simpa using hstack, rfl⟩))
  | complete power raised =>
    rw [hphase] at h
    dsimp only at h
    split at h
    · cases h
    · next hstack =>
      cases h
      exact .inr (.inr (.inr ⟨.inl ⟨power, raised, hphase⟩, by simpa using hstack, rfl⟩))

theorem step_opening {s : State} {f : Builtin} (h : s.phase = .opening f) :
    ∃ next, s.step (Token.ofText ['(']) = .ok next := by
  obtain ⟨stack, p, phase⟩ := s
  obtain rfl : phase = .opening f := h
  exact ⟨_, rfl⟩

theorem step_property {s : State} {name : String} (h : s.phase = .property name) :
    ∃ next, s.step (Token.ofText ['T']) = .ok next := by
  obtain ⟨stack, p, phase⟩ := s
  obtain rfl : phase = .property name := h
  exact ⟨_, rfl⟩

/-- The error of a refused token names that token. -/
theorem token?_of_step {s : State} {t : Token} {err : SyntaxError} (h : s.step t = .error err) :
    err.token? = some t.text := by
  rcases step_error h with rfl | ⟨f, -, rfl⟩ | ⟨name, -, rfl⟩ | ⟨-, rfl⟩
  · rfl
  · rfl
  · rfl
  · unfold misplaced
    split <;> rfl

/-- A token is only called trailing where the tokens before it can end. -/
theorem finish_of_trailing {s : State} {t : Token} {err : SyntaxError} (h : s.step t = .error err)
    (hcode : err.code = "MC_SYNTAX_TRAILING_TOKEN") : ∃ e, s.finish = .ok e := by
  rcases step_error h with rfl | ⟨f, -, rfl⟩ | ⟨name, -, rfl⟩ | ⟨hends, rfl⟩
  · simp [SyntaxError.code] at hcode
  · simp [SyntaxError.code] at hcode
  · simp [SyntaxError.code] at hcode
  · unfold misplaced at hcode
    split at hcode
    · next hstack => exact finish_of_endsPower hends (by simpa using hstack)
    · simp [SyntaxError.code] at hcode

/-- Where an error of a refused token tells what it wanted, that token is accepted. -/
theorem step_expected_of_step {s : State} {t : Token} {err : SyntaxError} {text : List Char}
    (h : s.step t = .error err) (htext : err.expected? = some text) :
    ∃ next, s.step (Token.ofText text) = .ok next := by
  rcases step_error h with rfl | ⟨f, hphase, rfl⟩ | ⟨name, -, rfl⟩ | ⟨hends, rfl⟩
  · cases htext
  · cases htext
    exact step_opening hphase
  · cases htext
  · unfold misplaced at htext
    split at htext
    · cases htext
    · next hstack =>
      cases htext
      exact step_closing_of_endsPower hends (by simpa using hstack)

/-- The same at the end of the tokens. -/
theorem step_expected_of_finish {s : State} {err : SyntaxError} {text : List Char} (h : s.finish = .error err)
    (htext : err.expected? = some text) : ∃ next, s.step (Token.ofText text) = .ok next := by
  rcases finish_error h with rfl | ⟨f, hphase, rfl⟩ | ⟨name, hphase, rfl⟩ | ⟨hends, hstack, rfl⟩
  · cases htext
  · cases htext
    exact step_opening hphase
  · cases htext
    exact step_property hphase
  · cases htext
    exact step_closing_of_endsPower hends hstack

theorem finish_error_atEnd {s : State} {err : SyntaxError} (h : s.finish = .error err) :
    err.token? = none ∧ err.code ≠ "MC_SYNTAX_TRAILING_TOKEN" := by
  rcases finish_error h with rfl | ⟨f, -, rfl⟩ | ⟨name, -, rfl⟩ | ⟨-, -, rfl⟩ <;>
    exact ⟨rfl, by simp [SyntaxError.code]⟩

end State

/-- An error of parsing is at the first impossible token. If some beginning of the list begins no expression,
    the error names the last token of the shortest such beginning; otherwise it is at the end of the list. Only
    after a complete expression is a token called trailing, and a token that an error expects continues what
    stands before the error. -/
theorem parse_error_position {ts : List (List Char)} {err : SyntaxError} (h : parse ts = .error err) :
    (∃ before t, FirstImpossible ts before t ∧ err.token? = some t ∧
        (err.code = "MC_SYNTAX_TRAILING_TOKEN" → ∃ e, Expression before e) ∧
        ∀ text, err.expected? = some text → Viable (before ++ [text])) ∨
      ((∀ us, us <+: ts → Viable us) ∧ err.token? = none ∧ err.code ≠ "MC_SYNTAX_TRAILING_TOKEN" ∧
        ∀ text, err.expected? = some text → Viable (ts ++ [text])) := by
  have hparse : parse ts = State.initial.advance ts >>= State.finish := rfl
  rw [hparse] at h
  cases hadvance : State.initial.advance ts with
  | error e =>
    rw [hadvance] at h
    cases h
    obtain ⟨before, t, rest, s, rfl, hbefore, hstep⟩ := State.exists_step_of_advance hadvance
    have hviable := State.viable_of_advance hbefore
    have himpossible := State.not_viable_of_step hbefore hstep
    have htoken := State.token?_of_step hstep
    rw [Token.text_ofText] at htoken
    refine .inl ⟨before, t, firstImpossible_of_viable hviable himpossible, htoken, fun hcode => ?_,
      fun text htext => ?_⟩
    · obtain ⟨e, hfinish⟩ := State.finish_of_trailing hstep hcode
      have hcomplete : parse before = .ok e := by
        change State.initial.advance before >>= State.finish = .ok e
        rw [hbefore]
        exact hfinish
      exact ⟨e, expression_of_parse hcomplete⟩
    · obtain ⟨next, hnext⟩ := State.step_expected_of_step hstep htext
      exact State.viable_of_step hbefore hnext
  | ok s =>
    rw [hadvance] at h
    obtain ⟨htoken, hcode⟩ := State.finish_error_atEnd h
    refine .inr ⟨fun us hus => (State.viable_of_advance hadvance).of_isPrefix hus, htoken, hcode,
      fun text htext => ?_⟩
    obtain ⟨next, hnext⟩ := State.step_expected_of_finish h htext
    exact State.viable_of_step hadvance hnext

/-- In an open bracket the second of two letters cannot be read: the bracket could close there. -/
theorem parse_error_position_letters :
    parse [['('], ['A'], ['B']] = .error (.missingClosing (some ['B'])) ∧
      FirstImpossible [['('], ['A'], ['B']] [['('], ['A']] ['B'] ∧ Viable [['('], ['A'], [')']] := by
  have hparse : parse [['('], ['A'], ['B']] = .error (.missingClosing (some ['B'])) := by rfl
  rcases parse_error_position hparse with ⟨before, t, hfirst, htoken, -, hexpected⟩ | ⟨-, htoken, -⟩
  · cases htoken
    obtain ⟨rest, hrest⟩ := hfirst.beginning
    have hbefore : before = [['('], ['A']] := by
      rcases before with _ | ⟨a, _ | ⟨b, _ | ⟨c, cs⟩⟩⟩ <;> simp at hrest
      simp [hrest]
    subst hbefore
    exact ⟨hparse, hfirst, hexpected [')'] rfl⟩
  · cases htoken

end ArrayCalc.Parser
