import ArrayCalc.Proofs.Expr.Token

namespace ArrayCalc.Parser

open Grammar

/-- Arguments with a comma after each. -/
inductive Filled : List (List Char) → List Expr → Prop where
  | none : Filled [] []
  | some {ts us : List (List Char)} {es : List Expr} {e : Expr} (hes : Filled ts es)
      (he : Expression us e) : Filled (ts ++ us ++ [[',']]) (es ++ [e])

/-- The text of a left operand with its operator, where one waits. -/
def Waits (P : List (List Char) → Expr → Prop) (ops : List String) :
    Option (Expr × String) → List (List Char) → Prop
  | none, ts => ts = []
  | some (l, op), ts => op ∈ ops ∧ ∃ us, P us l ∧ ts = us ++ [op.toList]

/-- The text of a level that waits for its operand. -/
def Pending.Reads (p : Pending) (ts : List (List Char)) : Prop :=
  ∃ sums products bases, Waits Expression sumOps p.sum sums ∧ Waits Term productOps p.product products ∧
    Waits Factor ["^"] (p.base.map (·, "^")) bases ∧
    ts = sums ++ products ++ bases ++ List.replicate p.signs ['-']

def Bracket.Reads : Bracket → List (List Char) → Prop
  | .group, ts => ts = [['(']]
  | .call f args, ts => ∃ us, Filled us args ∧ ts = f.name.toList :: ['('] :: us

/-- The text in front of the current level: each open bracket after the level that waits around it. -/
inductive StackReads : List (Bracket × Pending) → List (List Char) → Prop where
  | nil : StackReads [] []
  | cons {stack : List (Bracket × Pending)} {b : Bracket} {p : Pending} {ts us vs : List (List Char)}
      (hstack : StackReads stack ts) (hp : p.Reads us) (hb : b.Reads vs) :
      StackReads ((b, p) :: stack) (ts ++ us ++ vs)

/-- The text of a level whose last power is complete. Only a factor can still become a base. -/
def CompleteReads (p : Pending) (power : Expr) (raised : Bool) (ts : List (List Char)) : Prop :=
  ∃ sums products us, Waits Expression sumOps p.sum sums ∧ Waits Term productOps p.product products ∧
    Power us power ∧ (raised = false → Factor us power) ∧ ts = sums ++ products ++ us

/-- The text of the current level. -/
def LevelReads (p : Pending) : Phase → List (List Char) → Prop
  | .operand, ts => p.Reads ts
  | .opening f, ts => ∃ us, p.Reads us ∧ ts = us ++ [f.name.toList]
  | .arguments, ts => p = .empty ∧ ts = []
  | .placeholder name, ts =>
    ∃ us c, p.Reads us ∧ Lexer.isUpper c = true ∧ name = String.singleton c ∧ ts = us ++ [[c]]
  | .property name, ts =>
    ∃ us c, p.Reads us ∧ Lexer.isUpper c = true ∧ name = String.singleton c ∧ ts = us ++ [[c], ['.']]
  | .complete power raised, ts => CompleteReads p power raised ts

/-- The tokens `ts` lead to the state `s`. -/
def State.Reads (s : State) (ts : List (List Char)) : Prop :=
  ∃ outer level, StackReads s.stack outer ∧ LevelReads s.pending s.phase level ∧ ts = outer ++ level ∧
    (s.phase = .arguments → ∃ f p stack, s.stack = (.call f [], p) :: stack)

theorem Filled.eq_nil {ts : List (List Char)} {es : List Expr} (h : Filled ts es) (hes : es = []) : ts = [] := by
  cases h with
  | none => rfl
  | some => simp at hes

theorem Filled.arguments {ts : List (List Char)} {es : List Expr} (h : Filled ts es) :
    ∀ {us vs : List (List Char)} {e : Expr} {fs : List Expr}, Expression us e → MoreArguments vs fs →
      Arguments (ts ++ us ++ vs) (es ++ e :: fs) := by
  induction h with
  | none => exact fun he hmore => .some he hmore
  | some _ he ih =>
    intro us vs e fs he' hmore
    simpa using ih he (.some he' hmore)

/-- The last argument completes the list. -/
theorem Filled.arguments_append {ts us : List (List Char)} {es : List Expr} {e : Expr} (h : Filled ts es)
    (he : Expression us e) : Arguments (ts ++ us) (es ++ [e]) := by
  simpa using h.arguments he .none

theorem pending_empty_reads : Pending.empty.Reads [] :=
  ⟨[], [], [], rfl, rfl, rfl, rfl⟩

theorem factor_negations {ts : List (List Char)} {e : Expr} (h : Factor ts e) (k : Nat) :
    Factor (List.replicate k ['-'] ++ ts) (Pending.negations k e) := by
  induction k with
  | zero => exact h
  | succ k ih => exact .negated ih

theorem Waits.raise {left : Option Expr} {ts us : List (List Char)} {e : Expr}
    (h : Waits Factor ["^"] (left.map (·, "^")) ts) (he : Factor us e) :
    Power (ts ++ us) (Pending.apply (left.map (·, "^")) e) ∧
      (left.isSome = false → Factor (ts ++ us) (Pending.apply (left.map (·, "^")) e)) := by
  cases left with
  | none =>
    obtain rfl : ts = [] := h
    exact ⟨.factor he, fun _ => he⟩
  | some base =>
    obtain ⟨_, vs, hbase, rfl⟩ := h
    exact ⟨by simpa [Pending.apply] using Power.raised hbase he, by simp⟩

theorem Waits.multiply {left : Option (Expr × String)} {ts us : List (List Char)} {e : Expr}
    (h : Waits Term productOps left ts) (he : Power us e) : Term (ts ++ us) (Pending.apply left e) := by
  cases left with
  | none =>
    obtain rfl : ts = [] := h
    exact .power he
  | some left =>
    obtain ⟨hop, vs, hleft, rfl⟩ := h
    simpa [Pending.apply] using Term.product hop hleft he

theorem Waits.add {left : Option (Expr × String)} {ts us : List (List Char)} {e : Expr}
    (h : Waits Expression sumOps left ts) (he : Term us e) : Expression (ts ++ us) (Pending.apply left e) := by
  cases left with
  | none =>
    obtain rfl : ts = [] := h
    exact .term he
  | some left =>
    obtain ⟨hop, vs, hleft, rfl⟩ := h
    simpa [Pending.apply] using Expression.sum hop hleft he

/-- A level whose last power is complete writes an expression. -/
theorem CompleteReads.expression {p : Pending} {power : Expr} {raised : Bool} {ts : List (List Char)}
    (h : CompleteReads p power raised ts) : Expression ts (p.closeSum power) := by
  obtain ⟨sums, products, us, hsums, hproducts, hpower, _, rfl⟩ := h
  rw [List.append_assoc]
  exact hsums.add (hproducts.multiply hpower)

/-- A factor completes the power that waits for it. -/
theorem Pending.Reads.complete {p : Pending} {ts us : List (List Char)} {e : Expr} (h : p.Reads ts)
    (he : Factor us e) : CompleteReads p (p.closePower e) p.base.isSome (ts ++ us) := by
  obtain ⟨sums, products, bases, hsums, hproducts, hbases, rfl⟩ := h
  have hpower := hbases.raise (factor_negations he p.signs)
  exact ⟨sums, products, _, hsums, hproducts, hpower.1, hpower.2, by simp⟩

namespace State

/-- A state outside argument lists reads what stands around its level and in it. -/
theorem Reads.of_level {s : State} {outer level : List (List Char)} (houter : StackReads s.stack outer)
    (hlevel : LevelReads s.pending s.phase level) (hphase : s.phase ≠ .arguments) : s.Reads (outer ++ level) :=
  ⟨outer, level, houter, hlevel, rfl, fun h => absurd h hphase⟩

theorem reads_initial : initial.Reads [] :=
  Reads.of_level (s := initial) .nil pending_empty_reads fun h => by cases h

theorem Reads.complete {s : State} {outer level us : List (List Char)} {e : Expr}
    (houter : StackReads s.stack outer) (hlevel : s.pending.Reads level) (he : Factor us e) :
    (s.complete e).Reads (outer ++ (level ++ us)) :=
  Reads.of_level houter (hlevel.complete he) fun h => by cases h

theorem begin_number (s : State) (text : List Char) :
    s.begin (.number text) = .ok (s.complete (.constant ((Number.ofText? text).getD 0))) :=
  rfl

/-- A token that begins an operand is read. -/
theorem Reads.begin {s next : State} {outer level : List (List Char)} {text : List Char}
    (houter : StackReads s.stack outer) (hlevel : s.pending.Reads level)
    (hstep : s.begin (Token.ofText text) = .ok next) : next.Reads (outer ++ level ++ [text]) := by
  have htext := Token.text_ofText text
  cases htoken : Token.ofText text with
  | opening =>
    rw [htoken] at htext hstep
    cases hstep
    subst htext
    simpa [Token.text] using
      Reads.of_level (s := s.enter .group .operand) (.cons houter hlevel rfl) pending_empty_reads fun h => by cases h
  | name f =>
    rw [htoken] at htext hstep
    cases hstep
    subst htext
    rw [List.append_assoc]
    exact Reads.of_level houter ⟨level, hlevel, rfl⟩ fun h => by cases h
  | letter c =>
    have hc := Token.isUpper_of_ofText htoken
    rw [htoken] at htext hstep
    cases hstep
    subst htext
    rw [List.append_assoc]
    exact Reads.of_level houter ⟨level, c, hlevel, hc, rfl, rfl⟩ fun h => by cases h
  | number cs =>
    obtain ⟨d, hd⟩ := Token.literal_of_ofText htoken
    rw [htoken] at htext hstep
    rw [begin_number, Number.ofText?_literal hd, Option.getD_some] at hstep
    cases hstep
    subst htext
    rw [List.append_assoc]
    exact Reads.complete houter hlevel (.literal hd)
  | minus =>
    rw [htoken] at htext hstep
    cases hstep
    subst htext
    obtain ⟨sums, products, bases, hsums, hproducts, hbases, rfl⟩ := hlevel
    rw [List.append_assoc]
    refine Reads.of_level houter ⟨sums, products, bases, hsums, hproducts, hbases, ?_⟩ fun h => by cases h
    simp [Token.text, List.replicate_succ']
  | _ =>
    rw [htoken] at hstep
    contradiction

/-- A token that follows a complete power is read. -/
theorem Reads.afterPower {s next : State} {outer level : List (List Char)} {power : Expr} {raised : Bool}
    {text : List Char} (houter : StackReads s.stack outer) (hlevel : CompleteReads s.pending power raised level)
    (hstep : s.afterPower power raised (Token.ofText text) = .ok next) :
    next.Reads (outer ++ level ++ [text]) := by
  have htext := Token.text_ofText text
  have hsum := hlevel.expression
  obtain ⟨sums, products, us, hsums, hproducts, hpower, hfactor, rfl⟩ := hlevel
  have hadd {op : String} (hop : op ∈ sumOps) :
      (s.add power op).Reads (outer ++ (sums ++ products ++ us) ++ [op.toList]) := by
    rw [List.append_assoc]
    exact Reads.of_level (s := s.add power op) houter
      ⟨_, [], [], ⟨hop, _, hsum, rfl⟩, rfl, rfl, by simp [State.add]⟩ fun h => by cases h
  have hmultiply {op : String} (hop : op ∈ productOps) :
      (s.multiply power op).Reads (outer ++ (sums ++ products ++ us) ++ [op.toList]) := by
    rw [List.append_assoc]
    exact Reads.of_level (s := s.multiply power op) houter
      ⟨sums, _, [], hsums, ⟨hop, _, hproducts.multiply hpower, rfl⟩, rfl, by simp [State.multiply]⟩ fun h => by cases h
  cases htoken : Token.ofText text with
  | plus | minus =>
    rw [htoken] at htext hstep
    cases hstep
    subst htext
    exact hadd (by decide)
  | times | atSign =>
    rw [htoken] at htext hstep
    cases hstep
    subst htext
    exact hmultiply (by decide)
  | caret =>
    rw [htoken] at htext hstep
    subst htext
    cases raised with
    | true => contradiction
    | false =>
      cases hstep
      rw [List.append_assoc]
      exact Reads.of_level (s := s.raise power) houter
        ⟨sums, products, _, hsums, hproducts, ⟨by decide, _, hfactor rfl, rfl⟩, by simp [State.raise, Token.text]⟩
        fun h => by cases h
  | closing =>
    rw [htoken] at htext hstep
    subst htext
    simp only [State.afterPower] at hstep
    split at hstep
    · next p stack hstack =>
      rw [hstack] at houter
      cases houter with
      | cons hrest hp hb =>
        obtain rfl := hb
        cases hstep
        simpa [Token.text] using Reads.complete (s := ⟨stack, p, .operand⟩) hrest hp (.group hsum)
    · next f args p stack hstack =>
      rw [hstack] at houter
      cases houter with
      | cons hrest hp hb =>
        obtain ⟨vs, hargs, rfl⟩ := hb
        cases hstep
        simpa [Token.text] using
          Reads.complete (s := ⟨stack, p, .operand⟩) hrest hp (.call f (hargs.arguments_append hsum))
    · contradiction
  | comma =>
    rw [htoken] at htext hstep
    subst htext
    simp only [State.afterPower] at hstep
    split at hstep
    · next f args p stack hstack =>
      rw [hstack] at houter
      cases houter with
      | cons hrest hp hb =>
        obtain ⟨vs, hargs, rfl⟩ := hb
        cases hstep
        have hcall : Bracket.Reads (.call f (args ++ [s.pending.closeSum power]))
            (f.name.toList :: ['('] :: (vs ++ (sums ++ products ++ us) ++ [[',']])) :=
          ⟨_, .some hargs hsum, rfl⟩
        simpa [Token.text] using
          Reads.of_level (s := ⟨(.call f (args ++ [s.pending.closeSum power]), p) :: stack, .empty, .operand⟩)
            (.cons hrest hp hcall) pending_empty_reads fun h => by cases h
    · contradiction
  | _ =>
    rw [htoken] at hstep
    contradiction

/-- Each token that a state accepts is read. -/
theorem Reads.step {s next : State} {ts : List (List Char)} {text : List Char} (h : s.Reads ts)
    (hstep : s.step (Token.ofText text) = .ok next) : next.Reads (ts ++ [text]) := by
  obtain ⟨outer, level, houter, hlevel, rfl, harguments⟩ := h
  have htext := Token.text_ofText text
  unfold State.step at hstep
  cases hphase : s.phase with
  | operand =>
    rw [hphase] at hstep hlevel
    exact Reads.begin houter hlevel hstep
  | opening f =>
    rw [hphase] at hstep hlevel
    obtain ⟨us, hp, rfl⟩ := hlevel
    cases htoken : Token.ofText text with
    | opening =>
      rw [htoken] at hstep htext
      cases hstep
      subst htext
      have hcall : Bracket.Reads (.call f []) [f.name.toList, ['(']] := ⟨[], .none, rfl⟩
      refine ⟨_, [], .cons houter hp hcall, ⟨rfl, rfl⟩, by simp [Token.text], fun _ => ⟨f, _, _, rfl⟩⟩
    | _ =>
      rw [htoken] at hstep
      contradiction
  | arguments =>
    obtain ⟨f, p, stack, hstack⟩ := harguments hphase
    rw [hphase] at hstep hlevel
    obtain ⟨hempty, rfl⟩ := hlevel
    dsimp only at hstep
    split at hstep
    · next g args q rest htoken hrest =>
      rw [htoken] at htext
      rw [hrest] at hstack houter
      cases hstack
      cases houter with
      | cons hrest hp hb =>
        obtain ⟨vs, hargs, rfl⟩ := hb
        obtain rfl := hargs.eq_nil rfl
        cases hstep
        subst htext
        simpa [Token.text] using Reads.complete (s := ⟨stack, p, .operand⟩) hrest hp (.call f .none)
    · exact Reads.begin houter (hempty ▸ pending_empty_reads) hstep
  | placeholder name =>
    rw [hphase] at hstep hlevel
    obtain ⟨us, c, hp, hc, rfl, rfl⟩ := hlevel
    dsimp only at hstep
    split at hstep
    · next htoken =>
      rw [htoken] at htext
      cases hstep
      subst htext
      simpa [Token.text] using Reads.of_level (s := { s with phase := .property (String.singleton c) })
        houter ⟨us, c, hp, hc, rfl, rfl⟩ fun h => by cases h
    · exact Reads.afterPower houter (hp.complete (.placeholder hc)) hstep
  | property name =>
    rw [hphase] at hstep hlevel
    obtain ⟨us, c, hp, hc, rfl, rfl⟩ := hlevel
    dsimp only at hstep
    split at hstep
    · next htoken =>
      rw [htoken] at htext
      cases hstep
      subst htext
      simpa [Token.text] using Reads.complete houter hp (.transposed hc)
    · contradiction
  | complete power raised =>
    rw [hphase] at hstep hlevel
    exact Reads.afterPower houter hlevel hstep

/-- What a list of tokens leads to reads the list. -/
theorem Reads.foldlM {texts : List (List Char)} : ∀ {s next : State} {ts : List (List Char)}, s.Reads ts →
    (texts.map Token.ofText).foldlM State.step s = .ok next → next.Reads (ts ++ texts) := by
  induction texts with
  | nil =>
    intro s next ts h hrun
    cases hrun
    simpa using h
  | cons text texts ih =>
    intro s next ts h hrun
    rw [List.map_cons, List.foldlM_cons] at hrun
    cases hstep : s.step (Token.ofText text) with
    | error e =>
      rw [hstep] at hrun
      contradiction
    | ok middle =>
      rw [hstep] at hrun
      simpa using ih (h.step hstep) hrun

/-- A state in which the tokens can end has read an expression. -/
theorem Reads.finish {s : State} {ts : List (List Char)} {e : Expr} (h : s.Reads ts)
    (hfinish : s.finish = .ok e) : Expression ts e := by
  obtain ⟨outer, level, houter, hlevel, rfl, _⟩ := h
  unfold State.finish at hfinish
  cases hphase : s.phase with
  | placeholder name =>
    rw [hphase] at hfinish hlevel
    obtain ⟨us, c, hp, hc, rfl, rfl⟩ := hlevel
    cases hstack : s.stack with
    | nil =>
      rw [hstack] at houter hfinish
      cases houter
      cases hfinish
      exact (hp.complete (.placeholder hc)).expression
    | cons b stack =>
      rw [hstack] at hfinish
      contradiction
  | complete power raised =>
    rw [hphase] at hfinish hlevel
    cases hstack : s.stack with
    | nil =>
      rw [hstack] at houter hfinish
      cases houter
      cases hfinish
      exact hlevel.expression
    | cons b stack =>
      rw [hstack] at hfinish
      contradiction
  | _ =>
    rw [hphase] at hfinish
    contradiction

end State

/-- Only expressions are parsed, and each as a tree that the grammar gives it. -/
theorem expression_of_parse {ts : List (List Char)} {e : Expr} (h : parse ts = .ok e) : Expression ts e := by
  unfold parse parseTokens at h
  cases hrun : (ts.map Token.ofText).foldlM State.step State.initial with
  | error err =>
    rw [hrun] at h
    contradiction
  | ok s =>
    rw [hrun] at h
    exact (State.reads_initial.foldlM hrun).finish h

end ArrayCalc.Parser
