import ArrayCalc.Expr.Basic
import ArrayCalc.Expr.SyntaxError
import ArrayCalc.Expr.Token

namespace ArrayCalc.Parser

/-- What has been read at one level of brackets and waits for its right operand. There is a field for each rule of the
    grammar that an operand can stand in, from the outermost to the innermost; together they are the rules that have
    begun at this level and have not ended. -/
structure Pending where
  /-- `expression := term (('+' | '-') term)*`: the terms so far and the operator before the next one. -/
  sum : Option (Expr × String) := none
  /-- `term := power (('*' | '@') power)*`: the powers so far and the operator before the next one. -/
  product : Option (Expr × String) := none
  /-- `power := factor ('^' factor)?`: the factor that an exponent follows. -/
  base : Option Expr := none
  /-- `factor := '-' factor`: how many signs stand before the operand to come. -/
  signs : Nat := 0

namespace Pending

def empty : Pending := {}

/-- Applies an operator that waits, if one does, to its right operand. -/
def apply (left : Option (Expr × String)) (right : Expr) : Expr :=
  match left with
  | some (left, op) => .binary op left right
  | none => right

def negations : Nat → Expr → Expr
  | 0, e => e
  | k + 1, e => .unary Expr.negateOp (negations k e)

/-- The end of a factor and of the power that it stands in: its minus signs bind tighter than the base that waits. -/
def closePower (p : Pending) (operand : Expr) : Expr :=
  apply (p.base.map (·, "^")) (negations p.signs operand)

/-- The end of a term. -/
def closeProduct (p : Pending) (power : Expr) : Expr :=
  apply p.product power

/-- The end of an expression. -/
def closeSum (p : Pending) (power : Expr) : Expr :=
  apply p.sum (p.closeProduct power)

end Pending

/-- An open bracket: the rule that an expression is nested in. -/
inductive Bracket where
  /-- `factor := '(' expression ')'` -/
  | group
  /-- `call := name '(' (expression (',' expression)*)? ')'`, with the arguments so far. -/
  | call (f : Builtin) (args : List Expr)

/-- What the next token has to continue. The rules of expressions, terms and powers all begin where a factor does, so
    there is one phase for the beginning of the four; and where a power ends, the next token tells which of the rules
    around it go on. -/
inductive Phase where
  /-- An operand must begin: the alternatives of a factor. -/
  | operand
  /-- The argument list of a call must be opened. -/
  | opening (f : Builtin)
  /-- The argument list of a call has just been opened: an operand or its end must follow. -/
  | arguments
  /-- The name in `placeholder := letter ('.' 'T')?` has been read. -/
  | placeholder (name : String)
  /-- The point after a placeholder has been read. -/
  | property (name : String)
  /-- A power is complete as it stands; it can still become a base unless it has an exponent. -/
  | complete (power : Expr) (raised : Bool)

/-- A reader part way through the tokens: the open brackets, innermost first, each with what waits
    outside it, and what waits at the current level. This is what the descent through the rules of the grammar, in
    `Descent.parse`, has on its call stack. -/
structure State where
  stack : List (Bracket × Pending) := []
  pending : Pending := Pending.empty
  phase : Phase := .operand

namespace State

def initial : State := {}

/-- An operand ends here. -/
def complete (s : State) (operand : Expr) : State :=
  { s with phase := .complete (s.pending.closePower operand) s.pending.base.isSome }

/-- A sum opens inside a bracket, in front of which `pending` waits. -/
def enter (s : State) (b : Bracket) (phase : Phase) : State :=
  ⟨(b, s.pending) :: s.stack, .empty, phase⟩

/-- Begins an operand. -/
def begin (s : State) : Token → Except SyntaxError State
  | .opening => .ok (s.enter .group .operand)
  | .name f => .ok { s with phase := .opening f }
  | .letter c => .ok { s with phase := .placeholder (String.singleton c) }
  | .number text => .ok (s.complete (.constant ((Number.ofText? text).getD 0)))
  | .minus => .ok { s with pending.signs := s.pending.signs + 1, phase := .operand }
  | t => .error (.unexpected t.text)

/-- The error of a token that cannot follow a complete power. -/
def misplaced (s : State) (t : Token) : SyntaxError :=
  if s.stack.isEmpty then .trailing t.text else .missingClosing (some t.text)

/-- Waits for the right operand of a sum. -/
def add (s : State) (power : Expr) (op : String) : State :=
  { s with pending := { sum := some (s.pending.closeSum power, op) }, phase := .operand }

/-- Waits for the right operand of a product. -/
def multiply (s : State) (power : Expr) (op : String) : State :=
  { s with
    pending := { sum := s.pending.sum, product := some (s.pending.closeProduct power, op) }, phase := .operand }

/-- Waits for an exponent. -/
def raise (s : State) (base : Expr) : State :=
  { s with
    pending := { sum := s.pending.sum, product := s.pending.product, base := some base }, phase := .operand }

/-- Continues after a complete power. -/
def afterPower (s : State) (power : Expr) (raised : Bool) (t : Token) : Except SyntaxError State :=
  match t with
  | .plus => .ok (s.add power "+")
  | .minus => .ok (s.add power "-")
  | .times => .ok (s.multiply power "*")
  | .atSign => .ok (s.multiply power "@")
  | .caret => if raised then .error (s.misplaced t) else .ok (s.raise power)
  | .closing =>
    match s.stack with
    | (.group, outer) :: stack => .ok (State.complete ⟨stack, outer, .operand⟩ (s.pending.closeSum power))
    | (.call f args, outer) :: stack =>
      .ok (State.complete ⟨stack, outer, .operand⟩ (.call f.name (args ++ [s.pending.closeSum power])))
    | [] => .error (s.misplaced t)
  | .comma =>
    match s.stack with
    | (.call f args, outer) :: stack =>
      .ok ⟨(.call f (args ++ [s.pending.closeSum power]), outer) :: stack, .empty, .operand⟩
    | _ => .error (s.misplaced t)
  | _ => .error (s.misplaced t)

/-- Reads one token. -/
def step (s : State) (t : Token) : Except SyntaxError State :=
  match s.phase with
  | .operand => s.begin t
  | .opening f =>
    match t with
    | .opening => .ok (s.enter (.call f []) .arguments)
    | _ => .error (.missingOpening f.name (some t.text))
  | .arguments =>
    match t, s.stack with
    | .closing, (.call f _, outer) :: stack => .ok (State.complete ⟨stack, outer, .operand⟩ (.call f.name []))
    | _, _ => s.begin t
  | .placeholder name =>
    match t with
    | .dot => .ok { s with phase := .property name }
    | _ => s.afterPower (s.pending.closePower (.placeholder name)) s.pending.base.isSome t
  | .property name =>
    match t with
    | .letter 'T' => .ok (s.complete (.unary Expr.transposeOp (.placeholder name)))
    | _ => .error (.unknownProperty t.text)
  | .complete power raised => s.afterPower power raised t

/-- The tree that has been read, if the tokens can end here. -/
def finish (s : State) : Except SyntaxError Expr :=
  match s.phase with
  | .operand | .arguments => .error .unexpectedEnd
  | .opening f => .error (.missingOpening f.name none)
  | .property _ => .error .endAfterDot
  | .placeholder name =>
    if s.stack.isEmpty then .ok (s.pending.closeSum (s.pending.closePower (.placeholder name)))
    else .error (.missingClosing none)
  | .complete power _ =>
    if s.stack.isEmpty then .ok (s.pending.closeSum power) else .error (.missingClosing none)

end State

/-- The tree that a token list writes. -/
def parseTokens (ts : List Token) : Except SyntaxError Expr := do
  let s ← ts.foldlM State.step State.initial
  s.finish

/-- The tree that a list of token texts writes. -/
def parse (ts : List (List Char)) : Except SyntaxError Expr :=
  parseTokens (ts.map Token.ofText)

/-- The tree that an expression writes. -/
def parseText (source : List Char) : Except SyntaxError Expr :=
  parse (Lexer.tokens source)

end ArrayCalc.Parser
