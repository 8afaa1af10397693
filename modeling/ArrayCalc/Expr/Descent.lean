import ArrayCalc.Expr.Basic
import ArrayCalc.Expr.SyntaxError
import ArrayCalc.Expr.Token

namespace ArrayCalc.Descent

/-- A value read off the front of tokens, and the tokens after it, which are fewer than a bound. -/
structure Parsed (α : Type) (n : Nat) where
  value : α
  rest : List Token
  fewer : rest.length < n

/-- A rule of the grammar: reads a value off the front of tokens that are fewer than a bound. A value has at least one
    token, so a rule can go on at the tokens that another one leaves. -/
abbrev Rule (α : Type) (n : Nat) : Type :=
  (ts : List Token) → ts.length < n → Except SyntaxError (Parsed α ts.length)

namespace Parsed

variable {α β : Type} {m n : Nat}

/-- The value as a part of another one, which has at least the same tokens. -/
def within (r : Parsed α m) (h : m ≤ n) (f : α → β) : Parsed β n :=
  ⟨f r.value, r.rest, Nat.lt_of_lt_of_le r.fewer h⟩

theorem length_lt {r : Parsed α n} {t : Token} {us : List Token} (h : r.rest = t :: us) : us.length + 1 < n := by
  have hfewer := r.fewer
  rwa [h, List.length_cons] at hfewer

/-- The bracket that closes what has been read. -/
def expectClosing (r : Parsed α n) : Except SyntaxError (Parsed α n) :=
  match hrest : r.rest with
  | .closing :: us => .ok ⟨r.value, us, Nat.lt_of_succ_lt (length_lt hrest)⟩
  | t :: _ => .error (.missingClosing (some t.text))
  | [] => .error (.missingClosing none)

/-- The value, with no token left over. -/
def expectEnd (r : Parsed α n) : Except SyntaxError α :=
  match r.rest with
  | [] => .ok r.value
  | t :: _ => .error (.trailing t.text)

end Parsed

section Chain

variable {m n : Nat}

/-- `(op operand)*` after the operand or operands `left`, with the tree leaning to the left. -/
def chain (operator? : Token → Option String) (operand : Rule Expr n) (hmn : m ≤ n) (left : Parsed Expr m) :
    Except SyntaxError (Parsed Expr m) :=
  match hrest : left.rest with
  | [] => .ok left
  | t :: us =>
    match operator? t with
    | none => .ok left
    | some op => do
      have hlength := Parsed.length_lt hrest
      let right ← operand us (by omega)
      chain operator? operand hmn (right.within (by omega) (.binary op left.value))
termination_by left.rest.length
decreasing_by
  have hfewer := right.fewer
  rw [hrest, List.length_cons]
  exact Nat.lt_trans hfewer (Nat.lt_succ_self _)

/-- `operand (op operand)*` -/
def leftAssoc (operator? : Token → Option String) (operand : Rule Expr n) : Rule Expr n := fun ts h => do
  let left ← operand ts h
  chain operator? operand (Nat.le_of_lt h) left

end Chain

/-- The operators between the terms of an expression. -/
def sumOperator? : Token → Option String
  | .plus => some "+"
  | .minus => some "-"
  | _ => none

/-- The operators between the powers of a term. -/
def productOperator? : Token → Option String
  | .times => some "*"
  | .atSign => some "@"
  | _ => none

/-- `('.' 'T')?` after the letter of a placeholder. -/
def placeholder (name : String) (ts : List Token) : Except SyntaxError (Parsed Expr (ts.length + 1)) :=
  match ts with
  | .dot :: .letter 'T' :: us => .ok ⟨.unary Expr.transposeOp (.placeholder name), us, by simp; omega⟩
  | .dot :: t :: _ => .error (.unknownProperty t.text)
  | [.dot] => .error .endAfterDot
  | ts => .ok ⟨.placeholder name, ts, Nat.lt_succ_self _⟩

section Nested

variable {n : Nat} (nested : Rule Expr n)

/-- `expression (',' expression)*` after the arguments `args`, where `nested` reads an expression. -/
def arguments (args : List Expr) : Rule (List Expr) n := fun ts h => do
  let arg ← nested ts h
  match hrest : arg.rest with
  | .comma :: us =>
    have hlength := Parsed.length_lt hrest
    let result ← arguments (args ++ [arg.value]) us (by omega)
    .ok (result.within (by omega) id)
  | _ => .ok (arg.within (Nat.le_refl _) (args ++ [·]))
termination_by ts => ts.length

/-- `'(' (expression (',' expression)*)? ')'` after the name of a function. -/
def call (f : Builtin) (ts : List Token) (h : ts.length < n + 1) : Except SyntaxError (Parsed Expr (ts.length + 1)) :=
  match ts with
  | .opening :: .closing :: us => .ok ⟨.call f.name [], us, by simp; omega⟩
  | .opening :: us => do
    let args ← arguments nested [] us (by simpa using h)
    let args ← args.expectClosing
    .ok (args.within (by simp; omega) (.call f.name))
  | t :: _ => .error (.missingOpening f.name (some t.text))
  | [] => .error (.missingOpening f.name none)

/-- `factor := '(' expression ')' | call | placeholder | literal | '-' factor` -/
def factor : Rule Expr (n + 1)
  | [], _ => .error .unexpectedEnd
  | t :: us, h =>
    have hlength : us.length < n := by simpa using h
    match t with
    | .opening => do
      let inner ← nested us hlength
      let inner ← inner.expectClosing
      .ok (inner.within (Nat.le_succ _) id)
    | .name f => call nested f us (Nat.lt_succ_of_lt hlength)
    | .letter c => placeholder (String.singleton c) us
    | .number text => .ok ⟨.constant ((Number.ofText? text).getD 0), us, Nat.lt_succ_self _⟩
    | .minus => do
      let operand ← factor us (Nat.lt_succ_of_lt hlength)
      .ok (operand.within (Nat.le_succ _) (.unary Expr.negateOp))
    | .plus | .times | .atSign | .caret | .closing | .comma | .dot | .other _ => .error (.unexpected t.text)

/-- `power := factor ('^' factor)?` -/
def power : Rule Expr (n + 1) := fun ts h => do
  let base ← factor nested ts h
  match hrest : base.rest with
  | .caret :: us =>
    have hlength := Parsed.length_lt hrest
    let exponent ← factor nested us (by omega)
    .ok (exponent.within (by omega) (.binary "^" base.value))
  | _ => .ok base

/-- `term := power (('*' | '@') power)*` -/
def term : Rule Expr (n + 1) :=
  leftAssoc productOperator? (power nested)

/-- `expression := term (('+' | '-') term)*` -/
def sum : Rule Expr (n + 1) :=
  leftAssoc sumOperator? (term nested)

end Nested

/-- An expression off the front of tokens. The expressions nested in it are in fewer tokens. -/
def expression (ts : List Token) : Except SyntaxError (Parsed Expr ts.length) :=
  sum (fun us (_ : us.length < ts.length) => expression us) ts (Nat.lt_succ_self _)
termination_by ts.length

/-- The tree of a full token sequence. Tokens left over after the expression are an error. -/
def parse (ts : List Token) : Except SyntaxError Expr := do
  let tree ← expression ts
  tree.expectEnd

end ArrayCalc.Descent
