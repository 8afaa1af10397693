import ArrayCalc.Expr.Builtin
import ArrayCalc.Expr.Lexer
import ArrayCalc.Number.Literal

namespace ArrayCalc

/-- A token by the part it can play in an expression. -/
inductive Token where
  | plus | minus | times | atSign | caret | opening | closing | comma | dot
  | name (f : Builtin)
  | letter (c : Char)
  | number (text : List Char)
  | other (text : List Char)
  deriving DecidableEq, Repr

namespace Token

/-- Digits with at most one point, then an unsigned exponent if need be. -/
def isNumeric (cs : List Char) : Bool :=
  let (whole, rest) := Number.spanDigits cs
  let tail : Option (List Char) :=
    match rest with
    | '.' :: rest =>
      let (places, rest) := Number.spanDigits rest
      if whole = [] ∧ places = [] then none else some rest
    | _ => if whole = [] then none else some rest
  match tail with
  | none => false
  | some [] => true
  | some (mark :: digits) => (mark = 'e' || mark = 'E') && digits ≠ [] && digits.all Char.isDigit

def isLetter : List Char → Bool
  | [c] => Lexer.isUpper c
  | _ => false

def ofText (cs : List Char) : Token :=
  match cs with
  | ['+'] => plus
  | ['-'] => minus
  | ['*'] => times
  | ['@'] => atSign
  | ['^'] => caret
  | ['('] => opening
  | [')'] => closing
  | [','] => comma
  | ['.'] => dot
  | _ =>
    match Builtin.ofName? (String.ofList cs) with
    | some f => name f
    | none =>
      if isNumeric cs then number cs
      else
        match cs with
        | [c] => if Lexer.isUpper c then letter c else other cs
        | _ => other cs

def text : Token → List Char
  | plus => ['+']
  | minus => ['-']
  | times => ['*']
  | atSign => ['@']
  | caret => ['^']
  | opening => ['(']
  | closing => [')']
  | comma => [',']
  | dot => ['.']
  | name f => f.name.toList
  | letter c => [c]
  | number cs => cs
  | other cs => cs

/-- No text is lost by telling its part. -/
theorem text_ofText (cs : List Char) : (ofText cs).text = cs := by
  unfold ofText
  split <;> try rfl
  split
  · next h => simpa [text] using congrArg String.toList (Builtin.name_of_ofName? h)
  · split
    · rfl
    · split
      · split <;> rfl
      · rfl

end Token

end ArrayCalc
