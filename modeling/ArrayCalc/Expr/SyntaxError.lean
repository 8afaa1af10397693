namespace ArrayCalc

/-- Why a token list is no expression. The position is that of the first token that cannot stand there,
    or the end of the list. -/
inductive SyntaxError where
  | trailing (token : List Char)
  | unexpected (token : List Char)
  | unexpectedEnd
  | endAfterDot
  | unknownProperty (token : List Char)
  | missingClosing (got : Option (List Char))
  | missingOpening (function : String) (got : Option (List Char))
  deriving DecidableEq, Repr

namespace SyntaxError

/-- The token at the position of the error, if the list does not end there. -/
def token? : SyntaxError → Option (List Char)
  | trailing token | unexpected token | unknownProperty token => some token
  | unexpectedEnd | endAfterDot => none
  | missingClosing got | missingOpening _ got => got

/-- The one token that could stand there, where there is only one. -/
def expected? : SyntaxError → Option (List Char)
  | endAfterDot => some ['T']
  | missingClosing _ => some [')']
  | missingOpening .. => some ['(']
  | _ => none

def code : SyntaxError → String
  | trailing _ => "MC_SYNTAX_TRAILING_TOKEN"
  | unexpected _ => "MC_SYNTAX_UNEXPECTED_TOKEN"
  | unexpectedEnd | endAfterDot => "MC_SYNTAX_UNEXPECTED_END"
  | unknownProperty _ => "MC_SYNTAX_UNKNOWN_PROPERTY"
  | missingClosing _ | missingOpening .. => "MC_SYNTAX_EXPECTED_TOKEN"

/-- What stands at a position, in words. -/
def gotText : Option (List Char) → String
  | some token => "'" ++ String.ofList token ++ "'"
  | none => "end of expression"

def message : SyntaxError → String
  | trailing token => "Unexpected trailing token: " ++ String.ofList token
  | unexpected token => "Unexpected token: " ++ String.ofList token
  | unexpectedEnd => "Unexpected end of expression"
  | endAfterDot => "Unexpected end of expression after '.'"
  | unknownProperty token => "Unknown property: " ++ String.ofList token
  | missingClosing got => "Expected ')', got " ++ gotText got
  | missingOpening function got => "Expected '(' after function " ++ function ++ ", got " ++ gotText got

end SyntaxError

end ArrayCalc
