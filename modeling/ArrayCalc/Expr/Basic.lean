import ArrayCalc.Number.Layout

namespace ArrayCalc

/-- An expression. Operators and functions are kept by their spelling and looked up on evaluation. -/
inductive Expr where
  | constant (value : Float)
  | placeholder (name : String)
  | unary (op : String) (operand : Expr)
  | binary (op : String) (left right : Expr)
  | call (name : String) (args : List Expr)

namespace Expr

/-- The operator of a transposed operand. -/
def transposeOp : String := "transpose"

/-- The operator of a negated operand. -/
def negateOp : String := "negate"

mutual

/-- An expression as text, with all grouping written out. -/
def text : Expr → List Char
  | constant value => Number.compact value
  | placeholder name => '{' :: name.toList ++ ['}']
  | unary op operand =>
    if op = transposeOp then operand.text ++ ['.', 'T'] else '-' :: '(' :: operand.text ++ [')']
  | binary op left right => '(' :: left.text ++ ' ' :: op.toList ++ ' ' :: right.text ++ [')']
  | call name args => name.toList ++ '(' :: argumentsText args ++ [')']

/-- Arguments with a comma and a space between each two. -/
def argumentsText : List Expr → List Char
  | [] => []
  | [arg] => arg.text
  | arg :: next :: args => arg.text ++ ',' :: ' ' :: argumentsText (next :: args)

end

end Expr

end ArrayCalc
