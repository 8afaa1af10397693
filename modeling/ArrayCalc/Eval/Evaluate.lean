import ArrayCalc.Eval.Functions
import ArrayCalc.Expr.Basic

namespace ArrayCalc.Expr

mutual

/-- The value of an expression, operands from left to right; the first failure ends the evaluation. -/
def eval (host : Host) (env : Environment) : Expr → Draw Result
  | constant value => return .scalar value
  | placeholder name =>
    match env.resolve? name with
    | some t => return .array t
    | none => complain (.unknownPlaceholder name)
  | unary op operand =>
    match unaryOperator? op with
    | none => complain (.unknownUnary op)
    | some f => do
      let result ← eval host env operand
      let v ← (result.toValue (.unary op)).mapError Failure.evaluation
      return .value (f v)
  | binary op left right =>
    match binaryOperator? op with
    | none => complain (.unknownBinary op)
    | some f => do
      let result ← eval host env left
      let a ← (result.toValue (.binary op)).mapError Failure.evaluation
      let result ← eval host env right
      let b ← (result.toValue (.binary op)).mapError Failure.evaluation
      return .value (← f a b)
  | call name args => do
    let values ← evalArguments host env name 1 args
    Builtin.call host name values

/-- The values of arguments, of which the first stands at the given position. -/
def evalArguments (host : Host) (env : Environment) (function : String) (position : Nat) :
    List Expr → Draw (List Value)
  | [] => return []
  | arg :: args => do
    let result ← eval host env arg
    let v ← (result.toValue (.argument function position)).mapError Failure.evaluation
    let vs ← evalArguments host env function (position + 1) args
    return v :: vs

end

theorem eval_call_eq (host : Host) (env : Environment) (name : String) (args : List Expr) :
    eval host env (.call name args) = evalArguments host env name 1 args >>= Builtin.call host name := by
  rw [eval]

theorem evalArguments_nil (host : Host) (env : Environment) (function : String) (position : Nat) :
    evalArguments host env function position [] = pure [] := by
  rw [evalArguments]

/-- The outcome of an expression, from the first sample on. -/
def evaluate (host : Host) (env : Environment) (e : Expr) : Except Failure Result :=
  (eval host env e).run' 0

end ArrayCalc.Expr
