import ArrayCalc.Expr.Builtin
import ArrayCalc.Tensor.Build

namespace ArrayCalc

/-- A failure of the numeric routines themselves. -/
inductive Fault where
  | build (e : BuildError)
  | emptyMatrix
  | noColumns
  | noLeadingBlock
  | noRow

def Fault.message : Fault → String
  | build e => e.message
  | emptyMatrix => "Matrix must be non-empty"
  | noColumns => "Argument out of range"
  | noLeadingBlock => "Submatrix indices are out of range"
  | noRow => "Cannot read properties of undefined (reading '0')"

/-- Where in an expression an operand stands. -/
inductive Operand where
  | unary (op : String)
  | binary (op : String)
  | argument (function : String) (position : Nat)

def Operand.text : Operand → String
  | unary op => "Unary '" ++ op ++ "'"
  | binary op => "Binary '" ++ op ++ "'"
  | argument function position => function ++ "() argument " ++ toString position

/-- Why an expression has no value. A `label` names the function or the operator that complains. -/
inductive EvaluationError where
  | unknownPlaceholder (name : String)
  | unknownFunction (name : String)
  | unknownUnary (op : String)
  | unknownBinary (op : String)
  | wrongCount (function : Builtin) (got : Nat)
  | missingArgument (label : String) (position : Nat)
  | exponentNotScalar
  | exponentNotFinite
  | tupleOperand (operand : Operand)
  | needsArray (label : String) (position : Nat)
  | needsScalar (label : String) (position : Nat)
  | needsFinite (label : String) (position : Nat)
  | negativeDimension (label : String)
  | incompatible (label : String) (left right : Shape)
  | scalarProduct
  | productRank (left right : Shape)
  | notAligned (left right : Shape)
  | notMatrix (label : String) (shape : Shape)
  | notSquare (label : String) (shape : Shape)
  | tooManyAxes (label : String) (shape : Shape)
  | diagonalRank (label : String) (shape : Shape)
  | rightSideRank (label : String) (shape : Shape)
  | rightSideRows (label : String) (rows cols : Nat) (shape : Shape)
  | wide (label : String) (shape : Shape)
  | singular (label : String)
  | complexEigenvalues (label : String)
  | notSymmetric (label : String)
  | notPositiveDefinite (label : String)
  | numeric (function : String) (fault : Fault)

namespace EvaluationError

def code : EvaluationError → String
  | unknownPlaceholder _ => "MC_EVAL_UNKNOWN_PLACEHOLDER"
  | unknownFunction _ => "MC_EVAL_UNKNOWN_FUNCTION"
  | unknownUnary _ | unknownBinary _ => "MC_EVAL_UNKNOWN_OPERATOR"
  | wrongCount .. | missingArgument .. => "MC_EVAL_ARITY"
  | exponentNotScalar => "MC_EVAL_POWER_NOT_SCALAR"
  | exponentNotFinite | tupleOperand _ | needsArray .. | needsScalar .. | needsFinite .. => "MC_EVAL_TYPE"
  | negativeDimension _ | incompatible .. | scalarProduct | productRank .. | notAligned .. | notMatrix ..
  | notSquare .. | tooManyAxes .. | diagonalRank .. | rightSideRank .. | rightSideRows .. | wide .. =>
    "MC_EVAL_SHAPE"
  | singular _ | complexEigenvalues _ | notSymmetric _ | notPositiveDefinite _ | numeric .. =>
    "MC_EVAL_NUMERIC"

def shapeText (s : Shape) : String :=
  String.ofList s.text

def message : EvaluationError → String
  | unknownPlaceholder name => "Unknown placeholder: " ++ name
  | unknownFunction name => "Unknown function: " ++ name
  | unknownUnary op => "Unknown unary operator: " ++ op
  | unknownBinary op => "Unknown binary operator: " ++ op
  | wrongCount function got =>
    function.name ++ "() takes " ++ function.arityText ++ " (got " ++ toString got ++ ")"
  | missingArgument label position => label ++ ": missing argument " ++ toString position
  | exponentNotScalar => "Power must be a scalar"
  | exponentNotFinite => "Power must be a finite number"
  | tupleOperand operand => operand.text ++ " expects a scalar or array, got a tuple"
  | needsArray label position => label ++ ": argument " ++ toString position ++ " must be an array, got a scalar"
  | needsScalar label position => label ++ ": argument " ++ toString position ++ " must be a scalar"
  | needsFinite label position => label ++ ": argument " ++ toString position ++ " must be finite"
  | negativeDimension label => label ++ ": negative dimensions are not allowed"
  | incompatible label left right =>
    label ++ ": operands could not be broadcast together with shapes " ++ shapeText left ++ " " ++ shapeText right
  | scalarProduct => "Binary '@': scalar operands are not allowed, use '*'"
  | productRank left right =>
    "Binary '@': expected 1-D or 2-D operands, got shapes " ++ shapeText left ++ " " ++ shapeText right
  | notAligned left right =>
    "Binary '@': shapes " ++ shapeText left ++ " and " ++ shapeText right ++ " not aligned"
  | notMatrix label shape => label ++ ": expected a 2-D array, got shape " ++ shapeText shape
  | notSquare label shape => label ++ ": expected a square matrix, got shape " ++ shapeText shape
  | tooManyAxes label shape => label ++ ": expected at most 2 dimensions, got shape " ++ shapeText shape
  | diagonalRank label shape => label ++ ": input must be 1-D or 2-D, got shape " ++ shapeText shape
  | rightSideRank label shape => label ++ ": right-hand side must be 1-D or 2-D, got shape " ++ shapeText shape
  | rightSideRows label rows cols shape =>
    label ++ ": shapes " ++ shapeText [rows, cols] ++ " and " ++ shapeText shape ++ " not aligned"
  | wide label shape => label ++ ": expected at least as many rows as columns, got shape " ++ shapeText shape
  | singular label => label ++ ": Singular matrix"
  | complexEigenvalues label => label ++ ": complex eigenvalues are not supported"
  | notSymmetric label => label ++ ": Matrix is not symmetric"
  | notPositiveDefinite label => label ++ ": Matrix is not positive definite"
  | numeric function fault => function ++ ": " ++ fault.message

/-- The fault that an error wraps, if it wraps one. -/
def cause? : EvaluationError → Option Fault
  | numeric _ fault => some fault
  | _ => none

end EvaluationError

/-- Why an evaluation gives no result: an error of the expression, a fault that no function call wraps, or
    an iteration that never ends. -/
inductive Failure where
  | evaluation (e : EvaluationError)
  | fault (f : Fault)
  | endless

end ArrayCalc
