import ArrayCalc.Eval.Error
import ArrayCalc.Expr.SyntaxError
import ArrayCalc.Input.Error
import ArrayCalc.Output.Error
import ArrayCalc.Output.Layout

namespace ArrayCalc

/-- Why a command line is refused. -/
inductive UsageError where
  | missingValue (flag : List Char)
  | notInteger (flag text : List Char)
  | notNumber (flag text : List Char)
  | unknownFormat (flag text : List Char)
  | needlessValue (flag text : List Char)
  | unrecognized (arg : List Char)
  deriving DecidableEq, Repr

def UsageError.message : UsageError → String
  | missingValue flag => "argument " ++ String.ofList flag ++ ": expected one argument"
  | notInteger flag text =>
    "argument " ++ String.ofList flag ++ ": invalid int value: '" ++ String.ofList text ++ "'"
  | notNumber flag text =>
    "argument " ++ String.ofList flag ++ ": invalid float value: '" ++ String.ofList text ++ "'"
  | unknownFormat flag text =>
    "argument " ++ String.ofList flag ++ ": invalid choice: '" ++ String.ofList text ++ "' (choose from " ++
      String.intercalate ", " (OutputFormat.all.map fun f => "'" ++ f.name ++ "'") ++ ")"
  | needlessValue flag text =>
    "argument " ++ String.ofList flag ++ ": ignored explicit argument '" ++ String.ofList text ++ "'"
  | unrecognized arg => "unrecognized arguments: " ++ String.ofList arg

/-- Why a run fails. -/
inductive RunError where
  | usage (e : UsageError)
  | input (e : InputError)
  | expression (e : SyntaxError)
  | evaluation (e : EvaluationError)
  | fault (f : Fault)
  | output (e : OutputError)

namespace RunError

def message : RunError → String
  | usage e => e.message
  | input e => e.message
  | expression e => e.message
  | evaluation e => e.message
  | fault f => f.message
  | output e => e.message

/-- The code of an error; faults of the numeric routines and refused counts of digits have none. -/
def code? : RunError → Option String
  | usage _ => some "MC_CLI_USAGE"
  | input e => e.code?
  | expression e => some e.code
  | evaluation e => some e.code
  | fault _ => none
  | output e => e.code?

end RunError

end ArrayCalc
