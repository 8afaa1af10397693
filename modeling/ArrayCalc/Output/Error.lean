import ArrayCalc.Files.Store
import ArrayCalc.Number.Layout

namespace ArrayCalc

/-- Why a result cannot be written. -/
inductive OutputError where
  | tupleStream
  | digits (cause : Number.DigitRange)
  | unwritable (path : Path) (cause : FileError)

namespace OutputError

/-- The code of an error; a refused count of digits has none. -/
def code? : OutputError → Option String
  | tupleStream => some "MC_FORMAT_UNSUPPORTED"
  | digits _ => none
  | unwritable .. => some "MC_FORMAT_IO"

def message : OutputError → String
  | tupleStream => "A tuple result cannot be written as a single NPY stream; use --output with --components"
  | digits cause => cause.message
  | unwritable path cause => "Cannot write " ++ String.ofList path ++ ": " ++ cause.message

/-- The message of the failure underneath, where there is one. -/
def cause? : OutputError → Option String
  | unwritable _ cause => some cause.message
  | _ => none

end OutputError

end ArrayCalc
