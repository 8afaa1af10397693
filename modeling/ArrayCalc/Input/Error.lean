import ArrayCalc.Files.Store
import ArrayCalc.Input.TextMatrix
import ArrayCalc.Npy.File

namespace ArrayCalc

/-- Why the arrays of a run cannot be had. -/
inductive InputError where
  | reservedName
  | missing (path : Path)
  | badExtension (path : Path)
  | badName (path : Path)
  | unreadable (path : Path) (cause : FileError)
  | malformed (path : Path) (cause : Npy.ReadError)
  | piped (cause : Npy.ReadError)
  | text (cause : TextError)
  | notUtf8
  | stream (message : String)

namespace InputError

/-- The code of an error. A stream that fails has none, and neither have piped bytes that end before the
    version of the format: there the reader itself fails. -/
def code? : InputError → Option String
  | reservedName => some "MC_LOAD_RESERVED_NAME"
  | missing _ | unreadable .. | malformed _ .versionCut => some "MC_LOAD_NOT_FOUND"
  | badExtension _ => some "MC_LOAD_BAD_EXTENSION"
  | badName _ => some "MC_LOAD_BAD_NAME"
  | malformed _ (.format _) | piped (.format _) => some "MC_LOAD_NPY"
  | piped .versionCut | stream _ => none
  | text _ => some "MC_LOAD_TEXT"
  | notUtf8 => some "MC_LOAD_STDIN"

def encodingMessage : String :=
  "The encoded data was not valid for encoding utf-8"

def message : InputError → String
  | reservedName =>
    "'pipe.npy' is a reserved filename for piping operations. Use \x7bPIPE\x7d placeholder to access data from stdin."
  | missing path => "File not found: " ++ String.ofList path
  | badExtension path => "File must be a .npy file: " ++ String.ofList path
  | badName path =>
    "File name must be a single uppercase letter followed by .npy (e.g., A.npy): " ++ String.ofList path
  | unreadable path cause => "Error loading " ++ String.ofList path ++ ": " ++ cause.message
  | malformed path cause => "Error loading " ++ String.ofList path ++ ": " ++ cause.message
  | piped cause => cause.message
  | text cause => cause.message
  | notUtf8 => "Failed to parse input as NPY or text: " ++ encodingMessage
  | stream message => message

/-- The message of the failure underneath, where there is one. -/
def cause? : InputError → Option String
  | unreadable _ cause => some cause.message
  | malformed _ cause => some cause.message
  | notUtf8 => some encodingMessage
  | _ => none

end InputError

end ArrayCalc
