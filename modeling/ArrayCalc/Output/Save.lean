import ArrayCalc.Output.Render

namespace ArrayCalc

namespace Value

/-- What is written to a file for a value. Arrays in the text and csv layouts become delimited rows there. -/
def fileOutput (v : Value) (options : OutputOptions) : Except OutputError Output :=
  match options.format, v.map (applyThreshold options.threshold) with
  | .layout .text, .array t => (Output.delimited t ' ' options.precision).map .text |>.mapError .digits
  | .layout .csv, .array t => (Output.delimited t ',' options.precision).map .text |>.mapError .digits
  | _, _ => Result.render (.value v) options

/-- What is written to the file of a part of a tuple: scalars in full, all else as usual. -/
def componentOutput (v : Value) (options : OutputOptions) : Except OutputError Output :=
  match v with
  | .scalar x => .ok (.text (Number.lossless x))
  | .array _ => v.fileOutput options

end Value

/-- A file that is to be written. -/
structure Target where
  path : Path
  output : Except OutputError Output

namespace FileStore

def writeTarget (store : FileStore) (target : Target) : Except OutputError FileStore := do
  let output ← target.output
  (store.write target.path output.toBytes).mapError (.unwritable target.path)

/-- Writes files in order up to the first failure; what was written before it stays. -/
def writeTargets (store : FileStore) : List Target → FileStore × Option OutputError
  | [] => (store, none)
  | target :: targets =>
    match store.writeTarget target with
    | .ok store => store.writeTargets targets
    | .error e => (store, some e)

end FileStore

namespace Path

/-- A path without the extension of its last piece, and that extension. Slashes at the end count as part
    of what is cut off, and of it only as many characters as the extension has. -/
def splitExtension (path : Path) : Path × List Char :=
  let ext := path.extension
  (path.take (path.length - ext.length), ext)

/-- The path with which the names of component files begin, and the extension that they end in. -/
def componentParts (format : OutputFormat) (path : Path) : Path × List Char :=
  let (base, ext) := path.splitExtension
  (base, if ext ≠ [] then ext else if format = .npy then ".npy".toList else ".txt".toList)

/-- The file for the part of a tuple at a given place. -/
def component (format : OutputFormat) (path : Path) (i : Nat) : Path :=
  let (base, ext) := path.componentParts format
  base ++ '_' :: Number.digits i ++ ext

end Path

/-- Where and how a result is stored. -/
structure SaveOptions where
  output : OutputOptions
  components : Bool

namespace Result

/-- The files that a result is stored in. -/
def targets (result : Result) (path : Path) (options : SaveOptions) : List Target :=
  match result with
  | .value v => [⟨path, v.fileOutput options.output⟩]
  | .tuple items =>
    if options.components then
      items.mapIdx fun i v => ⟨path.component options.output.format i, v.componentOutput options.output⟩
    else [⟨path, result.render options.output⟩]

/-- What is reported once a result is stored. -/
def savedStatus (result : Result) (path : Path) (options : SaveOptions) : List Char :=
  match result with
  | .value (.scalar _) => "Scalar saved to ".toList ++ path
  | .value (.array _) => "Array saved to ".toList ++ path
  | .tuple _ =>
    if options.components then
      let (base, ext) := path.componentParts options.output.format
      "Components saved to ".toList ++ base ++ "_*".toList ++ ext
    else "Result saved to ".toList ++ path

/-- Stores a result, with the files as they are afterwards. -/
def save (result : Result) (store : FileStore) (path : Path) (options : SaveOptions) :
    FileStore × Option OutputError :=
  store.writeTargets (result.targets path options)

end Result

end ArrayCalc
