import ArrayCalc.Command.Run

namespace ArrayCalc

/-- The spelling of a location for the operating system. -/
def spelling (location : Location) : String :=
  match location with
  | ['/'] :: rest => "/" ++ String.ofList (List.intercalate ['/'] rest)
  | _ => String.ofList (List.intercalate ['/'] location)

/-- What stands at a location. What can be opened and not read counts as a directory. -/
def look (location : Location) : IO (Option Entry) := do
  try
    let bytes ← IO.FS.readBinFile (spelling location)
    return some (.file bytes.toList)
  catch
    | .noFileOrDirectory .. => return none
    | _ => return some .directory

/-- Adds what stands on the way to a path and at its end. -/
def survey (store : FileStore) (path : Path) : IO FileStore := do
  let start : Location := if path.head? = some '/' then [['/']] else []
  let mut store := store
  let mut here := start
  for piece in path.components do
    if store.entry? here = none ∧ here ≠ [] then
      if let some entry ← look here then store := store.put here entry
    if piece = ['.', '.'] then here := FileStore.parent here
    else if piece ≠ [] ∧ piece ≠ ['.'] then here := here ++ [piece]
  if store.entry? here = none then
    if let some entry ← look here then store := store.put here entry
  return store

/-- The most parts that a result can have. -/
def mostParts : Nat := 3

/-- The paths that a run may look at or write to. -/
def mentionedPaths (o : Options) : List Path :=
  let targets := o.output.toList.flatMap fun path =>
    path :: (List.range mostParts).map (path.component o.outputFormat)
  o.files ++ targets

/-- Writes the files that a run has changed. -/
def writeChanges (before after : FileStore) : IO Unit := do
  for (location, entry) in after.entries.reverse do
    if let .file bytes := entry then
      if before.entry? location ≠ some entry then
        IO.FS.writeBinFile (spelling location) (ByteArray.mk bytes.toArray)

partial def readToEnd (stream : IO.FS.Stream) (start : ByteArray) : IO ByteArray := do
  let chunk ← stream.read 65536
  if chunk.isEmpty then return start else readToEnd stream (start ++ chunk)

def standardInput : IO Stream := do
  let stream ← IO.getStdin
  if ← stream.isTty then return .terminal
  try
    return .bytes (← readToEnd stream .empty).toList
  catch e => return .failing (toString e)

/-- Samples from zero to below one, scattered by mixing the bits of a seed and a counter. -/
def scattered (seed : UInt64) (k : Nat) : Float :=
  let z := seed + UInt64.ofNat (k + 1) * 0x9E3779B97F4A7C15
  let z := (z ^^^ (z >>> 30)) * 0xBF58476D1CE4E5B9
  let z := (z ^^^ (z >>> 27)) * 0x94D049BB133111EB
  ((z ^^^ (z >>> 31)) >>> 11).toFloat / 9007199254740992

/-- What the filled arrays of a run are granted. -/
def localCapacity : Capacity where
  largest := 2 ^ 32
  largest_lt := by decide
  available := 2 ^ 32

/-- Runs a command line on the real streams and files, and gives its exit code. -/
def runProcess (args : List String) : IO UInt32 := do
  let args := args.map String.toList
  let (stdin, store) ← match Options.parse args with
    | .ok o =>
      if o.help || o.version || o.prompt || o.expression.isNone then pure (Stream.terminal, {})
      else pure (← standardInput, ← (mentionedPaths o).foldlM survey {})
    | .error _ => pure (Stream.terminal, {})
  let seed ← IO.rand 0 (2 ^ 62)
  let outcome := run args ⟨scattered (UInt64.ofNat seed), localCapacity⟩ stdin store
  for notice in outcome.notices do
    IO.eprintln (String.ofList notice.text)
  writeChanges store outcome.store
  let stdout ← IO.getStdout
  stdout.write (ByteArray.mk outcome.output.toArray)
  stdout.flush
  return UInt32.ofNat (outcome.exitCode.getD 1)

end ArrayCalc

def main (args : List String) : IO UInt32 :=
  ArrayCalc.runProcess args
