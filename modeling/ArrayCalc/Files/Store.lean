import ArrayCalc.Files.Path

namespace ArrayCalc

/-- Why a file cannot be read or written. -/
inductive FileError where
  | notFound (path : Path)
  | notDirectory (path : Path)
  | writesDirectory (path : Path)
  | readsDirectory
  deriving DecidableEq, Repr

def FileError.message : FileError → String
  | notFound path => "ENOENT: no such file or directory, open '" ++ String.ofList path ++ "'"
  | notDirectory path => "ENOTDIR: not a directory, open '" ++ String.ofList path ++ "'"
  | writesDirectory path => "EISDIR: illegal operation on a directory, open '" ++ String.ofList path ++ "'"
  | readsDirectory => "EISDIR: illegal operation on a directory, read"

/-- The names on the way from the working directory down to a file. What lies above begins with the name
    of the parent directory or, for an absolute path, with a slash. -/
abbrev Location := List (List Char)

inductive Entry where
  | file (bytes : List UInt8)
  | directory
  deriving DecidableEq, Repr

/-- The files and directories that a run can see. The working directory is always there. -/
structure FileStore where
  entries : List (Location × Entry) := []

namespace FileStore

def entry? (store : FileStore) (location : Location) : Option Entry :=
  if location = [] then some .directory else store.entries.lookup location

/-- Puts a file or directory in its place, instead of what was there. -/
def put (store : FileStore) (location : Location) (entry : Entry) : FileStore :=
  ⟨(location, entry) :: store.entries.filter (·.1 ≠ location)⟩

def parent (location : Location) : Location :=
  if location.getLast?.all (· = ['.', '.']) then location ++ [['.', '.']] else location.dropLast

/-- Follows the pieces of a path from a location. Every step needs a directory to start from, also a step
    that stays. -/
def walk (store : FileStore) (path : Path) (here : Location) : List (List Char) → Except FileError Location
  | [] => .ok here
  | piece :: pieces =>
    match store.entry? here with
    | none => .error (.notFound path)
    | some (.file _) => .error (.notDirectory path)
    | some .directory =>
      if piece = [] ∨ piece = ['.'] then walk store path here pieces
      else if piece = ['.', '.'] then walk store path (parent here) pieces
      else walk store path (here ++ [piece]) pieces

/-- The location that a path names. -/
def locate (store : FileStore) (path : Path) : Except FileError Location :=
  match path with
  | [] => .error (.notFound path)
  | '/' :: rest => store.walk path [['/']] (Path.components rest)
  | _ => store.walk path [] path.components

def exists? (store : FileStore) (path : Path) : Bool :=
  match store.locate path with
  | .ok location => (store.entry? location).isSome
  | .error _ => false

def read (store : FileStore) (path : Path) : Except FileError (List UInt8) := do
  let location ← store.locate path
  match store.entry? location with
  | some (.file bytes) => .ok bytes
  | some .directory => .error .readsDirectory
  | none => .error (.notFound path)

/-- Writes a whole file, new or in place of an old one. Its directory must be there. -/
def write (store : FileStore) (path : Path) (bytes : List UInt8) : Except FileError FileStore := do
  let bare := (path.reverse.dropWhile (· = '/')).reverse
  let location ← (store.locate bare).mapError fun
    | .notDirectory _ => .notDirectory path
    | _ => .notFound path
  if bare ≠ path ∨ store.entry? location = some .directory then .error (.writesDirectory path)
  else .ok (store.put location (.file bytes))

/-- Puts an entry in its place together with the directories above it. -/
def add (store : FileStore) (location : Location) (entry : Entry) : FileStore :=
  let store := (List.range location.length).foldl
    (fun store k => if (store.entry? (location.take k)).isNone then store.put (location.take k) .directory else store)
    store
  store.put location entry

end FileStore

end ArrayCalc
