import ArrayCalc.Eval.Value
import ArrayCalc.Expr.Token
import ArrayCalc.Input.Error

namespace ArrayCalc

/-- The file name that no matrix may have. -/
def reservedName : List Char := "pipe.npy".toList

/-- The extension of array files. -/
def arrayExtension : List Char := ".npy".toList

/-- The placeholder that a file is bound to: the capital letter that its name is. -/
def placeholderOf (store : FileStore) (path : Path) : Except InputError String :=
  if store.exists? path = false then .error (.missing path)
  else if arrayExtension.isSuffixOf path = false then .error (.badExtension path)
  else if Token.isLetter path.stem then .ok (String.ofList path.stem)
  else .error (.badName path)

/-- The array in a file. -/
def readArray (store : FileStore) (path : Path) : Except InputError (Tensor Float) := do
  let bytes ← (store.read path).mapError (.unreadable path)
  (Npy.read bytes).mapError (.malformed path)

/-- Binds one file to its placeholder. -/
def Environment.bind (store : FileStore) (env : Environment) (path : Path) : Except InputError Environment := do
  let name ← placeholderOf store path
  let t ← readArray store path
  .ok (env.insert name t)

/-- Binds piped data and files to their placeholders; the last file of a letter counts. The reserved name
    is refused before anything else is looked at. -/
def Environment.load (store : FileStore) (piped : Option (Tensor Float)) (paths : List Path) :
    Except InputError Environment :=
  if paths.any fun path => path.fileName = reservedName then .error .reservedName
  else
    let start : Environment := ⟨(piped.map (Environment.pipeName, ·)).toList⟩
    paths.foldlM (Environment.bind store) start

end ArrayCalc
