import ArrayCalc.Command.Config
import ArrayCalc.Command.Guide
import ArrayCalc.Eval.Evaluate
import ArrayCalc.Expr.Parser
import ArrayCalc.Input.Load
import ArrayCalc.Input.Piped

namespace ArrayCalc

/-- What a run tells its user beside its output. -/
inductive Notice where
  | progress (text : List Char)
  | overview
  | failure (e : RunError)
  | trace (e : RunError)

/-- What comes of a run: its exit code, its output, what it tells the user, and the files as they are afterwards.
    A run that never ends has no exit code. -/
structure Outcome where
  exitCode : Option Nat
  output : List UInt8
  notices : List Notice
  store : FileStore

namespace Outcome

def success (output : List UInt8) (notices : List Notice) (store : FileStore) : Outcome :=
  ⟨some 0, output, notices, store⟩

/-- A run that gives nothing but text. -/
def printing (text : String) (store : FileStore) : Outcome :=
  success (Text.encodeUtf8 text.toList) [] store

/-- A run that has not been told enough. -/
def uninformed (store : FileStore) : Outcome :=
  ⟨some 1, [], [.overview], store⟩

def failure (verbose : Bool) (before : List Notice) (e : RunError) (store : FileStore) : Outcome :=
  ⟨some 1, [], before ++ .failure e :: (if verbose then [.trace e] else []), store⟩

def endless (before : List Notice) (store : FileStore) : Outcome :=
  ⟨none, [], before, store⟩

end Outcome

/-- The stages of an evaluation. -/
inductive Stage where
  | loading | parsing | evaluating | formatting
  deriving DecidableEq, Repr

/-- Why a run comes to no result: a stage fails, or the evaluation never ends. -/
inductive Stop where
  | failure (stage : Stage) (e : RunError)
  | endless

def Stop.ofFailure : Failure → Stop
  | .evaluation e => failure .evaluating (.evaluation e)
  | .fault f => failure .evaluating (.fault f)
  | .endless => endless

namespace Config

/-- How many stages begin before a given one ends. -/
def begun : Stage → Nat
  | .loading => 1
  | .parsing => 2
  | .evaluating => 3
  | .formatting => 4

/-- What is said at the beginning of each stage. -/
def stageTexts (config : Config) : List (List Char) :=
  ["Loading matrices from ".toList ++ Number.digits config.files.length ++ " files...".toList,
   "Parsing expression: ".toList ++ config.expression,
   "Evaluating expression...".toList,
   "Formatting result...".toList]

/-- What a verbose run says up to the end of a stage. -/
def progress (config : Config) (piped : Bool) (stage : Stage) : List Notice :=
  if config.verbose then
    let data := if piped then ["Data detected from stdin, available as \x7bPIPE\x7d placeholder".toList] else []
    (data ++ config.stageTexts.take (begun stage)).map .progress
  else []

/-- The result of an evaluation, or why there is none. -/
def compute (config : Config) (host : Host) (piped : Option (Tensor Float)) (store : FileStore) :
    Except Stop Result := do
  let env ← (Environment.load store piped config.files).mapError fun e => .failure .loading (.input e)
  let e ← (Parser.parseText config.expression).mapError fun e => .failure .parsing (.expression e)
  (e.evaluate host env).mapError .ofFailure

/-- Writes a result to its file, or to the output of the run. -/
def deliver (config : Config) (before : List Notice) (result : Result) (store : FileStore) : Outcome :=
  match config.target with
  | some path =>
    match result.save store path config.save with
    | (store, none) =>
      let status := if config.verbose then [.progress (result.savedStatus path config.save)] else []
      .success [] (before ++ status) store
    | (store, some e) => .failure config.verbose before (.output e) store
  | none =>
    match result.render config.save.output with
    | .ok output => .success output.toStream before store
    | .error e => .failure config.verbose before (.output e) store

/-- Evaluates the expression of a configuration and delivers its result. -/
def execute (config : Config) (host : Host) (piped : Option (Tensor Float)) (store : FileStore) :
    Outcome :=
  match config.compute host piped store with
  | .ok result => config.deliver (config.progress piped.isSome .formatting) result store
  | .error (.failure stage e) => .failure config.verbose (config.progress piped.isSome stage) e store
  | .error .endless => .endless (config.progress piped.isSome .evaluating) store

end Config

/-- Evaluates the expression of some options, if there is one and if there is any data for it. -/
def Options.run (o : Options) (host : Host) (piped : Except InputError (Option (Tensor Float)))
    (store : FileStore) : Outcome :=
  match o.expression with
  | none => .uninformed store
  | some expression =>
    match piped with
    | .error e => .failure o.verbose [] (.input e) store
    | .ok piped =>
      if o.files = [] ∧ piped.isNone then .uninformed store
      else (o.config expression).execute host piped store

/-- Whether a verbose run is asked for, as far as can be told from arguments that are refused. -/
def seemsVerbose (args : List (List Char)) : Bool :=
  args.any fun arg => Switch.ofFlag? arg = some .verbose

/-- Runs a command line. -/
def run (args : List (List Char)) (host : Host) (stdin : Stream) (store : FileStore) : Outcome :=
  match Options.parse args with
  | .error e => .failure (seemsVerbose args) [] (.usage e) store
  | .ok o =>
    if o.help then .printing (helpText ++ "\n") store
    else if o.version then .printing (versionText ++ "\n") store
    else if o.prompt then .printing guideText store
    else o.run host stdin.readArray store

namespace Notice

/-- The line that shows a notice, without its end. -/
def text : Notice → List Char
  | progress cs => cs
  | overview => helpText.toList
  | failure e => "Error: ".toList ++ e.message.toList
  | trace e => (e.code?.getD "").toList

end Notice

end ArrayCalc
