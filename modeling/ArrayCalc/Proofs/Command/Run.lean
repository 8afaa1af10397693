import ArrayCalc.Command.Run
import ArrayCalc.Proofs.Eval.Failure
import ArrayCalc.Proofs.Output.Components

namespace ArrayCalc

namespace Config

variable {config : Config} {host : Host} {piped : Option (Tensor Float)} {store store' : FileStore} {result : Result}

/-- How an evaluation can end, if it does: without effect; with a tuple of which some parts are stored; with a result
    that is shown; or with one that is stored. -/
inductive Ends (config : Config) (host : Host) (piped : Option (Tensor Float)) (store : FileStore) : Outcome → Prop where
  | failed {notices : List Notice} : Ends config host piped store ⟨some 1, [], notices, store⟩
  | incomplete {notices : List Notice} {items : List Value} {path : Path} {store' : FileStore}
      (hresult : config.compute host piped store = .ok (.tuple items)) (htarget : config.target = some path)
      (hcomponents : config.save.components = true)
      (hstore : store.ChangesOnly ((Result.tuple items).files path config.save) store') :
      Ends config host piped store ⟨some 1, [], notices, store'⟩
  | shown {notices : List Notice} {result : Result} {output : Output}
      (hresult : config.compute host piped store = .ok result) (htarget : config.target = none)
      (hrender : result.render config.save.output = .ok output) :
      Ends config host piped store ⟨some 0, output.toStream, notices, store⟩
  | stored {notices : List Notice} {result : Result} {path : Path} {store' : FileStore}
      (hresult : config.compute host piped store = .ok result) (htarget : config.target = some path)
      (hsave : result.save store path config.save = (store', none)) :
      Ends config host piped store ⟨some 0, [], notices, store'⟩

variable {outcome : Outcome}

theorem Ends.exitCode (h : config.Ends host piped store outcome) :
    outcome.exitCode = some 0 ∨ outcome.exitCode = some 1 := by
  cases h with
  | failed => exact .inr rfl
  | incomplete => exact .inr rfl
  | shown => exact .inl rfl
  | stored => exact .inl rfl

/-- An evaluation that fails puts nothing out, and the only files that it can leave behind are parts of a tuple. -/
theorem Ends.failure (h : config.Ends host piped store outcome) (hcode : outcome.exitCode = some 1) :
    outcome.output = [] ∧
      (outcome.store = store ∨
        ∃ items path, config.compute host piped store = .ok (.tuple items) ∧ config.target = some path ∧
          config.save.components = true ∧
          store.ChangesOnly ((Result.tuple items).files path config.save) outcome.store) := by
  cases h with
  | failed => exact ⟨rfl, .inl rfl⟩
  | incomplete hresult htarget hcomponents hstore =>
    exact ⟨rfl, .inr ⟨_, _, hresult, htarget, hcomponents, hstore⟩⟩
  | shown => cases hcode
  | stored => cases hcode

end Config

namespace Result

variable {result : Result} {store : FileStore}

/-- A result has been delivered. Without a target it is all of the output: the bytes of an array file, or a text that
    ends in a new line unless it is empty. With a target there is no output, each file that the result is stored in holds
    what is written for it, and nothing else has changed. -/
def Delivered (result : Result) (target : Option Path) (options : SaveOptions) (store : FileStore)
    (output : List UInt8) (store' : FileStore) : Prop :=
  match target with
  | none =>
    store' = store ∧
      (result.render options.output = .ok (.binary output) ∨
        ∃ text, result.render options.output = .ok (.text text) ∧
          output = if text = [] then [] else Text.encodeUtf8 (text ++ ['\n']))
  | some path =>
    output = [] ∧ store.ChangesOnly (result.files path options) store' ∧
      ∀ file ∈ result.targets path options, ∃ contents, file.output = .ok contents ∧
        store'.read file.path = .ok contents.toBytes

theorem delivered_of_render {options : SaveOptions} {output : Output} (h : result.render options.output = .ok output) :
    result.Delivered none options store output.toStream store := by
  refine ⟨rfl, ?_⟩
  cases output with
  | binary bytes => exact .inl h
  | text cs =>
    refine .inr ⟨cs, h, ?_⟩
    cases cs with
    | nil => rfl
    | cons c cs => rfl

theorem delivered_of_save {options : SaveOptions} {path : Path} {store' : FileStore}
    (h : result.save store path options = (store', none)) : result.Delivered (some path) options store [] store' := by
  have hchanges := result.changesOnly_save store path options
  rw [h] at hchanges
  exact ⟨rfl, hchanges, read_of_save h⟩

end Result

namespace Config

variable {config : Config} {host : Host} {piped : Option (Tensor Float)} {store : FileStore} {result : Result}

/-- An evaluation that succeeds has a result and delivers it. -/
theorem Ends.success {outcome : Outcome} (h : config.Ends host piped store outcome) (hcode : outcome.exitCode = some 0) :
    ∃ result, config.compute host piped store = .ok result ∧
      result.Delivered config.target config.save store outcome.output outcome.store := by
  cases h with
  | failed => cases hcode
  | incomplete => cases hcode
  | shown hresult htarget hrender =>
    refine ⟨_, hresult, ?_⟩
    rw [htarget]
    exact Result.delivered_of_render hrender
  | stored hresult htarget hsave =>
    refine ⟨_, hresult, ?_⟩
    rw [htarget]
    exact Result.delivered_of_save hsave

end Config

/-- The options ask for the help, the version or the guide. -/
def Options.informs (o : Options) : Bool :=
  o.help || o.version || o.prompt

/-- A command line has an expression, and there is data for it. -/
structure Configures (args : List (List Char)) (stdin : Stream) (o : Options) (expression : List Char)
    (piped : Option (Tensor Float)) : Prop where
  options : Options.parse args = .ok o
  calculates : o.informs = false
  expression : o.expression = some expression
  input : stdin.readArray = .ok piped
  data : o.files ≠ [] ∨ piped.isSome = true

section

variable {args : List (List Char)} {host : Host} {stdin : Stream} {store : FileStore} {o : Options}

theorem Configures.unique {o' : Options} {expression expression' : List Char} {piped piped' : Option (Tensor Float)}
    (h : Configures args stdin o expression piped) (h' : Configures args stdin o' expression' piped') :
    o' = o ∧ expression' = expression ∧ piped' = piped := by
  obtain rfl : o = o' := Except.ok.inj (h.options.symm.trans h'.options)
  exact ⟨rfl, Option.some.inj (h'.expression.symm.trans h.expression), Except.ok.inj (h'.input.symm.trans h.input)⟩

end

end ArrayCalc
