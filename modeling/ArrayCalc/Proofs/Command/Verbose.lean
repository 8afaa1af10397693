import ArrayCalc.Command.Run
import ArrayCalc.Proofs.Command.Arguments

namespace ArrayCalc

namespace Notice

/-- Whether a notice is one of those that only verbose runs give: the stages, the report on stored files, and the trace
    of a failure. -/
def isVerbose : Notice → Bool
  | progress _ | trace _ => true
  | overview | failure _ => false

/-- What is left of some notices without those of verbose runs. -/
def essential (notices : List Notice) : List Notice :=
  notices.filter fun notice => !notice.isVerbose

theorem essential_append (before after : List Notice) : essential (before ++ after) = essential before ++ essential after :=
  List.filter_append ..

theorem essential_map_progress (texts : List (List Char)) : essential (texts.map progress) = [] := by
  simp [essential, isVerbose]

end Notice

namespace Outcome

/-- An outcome without what is said in verbose runs only. -/
def quiet (outcome : Outcome) : Outcome :=
  { outcome with notices := Notice.essential outcome.notices }

/-- Outcomes that differ in what is said in verbose runs only. -/
theorem quiet_eq_quiet_iff {outcome outcome' : Outcome} :
    outcome.quiet = outcome'.quiet ↔
      outcome.exitCode = outcome'.exitCode ∧ outcome.output = outcome'.output ∧
        Notice.essential outcome.notices = Notice.essential outcome'.notices ∧ outcome.store = outcome'.store := by
  simp only [quiet, mk.injEq]

theorem quiet_printing (text : String) (store : FileStore) : (printing text store).quiet = printing text store :=
  rfl

variable {before before' : List Notice} (hbefore : Notice.essential before = Notice.essential before')

include hbefore

theorem quiet_failure (verbose verbose' : Bool) (e : RunError) (store : FileStore) :
    (failure verbose before e store).quiet = (failure verbose' before' e store).quiet := by
  have htrace (v : Bool) : Notice.essential (.failure e :: (if v then [.trace e] else [])) = [.failure e] := by
    cases v <;> rfl
  simp only [failure, quiet, Notice.essential_append, hbefore, htrace]

theorem quiet_success (output : List UInt8) (store : FileStore) :
    (success output before store).quiet = (success output before' store).quiet := by
  simp only [success, quiet, hbefore]

theorem quiet_endless (store : FileStore) : (endless before store).quiet = (endless before' store).quiet := by
  simp only [endless, quiet, hbefore]

end Outcome

namespace Config

variable (config : Config) (host : Host) (store : FileStore)

/-- The same evaluation, with everything said about it. -/
def loud : Config :=
  { config with verbose := true }

theorem essential_progress (data : Bool) (stage : Stage) : Notice.essential (config.progress data stage) = [] := by
  rw [progress]
  split
  · exact Notice.essential_map_progress _
  · rfl

theorem quiet_deliver_loud {before before' : List Notice}
    (hbefore : Notice.essential before = Notice.essential before') (result : Result) :
    (config.loud.deliver before result store).quiet = (config.deliver before' result store).quiet := by
  have htarget : config.loud.target = config.target := rfl
  have hsave : config.loud.save = config.save := rfl
  rw [deliver, deliver, htarget, hsave]
  cases config.target with
  | none =>
    dsimp only
    cases result.render config.save.output with
    | ok output => exact Outcome.quiet_success hbefore _ _
    | error e => exact Outcome.quiet_failure hbefore _ _ _ _
  | some path =>
    dsimp only
    have hstatus (v : Bool) :
        Notice.essential (if v then [.progress (result.savedStatus path config.save)] else []) = [] := by
      cases v <;> rfl
    cases result.save store path config.save with
    | mk store' failure =>
      cases failure with
      | some e => exact Outcome.quiet_failure hbefore _ _ _ _
      | none =>
        apply Outcome.quiet_success
        rw [Notice.essential_append, Notice.essential_append, hbefore, hstatus, hstatus]

/-- Neither the result nor the stage that fails depends on what is said about them. -/
theorem compute_loud (piped : Option (Tensor Float)) :
    config.loud.compute host piped store = config.compute host piped store :=
  rfl

theorem quiet_execute_loud (piped : Option (Tensor Float)) :
    (config.loud.execute host piped store).quiet = (config.execute host piped store).quiet := by
  have hprogress (data : Bool) (stage : Stage) :
      Notice.essential (config.loud.progress data stage) = Notice.essential (config.progress data stage) := by
    rw [essential_progress, essential_progress]
  rw [execute, execute, compute_loud]
  cases config.compute host piped store with
  | ok result => exact quiet_deliver_loud config store (hprogress _ _) result
  | error stop =>
    cases stop with
    | failure stage e => exact Outcome.quiet_failure (hprogress _ _) _ _ _ _
    | endless => exact Outcome.quiet_endless (hprogress _ _) _

/-- Without being asked for more, a run says only what is essential. -/
theorem quiet_execute (hverbose : config.verbose = false) (piped : Option (Tensor Float)) :
    (config.execute host piped store).quiet = config.execute host piped store := by
  have hprogress (data : Bool) (stage : Stage) : config.progress data stage = [] := by
    rw [progress, hverbose]
    rfl
  rw [execute]
  cases config.compute host piped store with
  | error stop =>
    cases stop with
    | failure stage e =>
      dsimp only
      rw [hprogress, hverbose]
      rfl
    | endless =>
      dsimp only
      rw [hprogress]
      rfl
  | ok result =>
    dsimp only
    rw [hprogress, deliver, hverbose]
    cases config.target with
    | none =>
      dsimp only
      cases result.render config.save.output <;> rfl
    | some path =>
      dsimp only
      rcases result.save store path config.save with ⟨store', _ | e⟩ <;> rfl

end Config

namespace Options

/-- The same options, for a verbose run. -/
def loud (o : Options) : Options :=
  { o with verbose := true }

theorem loud_set (o : Options) (s : Switch) : o.loud.set s = (o.set s).loud := by
  cases s <;> rfl

/-- An argument is taken in alike whether or not the run is verbose. -/
theorem loud_add (o : Options) (a : Argument) : o.loud.add a = (o.add a).loud := by
  cases a with
  | positional text =>
    have hexpression : o.loud.expression = o.expression := rfl
    rw [add, add, hexpression]
    cases o.expression <;> rfl
  | switch s => exact loud_set o s
  | output path => rfl
  | precision count => rfl
  | format f => rfl
  | threshold x => rfl

theorem foldl_add_loud (o : Options) (as : List Argument) : as.foldl add o.loud = (as.foldl add o).loud := by
  induction as generalizing o with
  | nil => rfl
  | cons a as ih => rw [List.foldl_cons, List.foldl_cons, loud_add, ih]

/-- The switch in front of all other arguments. -/
theorem parse_verbose (args : List (List Char)) : parse ("-v".toList :: args) = (parse args).map loud := by
  have hread := (Argument.Group.switch "-v".toList .verbose (by decide)).ofArgs_append args
  rw [Argument.Group.args, List.singleton_append] at hread
  rw [parse, parse, hread]
  cases Argument.ofArgs args with
  | error e => rfl
  | ok as => exact congrArg Except.ok (foldl_add_loud {} as)

/-- A run is verbose only if one of its arguments says so. -/
theorem seemsVerbose_of_parse {args : List (List Char)} {o : Options} (h : parse args = .ok o) (hverbose : o.verbose = true) :
    seemsVerbose args = true := by
  obtain ⟨line, rfl⟩ := CommandLine.exists_of_parse h
  obtain ⟨-, rfl⟩ := CommandLine.parse_args_eq_ok_iff.mp h
  obtain ⟨g, hg, hswitch⟩ := List.any_eq_true.mp hverbose
  cases g with
  | switch flag s hs =>
    obtain rfl : s = .verbose := by simpa [Argument.Group.isSwitch] using hswitch
    have hflag : flag ∈ line.args :=
      List.mem_append_left _ (List.mem_flatMap.mpr ⟨_, hg, List.mem_singleton.mpr rfl⟩)
    exact List.any_eq_true.mpr ⟨flag, hflag, by rw [hs]; rfl⟩
  | positional text _ => cases hswitch
  | setting flag value s _ => cases hswitch
  | joined flag value s _ _ => cases hswitch

variable (o : Options) (host : Host) (piped : Except InputError (Option (Tensor Float)))
  (store : FileStore)

theorem quiet_run_loud : (o.loud.run host piped store).quiet = (o.run host piped store).quiet := by
  have hexpression : o.loud.expression = o.expression := rfl
  have hfiles : o.loud.files = o.files := rfl
  have hconfig (expression : List Char) : o.loud.config expression = (o.config expression).loud := rfl
  rw [run, run, hexpression]
  cases o.expression with
  | none => rfl
  | some expression =>
    dsimp only
    cases piped with
    | error e => exact Outcome.quiet_failure (Eq.refl (Notice.essential [])) _ _ _ _
    | ok piped =>
      dsimp only
      rw [hfiles, hconfig]
      split
      · rfl
      · exact Config.quiet_execute_loud _ host store piped

theorem quiet_run (hverbose : o.verbose = false) :
    (o.run host piped store).quiet = o.run host piped store := by
  rw [run]
  cases o.expression with
  | none => rfl
  | some expression =>
    dsimp only
    cases piped with
    | error e => rw [hverbose]; rfl
    | ok piped =>
      dsimp only
      split
      · rfl
      · exact Config.quiet_execute (o.config expression) host store hverbose piped

end Options

variable (args : List (List Char)) (host : Host) (stdin : Stream) (store : FileStore)

theorem quiet_run_verbose :
    (run ("-v".toList :: args) host stdin store).quiet = (run args host stdin store).quiet := by
  rw [run, run, Options.parse_verbose]
  cases Options.parse args with
  | error e => exact Outcome.quiet_failure (Eq.refl (Notice.essential [])) _ _ _ _
  | ok o =>
    have hhelp : o.loud.help = o.help := rfl
    have hversion : o.loud.version = o.version := rfl
    have hprompt : o.loud.prompt = o.prompt := rfl
    dsimp only [Except.map]
    rw [hhelp, hversion, hprompt]
    split
    · rfl
    · split
      · rfl
      · split
        · rfl
        · exact o.quiet_run_loud host stdin.readArray store

/-- Without the switch among its arguments a run says nothing but what is essential. -/
theorem quiet_run_of_not_seemsVerbose (h : seemsVerbose args = false) :
    (run args host stdin store).quiet = run args host stdin store := by
  rw [run]
  cases hparse : Options.parse args with
  | error e =>
    dsimp only
    rw [h]
    rfl
  | ok o =>
    have hverbose : o.verbose = false := by
      cases hverbose : o.verbose with
      | false => rfl
      | true => rw [← h, Options.seemsVerbose_of_parse hparse hverbose]
    dsimp only
    split
    · exact Outcome.quiet_printing _ store
    · split
      · exact Outcome.quiet_printing _ store
      · split
        · exact Outcome.quiet_printing _ store
        · exact o.quiet_run host stdin.readArray store hverbose

/-- A verbose run puts out the same, ends with the same exit code and leaves the same files behind as the run that it
    is the verbose form of. It tells the user the same too, apart from the stages, the report on stored files and the
    trace of a failure; and a run whose arguments do not have the switch tells nothing of these. -/
theorem run_verbose :
    let loud := run ("-v".toList :: args) host stdin store
    let outcome := run args host stdin store
    loud.output = outcome.output ∧ loud.exitCode = outcome.exitCode ∧ loud.store = outcome.store ∧
      Notice.essential loud.notices = Notice.essential outcome.notices ∧
      (seemsVerbose args = false → Notice.essential loud.notices = outcome.notices) := by
  intro loud outcome
  obtain ⟨hcode, houtput, hnotices, hstore⟩ :=
    Outcome.quiet_eq_quiet_iff.mp (quiet_run_verbose args host stdin store)
  refine ⟨houtput, hcode, hstore, hnotices, fun hplain => ?_⟩
  have hself : outcome.quiet = outcome := quiet_run_of_not_seemsVerbose args host stdin store hplain
  exact hnotices.trans (congrArg Outcome.notices hself)

/-- A missing file is complained of in both runs. -/
theorem run_verbose_missing_file :
    let host : Host := ⟨fun _ => 0, ⟨4, by decide, 4⟩⟩
    let args := ["{A}".toList, "A.npy".toList]
    seemsVerbose args = false ∧ (run args host .terminal {}).notices = [.failure (.input (.missing "A.npy".toList))] ∧
      Notice.essential (run ("-v".toList :: args) host .terminal {}).notices =
        [.failure (.input (.missing "A.npy".toList))] := by
  intro host args
  have hplain : seemsVerbose args = false := by decide
  have hnotices : (run args host .terminal {}).notices = [.failure (.input (.missing "A.npy".toList))] := rfl
  exact ⟨hplain, hnotices, ((run_verbose args host .terminal {}).2.2.2.2 hplain).trans hnotices⟩

end ArrayCalc
