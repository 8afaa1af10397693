import ArrayCalc.Output.Save
import ArrayCalc.Proofs.Files.Store

namespace ArrayCalc

namespace FileStore

/-- Files written one after the other, each of them completely. -/
inductive Writes : FileStore → List Target → FileStore → Prop where
  | nil (store : FileStore) : Writes store [] store
  | cons {store next store' : FileStore} {target : Target} {targets : List Target}
      (hfirst : store.writeTarget target = .ok next) (hrest : Writes next targets store') :
      Writes store (target :: targets) store'

variable {store store' : FileStore} {target : Target} {targets : List Target} {e : OutputError}

theorem writeTarget_eq_ok_iff : store.writeTarget target = .ok store' ↔
    ∃ output, target.output = .ok output ∧ store.write target.path output.toBytes = .ok store' := by
  rw [writeTarget, bind_eq_ok_iff]
  simp only [mapError_eq_ok_iff]

theorem Writes.changesOnly (h : Writes store targets store') : ChangesOnly store (targets.map (·.path)) store' := by
  induction h with
  | nil store => exact .refl store []
  | cons hfirst _ ih =>
    obtain ⟨output, -, hwrite⟩ := writeTarget_eq_ok_iff.mp hfirst
    exact (changesOnly_write hwrite).trans ih

/-- Files are written up to the first that cannot be, which leaves everything as it is. -/
theorem exists_writes (store : FileStore) (targets : List Target) :
    ∃ n ≤ targets.length, Writes store (targets.take n) (store.writeTargets targets).1 ∧
      ((store.writeTargets targets).2 = none → n = targets.length) ∧
      ∀ e, (store.writeTargets targets).2 = some e →
        ∃ target, targets[n]? = some target ∧ (store.writeTargets targets).1.writeTarget target = .error e := by
  induction targets generalizing store with
  | nil =>
    refine ⟨0, Nat.le_refl 0, .nil store, fun _ => rfl, fun e he => ?_⟩
    cases he
  | cons target targets ih =>
    rw [writeTargets]
    cases hwrite : store.writeTarget target with
    | error e =>
      refine ⟨0, Nat.zero_le _, .nil store, fun hnone => ?_, fun e' he => ?_⟩
      · cases hnone
      · cases he
        exact ⟨target, rfl, hwrite⟩
    | ok next =>
      obtain ⟨n, hn, hwrites, hall, hfails⟩ := ih next
      exact ⟨n + 1, Nat.succ_le_succ hn, .cons hwrite hwrites, fun hnone => congrArg (· + 1) (hall hnone), hfails⟩

/-- Whether or not all of them can be written, nothing changes but the files that are to be written. -/
theorem changesOnly_writeTargets (store : FileStore) (targets : List Target) :
    ChangesOnly store (targets.map (·.path)) (store.writeTargets targets).1 := by
  obtain ⟨n, -, hwrites, -⟩ := exists_writes store targets
  refine hwrites.changesOnly.mono ?_
  rw [List.map_take]
  exact List.take_subset n _

end FileStore

namespace Result

variable {store store' : FileStore} {path : Path} {options : SaveOptions} {result : Result} {e : OutputError}

/-- The paths of the files that a result is stored in: one, or one for each part of a tuple. -/
def files (result : Result) (path : Path) (options : SaveOptions) : List Path :=
  match result with
  | .value _ => [path]
  | .tuple items =>
    if options.components then (List.range items.length).map (path.component options.output.format) else [path]

theorem map_path_targets (result : Result) (path : Path) (options : SaveOptions) :
    (result.targets path options).map (·.path) = result.files path options := by
  cases result with
  | value v => rfl
  | tuple items =>
    rw [targets, files]
    split
    · exact List.ext_getElem (by simp) (by simp)
    · rfl

theorem changesOnly_save (result : Result) (store : FileStore) (path : Path) (options : SaveOptions) :
    store.ChangesOnly (result.files path options) (result.save store path options).1 := by
  have hchanges := FileStore.changesOnly_writeTargets store (result.targets path options)
  rwa [map_path_targets] at hchanges

end Result

end ArrayCalc
