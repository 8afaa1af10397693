import ArrayCalc.Proofs.Files.Location
import ArrayCalc.Proofs.Npy.RoundTrip
import ArrayCalc.Proofs.Output.Save

namespace ArrayCalc

namespace FileStore

variable {store store' : FileStore} {targets : List Target}

/-- After writing files in different places, each of them has its own contents. -/
theorem Writes.read (h : Writes store targets store') (hapart : (targets.map (·.path)).Pairwise Apart) :
    ∀ target ∈ targets, ∃ output, target.output = .ok output ∧ store'.read target.path = .ok output.toBytes := by
  induction h with
  | nil => nofun
  | @cons store next store' first targets hfirst hrest ih =>
    rw [List.map_cons, List.pairwise_cons] at hapart
    refine List.forall_mem_cons.mpr ⟨?_, ih hapart.2⟩
    obtain ⟨output, houtput, hwrite⟩ := writeTarget_eq_ok_iff.mp hfirst
    exact ⟨output, houtput, hrest.changesOnly.read_eq_ok hapart.1 (read_of_write hwrite)⟩

end FileStore

namespace Path

variable {path : Path} {format : OutputFormat} {stem ext : List Char}

/-- What the names of component files end in: the extension of the path, or one for the format where it has none. -/
def suffix (format : OutputFormat) (ext : List Char) : List Char :=
  if ext ≠ [] then ext else if format = .npy then ".npy".toList else ".txt".toList

/-- The last piece of the path of a component. -/
def numbered (format : OutputFormat) (stem ext : List Char) (i : Nat) : List Char :=
  stem ++ '_' :: Number.digits i ++ suffix format ext

theorem exists_division (h : path.getLast? ≠ some '/') (format : OutputFormat) :
    ∃ front stem ext, IsFront front ∧ '/' ∉ stem ++ ext ∧ Divides stem ext ∧ path = front ++ stem ++ ext ∧
      ∀ i, path.component format i = front ++ numbered format stem ext i := by
  obtain ⟨front, hfront, hpath, hslash⟩ := exists_front_of_getLast? h
  have hname := splitName_append path.fileName
  have hdivides := divides_splitName path.fileName
  generalize hstem : (splitName path.fileName).1 = stem at hname hdivides
  generalize hext : (splitName path.fileName).2 = ext at hname hdivides
  have hwhole : path = front ++ stem ++ ext := by
    rw [List.append_assoc, hname, ← hpath]
  refine ⟨front, stem, ext, hfront, by rwa [hname], hdivides, hwhole, fun i => ?_⟩
  have hbase : path.take (path.length - ext.length) = front ++ stem := by
    rw [hwhole, List.length_append, Nat.add_sub_cancel, List.take_left]
  rw [component, componentParts, splitExtension, extension, hext, hbase, numbered, suffix]
  simp only [List.append_assoc]

theorem slash_notMem_suffix (h : '/' ∉ ext) (format : OutputFormat) : '/' ∉ suffix format ext := by
  rw [suffix]
  split
  · exact h
  · split <;> decide

theorem descends_numbered (h : '/' ∉ stem ++ ext) (format : OutputFormat) (i : Nat) :
    Descends (numbered format stem ext i) := by
  rw [List.mem_append, not_or] at h
  have hmark : '_' ∈ numbered format stem ext i := by
    simp [numbered]
  have hdigits : '/' ∉ Number.digits i := fun hmem => absurd (Number.allDigits_digits i '/' hmem) (by decide)
  refine ⟨List.ne_nil_of_mem hmark, ?_, ?_, ?_⟩
  · intro hpoint
    rw [hpoint] at hmark
    exact absurd hmark (by decide)
  · intro hparent
    rw [hparent] at hmark
    exact absurd hmark (by decide)
  · simp [numbered, h.1, hdigits, slash_notMem_suffix h.2]

theorem numbered_inj {i j : Nat} (h : numbered format stem ext i = numbered format stem ext j) : i = j := by
  have hdigits : Number.digits i = Number.digits j := by
    simpa [numbered] using h
  rw [← Number.ofDigits_digits i, hdigits, Number.ofDigits_digits]

theorem length_lt_numbered (format : OutputFormat) (stem ext : List Char) (i : Nat) :
    (stem ++ ext).length < (numbered format stem ext i).length := by
  have hext : ext.length ≤ (suffix format ext).length := by
    rw [suffix]
    split
    · exact Nat.le_refl _
    · next hnone =>
      rw [Decidable.not_not.mp hnone]
      exact Nat.zero_le _
  simp only [numbered, List.length_append, List.length_cons]
  omega

/-- Whatever the path, the names of the component files stand behind one front. -/
theorem exists_numbered (path : Path) (format : OutputFormat) :
    ∃ front stem ext, IsFront front ∧ '/' ∉ stem ++ ext ∧
      ∀ i, path.component format i = front ++ numbered format stem ext i := by
  have hext : '/' ∉ path.extension := by
    obtain ⟨-, -, -, -, hslash⟩ := exists_front path
    rw [← splitName_append path.fileName, List.mem_append, not_or] at hslash
    exact hslash.2
  obtain ⟨front, stem, hfront, hbase, hstem⟩ : ∃ front stem, IsFront front ∧
      path.splitExtension.1 = front ++ stem ∧ '/' ∉ stem := by
    by_cases hslash : '/' ∈ path.splitExtension.1
    · obtain ⟨dir, stem, hbase, hstem⟩ := exists_last_of_mem hslash
      exact ⟨dir ++ ['/'], stem, .inr ⟨dir, rfl⟩, by simp [hbase], hstem⟩
    · exact ⟨[], _, .inl rfl, rfl, hslash⟩
  refine ⟨front, stem, path.extension, hfront, by simp [hstem, hext], fun i => ?_⟩
  have hsuffix : path.componentParts format = (path.splitExtension.1, suffix format path.extension) := rfl
  rw [component, hsuffix, hbase, numbered]
  simp only [List.append_assoc]

/-- The files of the parts of a tuple are called differently and lie in different places. -/
theorem component_apart (path : Path) (format : OutputFormat) {i j : Nat} (hij : i ≠ j) :
    path.component format i ≠ path.component format j ∧
      FileStore.Apart (path.component format i) (path.component format j) := by
  obtain ⟨front, stem, ext, hfront, hslash, hcomponent⟩ := exists_numbered path format
  have hne : numbered format stem ext i ≠ numbered format stem ext j := fun hsame => hij (numbered_inj hsame)
  rw [hcomponent, hcomponent]
  exact ⟨fun hsame => hne (List.append_cancel_left hsame),
    FileStore.apart_of_ne hfront (descends_numbered hslash format i) (descends_numbered hslash format j) hne⟩

/-- No path is that of one of its own parts. -/
theorem component_ne (h : path.getLast? ≠ some '/') (format : OutputFormat) (i : Nat) :
    path.component format i ≠ path := by
  obtain ⟨front, stem, ext, -, -, -, hpath, hcomponent⟩ := exists_division h format
  intro hself
  rw [hcomponent, hpath, List.append_assoc] at hself
  have hlength := length_lt_numbered format stem ext i
  rw [List.append_cancel_left hself] at hlength
  exact Nat.lt_irrefl _ hlength

end Path

namespace Result

variable {store store' : FileStore} {path : Path} {options : SaveOptions} {items : List Value}

/-- The file for the part of a tuple at a given place. -/
def componentTarget (path : Path) (options : OutputOptions) (i : Nat) (v : Value) : Target :=
  ⟨path.component options.format i, v.componentOutput options⟩

theorem targets_tuple (hcomponents : options.components = true) (items : List Value) (path : Path) :
    (Result.tuple items).targets path options = items.mapIdx (componentTarget path options.output) := by
  rw [targets, if_pos hcomponents]
  rfl

/-- What is written for an array in the format of array files is read as this array, with small elements cut to zero. -/
theorem read_componentOutput {t : Tensor Float} {options : OutputOptions} {output : Output} (hformat : options.format = .npy)
    (ht : t.Writable) (h : (Value.array t).componentOutput options = .ok output) :
    Npy.read output.toBytes = .ok (t.map (applyThreshold options.threshold)) := by
  rw [Value.componentOutput, Value.fileOutput, hformat] at h
  simp only [Result.render, hformat] at h
  cases h
  exact Npy.read_write (ht.map _)

/-- The first parts of a tuple have been stored in their order, each of them in its file, and nothing else has been
    changed. -/
structure StoredUpTo (items : List Value) (path : Path) (options : OutputOptions) (n : Nat) (store store' : FileStore) :
    Prop where
  order : store.Writes ((items.take n).mapIdx (componentTarget path options)) store'
  contents : ∀ i v, (items.take n)[i]? = some v → ∃ output, v.componentOutput options = .ok output ∧
    store'.read (path.component options.format i) = .ok output.toBytes
  arrays : ∀ i t, (items.take n)[i]? = some (.array t) → options.format = .npy → t.Writable → ∃ bytes,
    store'.read (path.component options.format i) = .ok bytes ∧
      Npy.read bytes = .ok (t.map (applyThreshold options.threshold))
  elsewhere : store.ChangesOnly ((List.range (items.take n).length).map (path.component options.format)) store'

theorem take_mapIdx {α β : Type} (f : Nat → α → β) (xs : List α) (n : Nat) :
    (xs.mapIdx f).take n = (xs.take n).mapIdx f := by
  apply List.ext_getElem?
  intro i
  rw [List.getElem?_take, List.getElem?_mapIdx, List.getElem?_mapIdx, List.getElem?_take]
  split <;> rfl

theorem map_path_componentTarget (items : List Value) (path : Path) (options : OutputOptions) :
    (items.mapIdx (componentTarget path options)).map (·.path) =
      (List.range items.length).map (path.component options.format) :=
  List.ext_getElem (by simp) (by simp [componentTarget])

theorem pairwise_apart_componentTarget (items : List Value) (path : Path) (options : OutputOptions) :
    ((items.mapIdx (componentTarget path options)).map (·.path)).Pairwise FileStore.Apart := by
  rw [map_path_componentTarget, List.pairwise_map]
  exact List.pairwise_lt_range.imp fun hlt => (Path.component_apart path options.format (Nat.ne_of_lt hlt)).2

/-- The files that a result is stored in lie in different places. -/
theorem pairwise_apart_targets (result : Result) (path : Path) (options : SaveOptions) :
    ((result.targets path options).map (·.path)).Pairwise FileStore.Apart := by
  cases result with
  | value v => exact List.pairwise_singleton _ _
  | tuple items =>
    by_cases hcomponents : options.components = true
    · rw [targets_tuple hcomponents]
      exact pairwise_apart_componentTarget items path options.output
    · rw [targets, if_neg hcomponents]
      exact List.pairwise_singleton _ _

/-- Once a result is stored, each of its files holds what was to be written there. -/
theorem read_of_save {result : Result} (h : result.save store path options = (store', none)) :
    ∀ target ∈ result.targets path options, ∃ output, target.output = .ok output ∧
      store'.read target.path = .ok output.toBytes := by
  rw [save] at h
  obtain ⟨n, -, hwrites, hall, -⟩ := FileStore.exists_writes store (result.targets path options)
  rw [h] at hwrites hall
  rw [hall rfl, List.take_length] at hwrites
  exact hwrites.read (pairwise_apart_targets result path options)

theorem storedUpTo_of_writes {options : OutputOptions} {n : Nat}
    (h : store.Writes ((items.take n).mapIdx (componentTarget path options)) store') :
    StoredUpTo items path options n store store' := by
  have hchanges := h.changesOnly
  rw [map_path_componentTarget] at hchanges
  have hcontents : ∀ i v, (items.take n)[i]? = some v → ∃ output, v.componentOutput options = .ok output ∧
      store'.read (path.component options.format i) = .ok output.toBytes := by
    intro i v hv
    have hmem : componentTarget path options i v ∈ (items.take n).mapIdx (componentTarget path options) := by
      rw [List.mem_iff_getElem?]
      exact ⟨i, by rw [List.getElem?_mapIdx, hv]; rfl⟩
    exact h.read (pairwise_apart_componentTarget _ path options) _ hmem
  refine ⟨h, hcontents, fun i t ht hformat hwritable => ?_, hchanges⟩
  obtain ⟨output, houtput, hread⟩ := hcontents i _ ht
  exact ⟨output.toBytes, hread, read_componentOutput hformat hwritable houtput⟩

/-- The parts of a tuple are stored in files that are called after the path and the places of the parts, one after the
    other and nothing else, up to the first that cannot be. The names differ from each other and from the path, and so
    do their places. -/
theorem save_components (hpath : path.getLast? ≠ some '/') (hcomponents : options.components = true) (items : List Value)
    (store : FileStore) :
    (∃ front stem ext, Path.IsFront front ∧ '/' ∉ stem ++ ext ∧ Path.Divides stem ext ∧ path = front ++ stem ++ ext ∧
        ∀ i, path.component options.output.format i =
          front ++ (stem ++ '_' :: Number.digits i ++ Path.suffix options.output.format ext)) ∧
      ((∀ i j, i ≠ j → path.component options.output.format i ≠ path.component options.output.format j ∧
        FileStore.Apart (path.component options.output.format i) (path.component options.output.format j)) ∧
        ∀ i, path.component options.output.format i ≠ path) ∧
      ∃ n ≤ items.length, ∃ store' outcome, (Result.tuple items).save store path options = (store', outcome) ∧
        StoredUpTo items path options.output n store store' ∧ (outcome = none → n = items.length) ∧
        ∀ e, outcome = some e → ∃ v, items[n]? = some v ∧
          store'.writeTarget (componentTarget path options.output n v) = .error e := by
  refine ⟨Path.exists_division hpath options.output.format, ⟨fun i j => Path.component_apart path options.output.format,
    Path.component_ne hpath options.output.format⟩, ?_⟩
  have hsave : (Result.tuple items).save store path options =
      store.writeTargets (items.mapIdx (componentTarget path options.output)) := by
    rw [save, targets_tuple hcomponents]
  obtain ⟨n, hn, hwrites, hall, hfails⟩ :=
    FileStore.exists_writes store (items.mapIdx (componentTarget path options.output))
  rw [List.length_mapIdx] at hn hall
  rw [take_mapIdx] at hwrites
  refine ⟨n, hn, _, _, hsave, storedUpTo_of_writes hwrites, hall, fun e he => ?_⟩
  obtain ⟨target, htarget, herror⟩ := hfails e he
  rw [List.getElem?_mapIdx, Option.map_eq_some_iff] at htarget
  obtain ⟨v, hv, rfl⟩ := htarget
  exact ⟨v, hv, herror⟩

/-- A scalar and an array are stored in two files of one directory, and the array is read back. -/
theorem save_components_pair :
    let path : Path := "out.d/pair.npy".toList
    let store : FileStore := ⟨[(["out.d".toList], .directory)]⟩
    let options : SaveOptions := ⟨⟨.npy, 4, 0⟩, true⟩
    let row : Tensor Float := ⟨[2], #[1, 2]⟩
    path.getLast? ≠ some '/' ∧ options.components = true ∧ row.Writable ∧
      ∃ store' bytes, (Result.tuple [.scalar 2, .array row]).save store path options = (store', none) ∧
        StoredUpTo [.scalar 2, .array row] path options.output 2 store store' ∧
        store'.read "out.d/pair_1.npy".toList = .ok bytes ∧ Npy.read bytes = .ok (row.map (applyThreshold 0)) := by
  intro path store options row
  have hpath : path.getLast? ≠ some '/' := by
    decide
  have hzero := Number.digits_of_lt (show 0 < 10 by omega)
  have hone := Number.digits_of_lt (show 1 < 10 by omega)
  have hfirst : path.component .npy 0 = "out.d/pair_0.npy".toList := by
    rw [Path.component, hzero]
    rfl
  have hsecond : path.component .npy 1 = "out.d/pair_1.npy".toList := by
    rw [Path.component, hone]
    rfl
  have hrow : row.Writable := by
    refine ⟨rfl, fun n hn => ?_, Npy.length_headerText_le ?_⟩
    · rw [List.mem_singleton.mp hn]
      exact Number.representable_of_lt (by omega)
    · have htwo := Number.digits_of_lt (show 2 < 10 by omega)
      simp [row, Shape.text, Shape.tupleText, Number.natText, htwo]
  have hsave : ∃ store', (Result.tuple [.scalar 2, .array row]).save store path options = (store', none) := by
    have htargets : (Result.tuple [.scalar 2, .array row]).targets path options =
        [⟨"out.d/pair_0.npy".toList, .ok (.text (Number.lossless 2))⟩,
          ⟨"out.d/pair_1.npy".toList, .ok (.binary (Npy.write (row.map (applyThreshold 0))))⟩] := by
      rw [← hfirst, ← hsecond]
      rfl
    rw [save, htargets]
    -- what is written has no part in whether it can be
    generalize Number.lossless 2 = text
    generalize Npy.write _ = bytes
    exact ⟨_, rfl⟩
  obtain ⟨store', hsave⟩ := hsave
  have hcomponents : options.components = true := rfl
  obtain ⟨n, -, _, outcome, hsame, hstored, hall, -⟩ :=
    (save_components hpath hcomponents [.scalar 2, .array row] store).2.2
  rw [hsave] at hsame
  cases hsame
  obtain rfl : n = 2 := hall rfl
  obtain ⟨bytes, hread, hbytes⟩ := hstored.arrays 1 row rfl rfl hrow
  rw [hsecond] at hread
  exact ⟨hpath, hcomponents, hrow, store', bytes, hsave, hstored, hread, hbytes⟩

end Result

end ArrayCalc
