import ArrayCalc.Eval.Value
import ArrayCalc.Files.Store
import ArrayCalc.Proofs.Except

namespace ArrayCalc.FileStore

variable {store store' store'' : FileStore} {path : Path} {paths : List Path} {location : Location} {bytes : List UInt8}

theorem entry_put (hne : location ≠ []) (store : FileStore) (entry : Entry) (other : Location) :
    FileStore.entry? (store.put location entry) other =
      if other = location then some entry else store.entry? other := by
  unfold FileStore.entry? put
  by_cases hroot : other = []
  · rw [if_pos hroot, if_pos hroot, if_neg (by rintro rfl; exact hne hroot)]
  · rw [if_neg hroot, if_neg hroot]
    by_cases h : other = location
    · simp [h]
    · have hother : (other == location) = false := by simpa using h
      rw [List.lookup_cons, hother, if_neg h]
      exact lookup_filter_ne h store.entries

/-- A file is written where its path leads to, in a place where no directory is. -/
theorem exists_of_write (h : store.write path bytes = .ok store') :
    ∃ location, store.locate path = .ok location ∧ store.entry? location ≠ some .directory ∧
      store' = store.put location (.file bytes) := by
  rw [write, bind_eq_ok_iff] at h
  obtain ⟨location, hlocation, h⟩ := h
  rw [mapError_eq_ok_iff] at hlocation
  split at h
  · cases h
  · next hplace =>
    rw [not_or, Decidable.not_not] at hplace
    obtain ⟨hbare, hentry⟩ := hplace
    cases h
    rw [hbare] at hlocation
    exact ⟨location, hlocation, hentry, rfl⟩

/-- The stores differ at most in the files that some paths of the first lead to. -/
structure ChangesOnly (store : FileStore) (paths : List Path) (store' : FileStore) : Prop where
  directories : ∀ location, store'.entry? location = some .directory ↔ store.entry? location = some .directory
  elsewhere : ∀ location, (∀ path ∈ paths, store.locate path ≠ .ok location) →
    store'.entry? location = store.entry? location

/-- Where a piece of a path leads from a directory. -/
def next (here : Location) (piece : List Char) : Location :=
  if piece = [] ∨ piece = ['.'] then here
  else if piece = ['.', '.'] then parent here
  else here ++ [piece]

theorem walk_cons_eq_ok_iff {here : Location} {piece : List Char} {pieces : List (List Char)} :
    store.walk path here (piece :: pieces) = .ok location ↔
      store.entry? here = some .directory ∧ store.walk path (next here piece) pieces = .ok location := by
  rw [walk]
  cases hentry : store.entry? here with
  | none => simp
  | some entry =>
    cases entry with
    | file bytes => simp
    | directory =>
      rw [next]
      by_cases hstay : piece = [] ∨ piece = ['.']
      · simp [hstay]
      · by_cases hup : piece = ['.', '.'] <;> simp [hstay, hup]

section

variable (h : ∀ location, store'.entry? location = some .directory ↔ store.entry? location = some .directory)

include h

/-- A path leads on only from directories. -/
theorem walk_congr {here : Location} {pieces : List (List Char)} :
    store'.walk path here pieces = .ok location ↔ store.walk path here pieces = .ok location := by
  induction pieces generalizing here with
  | nil => rw [walk, walk]
  | cons piece pieces ih => rw [walk_cons_eq_ok_iff, walk_cons_eq_ok_iff, h, ih]

theorem locate_congr : store'.locate path = .ok location ↔ store.locate path = .ok location := by
  unfold locate
  split
  · simp
  · exact walk_congr h
  · exact walk_congr h

end

theorem ChangesOnly.refl (store : FileStore) (paths : List Path) : ChangesOnly store paths store :=
  ⟨fun _ => Iff.rfl, fun _ _ => rfl⟩

theorem ChangesOnly.mono {more : List Path} (h : ChangesOnly store paths store') (hpaths : paths ⊆ more) :
    ChangesOnly store more store' :=
  ⟨h.directories, fun location hlocation => h.elsewhere location fun path hpath => hlocation path (hpaths hpath)⟩

theorem ChangesOnly.trans {more : List Path} (h : ChangesOnly store paths store') (h' : ChangesOnly store' more store'') :
    ChangesOnly store (paths ++ more) store'' := by
  refine ⟨fun location => (h'.directories location).trans (h.directories location), fun location hlocation => ?_⟩
  rw [List.forall_mem_append] at hlocation
  have hmore : ∀ path ∈ more, store'.locate path ≠ .ok location := fun path hpath hlocate =>
    hlocation.2 path hpath ((locate_congr h.directories).mp hlocate)
  rw [h'.elsewhere location hmore, h.elsewhere location hlocation.1]

theorem changesOnly_write (h : store.write path bytes = .ok store') : ChangesOnly store [path] store' := by
  obtain ⟨location, hlocation, hentry, rfl⟩ := exists_of_write h
  have hne : location ≠ [] := by
    rintro rfl
    exact hentry rfl
  refine ⟨fun other => ?_, fun other hother => ?_⟩
  · rw [entry_put hne]
    split
    · next heq =>
      rw [heq]
      exact ⟨nofun, fun hdirectory => absurd hdirectory hentry⟩
    · exact Iff.rfl
  · rw [entry_put hne, if_neg]
    rintro rfl
    exact hother path List.mem_cons_self hlocation

end ArrayCalc.FileStore
