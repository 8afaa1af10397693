import ArrayCalc.Proofs.Files.Path
import ArrayCalc.Proofs.Files.Store

namespace ArrayCalc

namespace Path

/-- A piece of a path that leads to an entry of the directory before it. -/
structure Descends (piece : List Char) : Prop where
  ne_nil : piece ≠ []
  ne_point : piece ≠ ['.']
  ne_parent : piece ≠ ['.', '.']
  noSlash : '/' ∉ piece

variable {front : Path} {piece : List Char}

theorem getLast?_components (hfront : IsFront front) (hslash : '/' ∉ piece) :
    (components (front ++ piece)).getLast? = some piece := by
  obtain rfl | ⟨dir, rfl⟩ := hfront
  · rw [List.nil_append, components, List.splitOn_eq_singleton hslash]
    rfl
  · rw [List.append_assoc, List.singleton_append, components, List.splitOn_append_cons_self,
      List.splitOn_eq_singleton hslash, List.getLast?_concat]

end Path

namespace FileStore

variable {store store' : FileStore} {path other front : Path} {paths : List Path} {location here : Location}
  {piece piece' : List Char} {bytes : List UInt8}

/-- In every store, the paths lead to different places. -/
def Apart (path other : Path) : Prop :=
  ∀ (store : FileStore) (location : Location), store.locate path = .ok location → store.locate other ≠ .ok location

theorem next_of_descends (hpiece : Path.Descends piece) (here : Location) : next here piece = here ++ [piece] := by
  rw [next, if_neg (not_or.mpr ⟨hpiece.ne_nil, hpiece.ne_point⟩), if_neg hpiece.ne_parent]

/-- A way whose last piece leads down ends at that piece. -/
theorem getLast?_of_walk {pieces : List (List Char)} (hpiece : Path.Descends piece) (hlast : pieces.getLast? = some piece)
    (h : store.walk path here pieces = .ok location) : location.getLast? = some piece := by
  induction pieces generalizing here with
  | nil => cases hlast
  | cons first pieces ih =>
    obtain ⟨-, hrest⟩ := walk_cons_eq_ok_iff.mp h
    cases pieces with
    | nil =>
      obtain rfl : first = piece := Option.some.inj hlast
      rw [walk, next_of_descends hpiece] at hrest
      cases hrest
      exact List.getLast?_concat
    | cons second pieces =>
      rw [List.getLast?_cons_cons] at hlast
      exact ih hlast hrest

theorem getLast?_of_locate (hfront : Path.IsFront front) (hpiece : Path.Descends piece)
    (h : store.locate (front ++ piece) = .ok location) : location.getLast? = some piece := by
  unfold locate at h
  split at h
  · cases h
  · next rest hpath =>
    -- the front of an absolute path has the slash that it begins with
    obtain ⟨front', hfront', rfl⟩ : ∃ front', Path.IsFront front' ∧ rest = front' ++ piece := by
      obtain rfl | ⟨dir, rfl⟩ := hfront
      · rw [List.nil_append] at hpath
        exact absurd (hpath ▸ List.mem_cons_self) hpiece.noSlash
      · cases dir with
        | nil => exact ⟨[], .inl rfl, (List.cons.inj hpath).2.symm⟩
        | cons c dir => exact ⟨dir ++ ['/'], .inr ⟨dir, rfl⟩, (List.cons.inj hpath).2.symm⟩
    exact getLast?_of_walk hpiece (Path.getLast?_components hfront' hpiece.noSlash) h
  · exact getLast?_of_walk hpiece (Path.getLast?_components hfront hpiece.noSlash) h

/-- Different names in one directory are different places. -/
theorem apart_of_ne (hfront : Path.IsFront front) (hpiece : Path.Descends piece) (hpiece' : Path.Descends piece')
    (hne : piece ≠ piece') : Apart (front ++ piece) (front ++ piece') := by
  intro store location h h'
  have hlast := getLast?_of_locate hfront hpiece h
  rw [getLast?_of_locate hfront hpiece' h'] at hlast
  exact hne (Option.some.inj hlast).symm

theorem read_eq_ok_iff : store.read path = .ok bytes ↔
    ∃ location, store.locate path = .ok location ∧ store.entry? location = some (.file bytes) := by
  rw [read, bind_eq_ok_iff]
  refine exists_congr fun location => and_congr_right fun _ => ?_
  cases hentry : store.entry? location with
  | none => simp
  | some entry => cases entry <;> simp

theorem read_of_write (h : store.write path bytes = .ok store') : store'.read path = .ok bytes := by
  obtain ⟨location, hlocation, hentry, rfl⟩ := exists_of_write h
  have hne : location ≠ [] := by
    rintro rfl
    exact hentry rfl
  refine read_eq_ok_iff.mpr ⟨location, (locate_congr (changesOnly_write h).directories).mpr hlocation, ?_⟩
  rw [entry_put hne, if_pos rfl]

/-- A file is read as before when others are written. -/
theorem ChangesOnly.read_eq_ok (h : store.ChangesOnly paths store') (hapart : ∀ other ∈ paths, Apart path other)
    (hread : store.read path = .ok bytes) : store'.read path = .ok bytes := by
  obtain ⟨location, hlocation, hentry⟩ := read_eq_ok_iff.mp hread
  refine read_eq_ok_iff.mpr ⟨location, (locate_congr h.directories).mpr hlocation, ?_⟩
  rw [h.elsewhere location fun other hother => hapart other hother store location hlocation, hentry]

end FileStore

end ArrayCalc
