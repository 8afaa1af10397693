import ArrayCalc.Proofs.Input.Load

namespace ArrayCalc

/-- What can be wrong with a path without a look into its file, and the error that says so. -/
inductive Refused (store : FileStore) (path : Path) : InputError → Prop where
  | reserved (h : path.fileName = reservedName) : Refused store path .reservedName
  | missing (h : store.exists? path = false) : Refused store path (.missing path)
  | extension (hexists : store.exists? path = true) (h : arrayExtension.isSuffixOf path = false) :
      Refused store path (.badExtension path)
  | name (hexists : store.exists? path = true) (hextension : arrayExtension.isSuffixOf path = true)
      (h : Token.isLetter path.stem = false) : Refused store path (.badName path)

/-- The codes of the errors that a path alone can give. -/
def refusalCodes : List String :=
  ["MC_LOAD_RESERVED_NAME", "MC_LOAD_NOT_FOUND", "MC_LOAD_BAD_EXTENSION", "MC_LOAD_BAD_NAME"]

/-- The path names a placeholder. -/
def accepted (store : FileStore) (path : Path) : Bool :=
  (placeholderOf store path).isOk

section

variable {store : FileStore} {path : Path} {e : InputError}

theorem Refused.code (h : Refused store path e) : ∃ code ∈ refusalCodes, e.code? = some code := by
  cases h <;> simp [refusalCodes, InputError.code?]

theorem accepted_eq_true_iff : accepted store path = true ↔ ∃ name, placeholderOf store path = .ok name := by
  rw [accepted]
  cases placeholderOf store path <;> simp [Except.isOk, Except.toBool]

theorem accepted_eq_false_iff : accepted store path = false ↔ ∃ e, placeholderOf store path = .error e := by
  rw [accepted]
  cases placeholderOf store path <;> simp [Except.isOk, Except.toBool]

theorem refused_of_placeholderOf (h : placeholderOf store path = .error e) : Refused store path e := by
  rw [placeholderOf] at h
  split at h
  · next hmissing =>
    cases h
    exact .missing hmissing
  · next hexists =>
    rw [Bool.not_eq_false] at hexists
    split at h
    · next hextension =>
      cases h
      exact .extension hexists hextension
    · next hextension =>
      rw [Bool.not_eq_false] at hextension
      split at h
      · cases h
      · next hletter =>
        cases h
        exact .name hexists hextension (by simpa using hletter)

/-- The reserved name is no letter, so it names no placeholder either. -/
theorem Refused.not_accepted (h : Refused store path e) : accepted store path = false := by
  rw [Bool.eq_false_iff]
  intro haccepted
  obtain ⟨name, hplaceholder⟩ := accepted_eq_true_iff.mp haccepted
  obtain ⟨hpresent, hsuffix, c, hstem, hcapital, -⟩ := placeholderOf_eq_ok_iff.mp hplaceholder
  cases h with
  | reserved hname =>
    rw [stem_of_reservedName hname] at hstem
    cases hstem
  | missing hmissing =>
    rw [hpresent] at hmissing
    cases hmissing
  | extension _ hextension =>
    rw [List.isSuffixOf_iff_suffix.mpr hsuffix] at hextension
    cases hextension
  | name _ _ hletter =>
    rw [isLetter_eq_true_iff.mpr ⟨c, hstem, hcapital⟩] at hletter
    cases hletter

/-- What is wrong with a file is another error than what is wrong with a path. -/
theorem not_refused_of_readArray (h : readArray store path = .error e) (store' : FileStore) (path' : Path) :
    ¬ Refused store' path' e := by
  rw [readArray, bind_eq_error_iff] at h
  intro hrefused
  rcases h with hread | ⟨bytes, -, hformat⟩
  · obtain ⟨cause, -, rfl⟩ := mapError_eq_error_iff.mp hread
    cases hrefused
  · obtain ⟨cause, -, rfl⟩ := mapError_eq_error_iff.mp hformat
    cases hrefused

theorem placeholderOf_congr {store' : FileStore} (h : store'.exists? path = store.exists? path) :
    placeholderOf store' path = placeholderOf store path := by
  rw [placeholderOf, placeholderOf, h]

end

namespace Environment

/-- A path whose file gives an array for its placeholder. -/
def Loads (store : FileStore) (path : Path) : Prop :=
  ∃ name t, placeholderOf store path = .ok name ∧ readArray store path = .ok t

/-- A path that is refused or whose file cannot be read. -/
def Fails (store : FileStore) (path : Path) (e : InputError) : Prop :=
  placeholderOf store path = .error e ∨ ∃ name, placeholderOf store path = .ok name ∧ readArray store path = .error e

/-- No file is looked into when a path has the reserved name. Otherwise every file in front of the first path that is
    refused can be read. -/
def ReadsToRefusal (store : FileStore) (paths : List Path) : Prop :=
  (∃ path ∈ paths, path.fileName = reservedName) ∨
    ∀ path ∈ paths.takeWhile (accepted store), ∃ t, readArray store path = .ok t

variable {store : FileStore} {path : Path} {paths before after : List Path} {env env' : Environment} {e : InputError}
  {piped : Option (Tensor Float)}

theorem bind_error_iff : env.bind store path = .error e ↔ Fails store path e := by
  rw [Environment.bind, bind_eq_error_iff, Fails]
  refine or_congr_right (exists_congr fun name => and_congr_right fun _ => ?_)
  rw [bind_eq_error_iff]
  refine ⟨fun h => h.resolve_right ?_, .inl⟩
  rintro ⟨t, -, h⟩
  cases h

theorem loads_of_foldlM (h : paths.foldlM (Environment.bind store) env = .ok env') : ∀ path ∈ paths, Loads store path := by
  induction paths generalizing env with
  | nil => nofun
  | cons path paths ih =>
    rw [List.foldlM_cons, bind_eq_ok_iff] at h
    obtain ⟨middle, hmiddle, h⟩ := h
    obtain ⟨name, t, hname, ht, -⟩ := bind_ok_iff.mp hmiddle
    exact List.forall_mem_cons.mpr ⟨⟨name, t, hname, ht⟩, ih h⟩

/-- The first path that fails decides the error, whatever has been bound before. -/
theorem foldlM_error_iff : paths.foldlM (Environment.bind store) env = .error e ↔
    ∃ before path after, paths = before ++ path :: after ∧ (∀ other ∈ before, Loads store other) ∧
      Fails store path e := by
  induction paths generalizing env with
  | nil =>
    constructor
    · nofun
    · rintro ⟨before, path, after, hsplit, -, -⟩
      simp at hsplit
  | cons first paths ih =>
    rw [List.foldlM_cons, bind_eq_error_iff, bind_error_iff]
    constructor
    · rintro (hfails | ⟨middle, hmiddle, hrest⟩)
      · exact ⟨[], first, paths, rfl, nofun, hfails⟩
      · obtain ⟨name, t, hname, ht, -⟩ := bind_ok_iff.mp hmiddle
        obtain ⟨before, path, after, rfl, hbefore, hfails⟩ := ih.mp hrest
        exact ⟨first :: before, path, after, rfl, List.forall_mem_cons.mpr ⟨⟨name, t, hname, ht⟩, hbefore⟩, hfails⟩
    · rintro ⟨before, path, after, hsplit, hbefore, hfails⟩
      cases before with
      | nil =>
        cases hsplit
        exact .inl hfails
      | cons other before =>
        cases hsplit
        obtain ⟨⟨name, t, hname, ht⟩, hbefore⟩ := List.forall_mem_cons.mp hbefore
        exact .inr ⟨env.insert name t, bind_ok_iff.mpr ⟨name, t, hname, ht, rfl⟩,
          ih.mpr ⟨before, path, after, rfl, hbefore, hfails⟩⟩

theorem takeWhile_accepted (hbefore : ∀ other ∈ before, accepted store other = true)
    (hpath : accepted store path = false) : (before ++ path :: after).takeWhile (accepted store) = before := by
  rw [List.takeWhile_append_of_pos hbefore, List.takeWhile_cons_of_neg (by simp [hpath]), List.append_nil]

theorem Loads.accepted (h : Loads store path) : accepted store path = true := by
  obtain ⟨name, -, hname, -⟩ := h
  exact accepted_eq_true_iff.mpr ⟨name, hname⟩

theorem load_eq_foldlM (h : ∀ path ∈ paths, path.fileName ≠ reservedName) (piped : Option (Tensor Float)) :
    load store piped paths = paths.foldlM (Environment.bind store) ⟨(piped.map (pipeName, ·)).toList⟩ := by
  rw [load, if_neg]
  simpa using h

theorem exists_first_refused (h : ∃ path ∈ paths, ∃ e, Refused store path e) :
    ∃ before path after e, paths = before ++ path :: after ∧ (∀ other ∈ before, accepted store other = true) ∧
      placeholderOf store path = .error e := by
  obtain ⟨path, hmem, e, hrefused⟩ := h
  have hfound : (paths.find? fun path => !accepted store path).isSome = true :=
    List.find?_isSome.mpr ⟨path, hmem, by simp [hrefused.not_accepted]⟩
  obtain ⟨first, hfirst⟩ := Option.isSome_iff_exists.mp hfound
  obtain ⟨hfirst, before, after, hsplit, hbefore⟩ := List.find?_eq_some_iff_append.mp hfirst
  obtain ⟨e, he⟩ := accepted_eq_false_iff.mp (by simpa using hfirst)
  exact ⟨before, first, after, e, hsplit, by simpa using hbefore, he⟩

/-- As long as the files in front of it can be read, the first refused path decides the error. Which path that is does
    not depend on what the files have in them. -/
theorem exists_refusal (h : ∃ path ∈ paths, ∃ e, Refused store path e) :
    ∃ e, (∃ path ∈ paths, Refused store path e) ∧
      ∀ store' piped', (∀ path ∈ paths, store'.exists? path = store.exists? path) → ReadsToRefusal store' paths →
        load store' piped' paths = .error e := by
  by_cases hreserved : ∃ path ∈ paths, path.fileName = reservedName
  · obtain ⟨path, hmem, hname⟩ := hreserved
    refine ⟨.reservedName, ⟨path, hmem, .reserved hname⟩, fun store' piped' _ _ => ?_⟩
    rw [load, if_pos]
    simpa using ⟨path, hmem, hname⟩
  · obtain ⟨before, path, after, e, rfl, hbefore, he⟩ := exists_first_refused h
    refine ⟨e, ⟨path, by simp, refused_of_placeholderOf he⟩, fun store' piped' hexists hreads => ?_⟩
    have hsame : ∀ other ∈ before ++ path :: after, placeholderOf store' other = placeholderOf store other :=
      fun other hother => placeholderOf_congr (hexists other hother)
    have he' : placeholderOf store' path = .error e := by rw [hsame path (by simp), he]
    have hbefore' : ∀ other ∈ before, accepted store' other = true := by
      intro other hother
      rw [accepted, hsame other (List.mem_append_left _ hother)]
      exact hbefore other hother
    have hloads : ∀ other ∈ before, Loads store' other := by
      intro other hother
      obtain ⟨name, hname⟩ := accepted_eq_true_iff.mp (hbefore' other hother)
      have hfiles := hreads.resolve_left hreserved
      rw [takeWhile_accepted hbefore' (accepted_eq_false_iff.mpr ⟨e, he'⟩)] at hfiles
      obtain ⟨t, ht⟩ := hfiles other hother
      exact ⟨name, t, hname, ht⟩
    rw [load_eq_foldlM fun other hother hname => hreserved ⟨other, hother, hname⟩]
    exact foldlM_error_iff.mpr ⟨before, path, after, rfl, hloads, .inl he'⟩

/-- An error that a path alone gives shows that the files in front of it were read. -/
theorem readsToRefusal_of_load (hload : load store piped paths = .error e) (h : ∃ path ∈ paths, Refused store path e) :
    ReadsToRefusal store paths := by
  by_cases hreserved : ∃ path ∈ paths, path.fileName = reservedName
  · exact .inl hreserved
  rw [load_eq_foldlM fun other hother hname => hreserved ⟨other, hother, hname⟩] at hload
  obtain ⟨before, path, after, rfl, hbefore, hfails⟩ := foldlM_error_iff.mp hload
  rcases hfails with hplaceholder | ⟨name, -, hread⟩
  · right
    rw [takeWhile_accepted (fun other hother => (hbefore other hother).accepted)
      (accepted_eq_false_iff.mpr ⟨e, hplaceholder⟩)]
    intro other hother
    obtain ⟨-, t, -, ht⟩ := hbefore other hother
    exact ⟨t, ht⟩
  · obtain ⟨other, -, hrefused⟩ := h
    exact absurd hrefused (not_refused_of_readArray hread store other)

theorem load_ne_ok (h : ∃ path ∈ paths, ∃ e, Refused store path e) : load store piped paths ≠ .ok env := by
  intro hload
  obtain ⟨path, hmem, e, hrefused⟩ := h
  have haccepted := (loads_of_foldlM (load_eq_ok_iff.mp hload).2 path hmem).accepted
  rw [hrefused.not_accepted] at haccepted
  contradiction

/-- Where a path is refused, loading fails. Exactly if every file in front of the first such path can be read, it fails
    for a refused path, and then in the same way whatever the files have in them. -/
theorem load_of_refused (h : ∃ path ∈ paths, ∃ e, Refused store path e) (piped : Option (Tensor Float)) :
    ∃ e, load store piped paths = .error e ∧
      ((∃ path ∈ paths, Refused store path e) ↔ ReadsToRefusal store paths) ∧
      (ReadsToRefusal store paths →
        (∃ code ∈ refusalCodes, e.code? = some code) ∧
          ∀ store' piped', (∀ path ∈ paths, store'.exists? path = store.exists? path) →
            ReadsToRefusal store' paths → load store' piped' paths = .error e) := by
  by_cases hreads : ReadsToRefusal store paths
  · obtain ⟨e, hrefused, hsame⟩ := exists_refusal h
    obtain ⟨path, -, he⟩ := id hrefused
    exact ⟨e, hsame store piped (fun _ _ => rfl) hreads, ⟨fun _ => hreads, fun _ => hrefused⟩, fun _ => ⟨he.code, hsame⟩⟩
  · cases hload : load store piped paths with
    | ok env => exact absurd hload (load_ne_ok h)
    | error e =>
      exact ⟨e, rfl, ⟨readsToRefusal_of_load hload, fun h => absurd h hreads⟩, fun h => absurd h hreads⟩

/-- A file with a single truth value in it. -/
def truthFile : List UInt8 :=
  let header := "\x7b'descr':'|b1','fortran_order':False,'shape':()\x7d".toList
  Npy.magic ++ [1, 0, 48, 0] ++ header.map (fun c => UInt8.ofNat c.toNat) ++ [1]

/-- A file is read, then a text file is refused; that the last file is missing does not show. -/
theorem load_of_refused_text :
    let store : FileStore := ⟨[(["A.npy".toList], .file truthFile), (["B.txt".toList], .file [])]⟩
    let paths := ["A.npy".toList, "B.txt".toList, "C.npy".toList]
    (∃ path ∈ paths, ∃ e, Refused store path e) ∧ ReadsToRefusal store paths ∧
      ∃ e, load store none paths = .error e ∧ ∃ path ∈ paths, Refused store path e := by
  intro store paths
  have hrefused : ∃ path ∈ paths, ∃ e, Refused store path e :=
    ⟨"B.txt".toList, by decide, _, .extension (by decide) (by decide)⟩
  have hreadable : (readArray store "A.npy".toList).isOk = true := by
    decide +kernel
  have hreads : ReadsToRefusal store paths := by
    have hfront : paths.takeWhile (accepted store) = ["A.npy".toList] := by decide
    right
    rw [hfront, List.forall_mem_singleton]
    cases hread : readArray store "A.npy".toList with
    | ok t => exact ⟨t, rfl⟩
    | error e =>
      rw [hread] at hreadable
      cases hreadable
  obtain ⟨e, hload, hrefusal, -⟩ := load_of_refused hrefused none
  exact ⟨hrefused, hreads, e, hload, hrefusal.mpr hreads⟩

/-- A file that is no array is complained of in front of a path that is refused. -/
theorem load_unreadable_first :
    let store : FileStore := ⟨[(["A.npy".toList], .file [120])]⟩
    let paths := ["A.npy".toList, "B.npy".toList]
    Refused store "B.npy".toList (.missing "B.npy".toList) ∧
      load store none paths = .error (.malformed "A.npy".toList (.format .badMagic)) ∧
      ∀ path, ¬ Refused store path (.malformed "A.npy".toList (.format .badMagic)) := by
  intro store paths
  exact ⟨.missing (by decide), rfl, nofun⟩

end Environment

end ArrayCalc
