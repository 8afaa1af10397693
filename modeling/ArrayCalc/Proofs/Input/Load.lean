import ArrayCalc.Input.Load
import ArrayCalc.Proofs.Except

namespace ArrayCalc

section

variable {store : FileStore} {path : Path} {name : String}

theorem isLetter_eq_true_iff {cs : List Char} : Token.isLetter cs = true ↔ ∃ c, cs = [c] ∧ 'A' ≤ c ∧ c ≤ 'Z' := by
  unfold Token.isLetter
  split
  · simp [Lexer.isUpper]
  · next hcs =>
    refine ⟨nofun, ?_⟩
    rintro ⟨c, rfl, -⟩
    exact absurd rfl (hcs c)

theorem placeholderOf_eq_ok_iff : placeholderOf store path = .ok name ↔
    store.exists? path = true ∧ arrayExtension <:+ path ∧ ∃ c, path.stem = [c] ∧ ('A' ≤ c ∧ c ≤ 'Z') ∧
      name = String.singleton c := by
  rw [placeholderOf]
  split
  · next hmissing => simp [hmissing]
  · next hpresent =>
    rw [Bool.not_eq_false] at hpresent
    split
    · next hextension => simp [← List.isSuffixOf_iff_suffix, hextension]
    · next hextension =>
      rw [Bool.not_eq_false, List.isSuffixOf_iff_suffix] at hextension
      split
      · next hletter =>
        obtain ⟨c, hstem, hcapital⟩ := isLetter_eq_true_iff.mp hletter
        rw [hstem]
        constructor
        · rintro ⟨⟩
          exact ⟨hpresent, hextension, c, rfl, hcapital, rfl⟩
        · rintro ⟨-, -, d, hd, -, rfl⟩
          rw [hd]
          rfl
      · next hletter =>
        refine ⟨nofun, ?_⟩
        rintro ⟨-, -, c, hstem, hcapital, -⟩
        exact absurd (isLetter_eq_true_iff.mpr ⟨c, hstem, hcapital⟩) hletter

theorem readArray_eq_ok_iff {t : Tensor Float} : readArray store path = .ok t ↔
    ∃ bytes, store.read path = .ok bytes ∧ Npy.read bytes = .ok t := by
  rw [readArray, bind_eq_ok_iff]
  simp only [mapError_eq_ok_iff]

theorem singleton_inj {c d : Char} (h : String.singleton c = String.singleton d) : c = d := by
  simpa using congrArg String.toList h

/-- The name that a file is bound under is a letter, and the file is called after it. -/
theorem exists_letter_of_placeholderOf (h : placeholderOf store path = .ok name) :
    ∃ c, path.stem = [c] ∧ name = String.singleton c := by
  obtain ⟨-, -, c, hstem, -, hname⟩ := placeholderOf_eq_ok_iff.mp h
  exact ⟨c, hstem, hname⟩

end

theorem stem_of_reservedName {path : Path} (h : path.fileName = reservedName) : path.stem = "pipe".toList := by
  rw [Path.stem, h]
  decide

namespace Environment

theorem singleton_ne_pipeName (c : Char) : String.singleton c ≠ pipeName := by
  intro h
  have hlength := congrArg String.length h
  have hfour : pipeName.length = 4 := by decide
  rw [String.length_singleton, hfour] at hlength
  contradiction

theorem singleton_ne_pipeLetter {c : Char} (hc : c ≠ 'P') : String.singleton c ≠ pipeLetter := by
  intro h
  have hlist := congrArg String.toList h
  simp [pipeLetter] at hlist
  exact hc hlist

theorem bind_ok_iff {store : FileStore} {env env' : Environment} {path : Path} :
    env.bind store path = .ok env' ↔
      ∃ name t, placeholderOf store path = .ok name ∧ readArray store path = .ok t ∧ env.insert name t = env' := by
  rw [Environment.bind, bind_eq_ok_iff]
  constructor
  · rintro ⟨name, hname, h⟩
    obtain ⟨t, ht, h⟩ := bind_eq_ok_iff.mp h
    cases h
    exact ⟨name, t, hname, ht, rfl⟩
  · rintro ⟨name, t, hname, ht, rfl⟩
    exact ⟨name, hname, bind_eq_ok_iff.mpr ⟨t, ht, rfl⟩⟩

/-- Two environments that differ in nothing but piped data; the second has what is given, if anything. -/
def PipedInto (env env' : Environment) (piped : Option (Tensor Float)) : Prop :=
  env'.find? pipeName = piped ∧ ∀ name, name ≠ pipeName → env'.find? name = env.find? name

theorem PipedInto.insert {env env' : Environment} {piped : Option (Tensor Float)} (h : env.PipedInto env' piped)
    {name : String} (hname : name ≠ pipeName) (t : Tensor Float) :
    (env.insert name t).PipedInto (env'.insert name t) piped := by
  refine ⟨?_, fun other hother => ?_⟩
  · rw [find?_insert, if_neg hname.symm]
    exact h.1
  · rw [find?_insert, find?_insert, h.2 other hother]

/-- No file takes the place of piped data. -/
theorem exists_foldlM_bind {store : FileStore} {piped : Option (Tensor Float)} {paths : List Path} :
    ∀ {start start' env : Environment}, start.PipedInto start' piped →
      paths.foldlM (Environment.bind store) start = .ok env →
        ∃ env', paths.foldlM (Environment.bind store) start' = .ok env' ∧ env.PipedInto env' piped := by
  induction paths with
  | nil =>
    intro start start' env hstart h
    cases h
    exact ⟨start', rfl, hstart⟩
  | cons path paths ih =>
    intro start start' env hstart h
    rw [List.foldlM_cons, bind_eq_ok_iff] at h
    obtain ⟨middle, hmiddle, h⟩ := h
    obtain ⟨name, t, hname, ht, rfl⟩ := bind_ok_iff.mp hmiddle
    obtain ⟨c, -, rfl⟩ := exists_letter_of_placeholderOf hname
    obtain ⟨env', hrest, henv'⟩ := ih (hstart.insert (singleton_ne_pipeName c) t) h
    refine ⟨env', ?_, henv'⟩
    rw [List.foldlM_cons, bind_ok_iff.mpr ⟨_, t, hname, ht, rfl⟩]
    exact hrest

theorem load_eq_ok_iff {store : FileStore} {piped : Option (Tensor Float)} {paths : List Path} {env : Environment} :
    load store piped paths = .ok env ↔
      (∀ path ∈ paths, path.fileName ≠ reservedName) ∧
        paths.foldlM (Environment.bind store) ⟨(piped.map (pipeName, ·)).toList⟩ = .ok env := by
  have hany : (paths.any fun path => path.fileName = reservedName) = true ↔
      ¬ ∀ path ∈ paths, path.fileName ≠ reservedName := by
    simp
  rw [load]
  by_cases h : (paths.any fun path => path.fileName = reservedName) = true
  · rw [if_pos h]
    exact ⟨nofun, fun hall => absurd hall.1 (hany.mp h)⟩
  · rw [if_neg h]
    have hall := Decidable.not_not.mp (mt hany.mpr h)
    exact ⟨fun hfold => ⟨hall, hfold⟩, fun hfold => hfold.2⟩

theorem find?_start (piped : Option (Tensor Float)) (name : String) :
    find? ⟨(piped.map (pipeName, ·)).toList⟩ name = if name = pipeName then piped else none := by
  cases piped with
  | none => simp [find?]
  | some t =>
    by_cases h : name = pipeName
    · simp [find?, h]
    · have hother : (name == pipeName) = false := by simpa using h
      simp [find?, List.lookup_cons, h, hother]

/-- With other data piped in, or none, the same files give the same arrays. -/
theorem load_piped {store : FileStore} {piped : Option (Tensor Float)} {paths : List Path} {env : Environment}
    (h : load store piped paths = .ok env) (piped' : Option (Tensor Float)) :
    ∃ env', load store piped' paths = .ok env' ∧ env.PipedInto env' piped' := by
  obtain ⟨hreserved, hfold⟩ := load_eq_ok_iff.mp h
  have hstart : PipedInto ⟨(piped.map (pipeName, ·)).toList⟩ ⟨(piped'.map (pipeName, ·)).toList⟩ piped' := by
    refine ⟨?_, fun name hname => ?_⟩
    · rw [find?_start, if_pos rfl]
    · rw [find?_start, find?_start, if_neg hname, if_neg hname]
  obtain ⟨env', hfold', henv'⟩ := exists_foldlM_bind hstart hfold
  exact ⟨env', load_eq_ok_iff.mpr ⟨hreserved, hfold'⟩, henv'⟩

/-- Nothing but piped data is bound to its name. -/
theorem find?_pipeName_of_load {store : FileStore} {piped : Option (Tensor Float)} {paths : List Path}
    {env : Environment} (h : load store piped paths = .ok env) : env.find? pipeName = piped := by
  obtain ⟨env', hload, hpiped⟩ := load_piped h piped
  rw [h] at hload
  cases hload
  exact hpiped.1

/-- One more file takes its letter from the files before it. -/
theorem load_append {store : FileStore} {piped : Option (Tensor Float)} {paths : List Path} {env : Environment}
    (h : load store piped paths = .ok env) {path : Path} {name : String} {t : Tensor Float}
    (hname : placeholderOf store path = .ok name) (hread : readArray store path = .ok t) :
    load store piped (paths ++ [path]) = .ok (env.insert name t) := by
  obtain ⟨hreserved, hfold⟩ := load_eq_ok_iff.mp h
  refine load_eq_ok_iff.mpr ⟨fun other hother => ?_, ?_⟩
  · rcases List.mem_append.mp hother with hother | hother
    · exact hreserved other hother
    · rw [List.mem_singleton.mp hother]
      intro hpipe
      obtain ⟨c, hstem, -⟩ := exists_letter_of_placeholderOf hname
      rw [stem_of_reservedName hpipe] at hstem
      cases hstem
  · rw [List.foldlM_append, hfold]
    have hbind : env.bind store path = .ok (env.insert name t) := bind_ok_iff.mpr ⟨name, t, hname, hread, rfl⟩
    exact bind_eq_ok_iff.mpr ⟨env, rfl, bind_eq_ok_iff.mpr ⟨_, hbind, rfl⟩⟩

end Environment

end ArrayCalc
