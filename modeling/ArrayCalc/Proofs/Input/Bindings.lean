import ArrayCalc.Proofs.Files.Path
import ArrayCalc.Proofs.Input.Validation

namespace ArrayCalc

/-- A file that can be loaded for a letter: it is there, it is called after the letter and has the extension of array
    files, and it holds an array. -/
structure LetterFile (store : FileStore) (path : Path) (c : Char) (t : Tensor Float) : Prop where
  present : store.exists? path = true
  extension : arrayExtension <:+ path
  stem : path.stem = [c]
  capital : 'A' ≤ c ∧ c ≤ 'Z'
  contents : ∃ bytes, store.read path = .ok bytes ∧ Npy.read bytes = .ok t

section

variable {store : FileStore} {path : Path} {c : Char} {t : Tensor Float}

theorem letterFile_iff : LetterFile store path c t ↔
    placeholderOf store path = .ok (String.singleton c) ∧ readArray store path = .ok t := by
  rw [placeholderOf_eq_ok_iff, readArray_eq_ok_iff]
  constructor
  · intro h
    exact ⟨⟨h.present, h.extension, c, h.stem, h.capital, rfl⟩, h.contents⟩
  · rintro ⟨⟨hpresent, hextension, d, hstem, hcapital, hname⟩, hcontents⟩
    obtain rfl := singleton_inj hname
    exact ⟨hpresent, hextension, hstem, hcapital, hcontents⟩

theorem loads_iff : Environment.Loads store path ↔ ∃ c t, LetterFile store path c t := by
  constructor
  · rintro ⟨name, t, hname, ht⟩
    obtain ⟨c, -, rfl⟩ := exists_letter_of_placeholderOf hname
    exact ⟨c, t, letterFile_iff.mpr ⟨hname, ht⟩⟩
  · rintro ⟨c, t, h⟩
    obtain ⟨hname, ht⟩ := letterFile_iff.mp h
    exact ⟨_, t, hname, ht⟩

end

namespace Path

variable {path : Path} {c : Char}

theorem isSuffix_of_points {cs ds es : List Char} (hcs : '.' :: cs <:+ es) (hds : '.' :: ds <:+ es) (hnocs : '.' ∉ cs)
    (hnods : '.' ∉ ds) : cs = ds := by
  have hone {cs ds : List Char} (hnods : '.' ∉ ds) (h : '.' :: cs <:+ '.' :: ds) : cs = ds := by
    obtain heq | hsuffix := List.suffix_cons_iff.mp h
    · exact (List.cons.inj heq).2
    · exact absurd (hsuffix.subset List.mem_cons_self) hnods
  obtain h | h := List.suffix_or_suffix_of_suffix hcs hds
  · exact hone hnods h
  · exact (hone hnocs h).symm

/-- A path with the extension of array files and a letter as its stem ends in these two. -/
theorem letter_iff (hcapital : 'A' ≤ c ∧ c ≤ 'Z') :
    arrayExtension <:+ path ∧ path.stem = [c] ↔ ∃ front, IsFront front ∧ path = front ++ c :: arrayExtension := by
  have hextension : arrayExtension = '.' :: "npy".toList := rfl
  constructor
  · rintro ⟨hsuffix, hstem⟩
    have hlast : path.getLast? = some 'y' := by
      obtain ⟨before, rfl⟩ := hsuffix
      exact List.getLast?_append_of_ne_nil before (List.cons_ne_nil _ _)
    have hslash : path.getLast? ≠ some '/' := by
      rw [hlast]
      decide
    obtain ⟨front, hfront, hpath, -⟩ := exists_front_of_getLast? hslash
    have hname := splitName_append path.fileName
    have hdivides := divides_splitName path.fileName
    rw [stem] at hstem
    rw [hstem] at hname hdivides
    generalize (splitName path.fileName).2 = ext at hname hdivides
    rw [← hname] at hpath
    refine ⟨front, hfront, ?_⟩
    cases hdivides with
    | bare =>
      rw [hpath, List.append_nil, List.getLast?_concat, Option.some_inj] at hlast
      exact absurd (hlast ▸ hcapital.2) (by decide)
    | extended hne htail hparent =>
      rw [hextension] at hsuffix
      have hsame := isSuffix_of_points ⟨front ++ [c], by rw [hpath, List.append_assoc]⟩ hsuffix htail (by decide)
      rw [hpath, hsame, hextension]
      rfl
  · rintro ⟨front, hfront, rfl⟩
    have hslash : '/' ∉ c :: arrayExtension := by
      intro hmem
      obtain rfl | hmem := List.mem_cons.mp hmem
      · exact absurd hcapital.1 (by decide)
      · exact absurd hmem (by decide)
    have hname := fileName_append hfront (List.cons_ne_nil c arrayExtension) hslash 0
    rw [List.replicate_zero, List.append_nil] at hname
    refine ⟨⟨front ++ [c], by simp⟩, ?_⟩
    have hpoint : '.' ∉ "npy".toList := by
      decide
    have hsplit := splitName_point hpoint [c]
    rw [if_neg (by simp)] at hsplit
    rw [stem, hname]
    exact congrArg Prod.fst hsplit

end Path

namespace Environment

variable {store : FileStore} {piped : Option (Tensor Float)} {path : Path} {paths : List Path} {env env' : Environment}
  {name : String} {c : Char}

theorem exists_foldlM_of_loads (h : ∀ path ∈ paths, Loads store path) (env : Environment) :
    ∃ env', paths.foldlM (Environment.bind store) env = .ok env' := by
  cases hfold : paths.foldlM (Environment.bind store) env with
  | ok env' => exact ⟨env', rfl⟩
  | error e =>
    obtain ⟨before, path, after, rfl, -, hfails⟩ := foldlM_error_iff.mp hfold
    obtain ⟨name, t, hname, ht⟩ := h path (by simp)
    rw [Fails, hname, ht] at hfails
    obtain h | ⟨_, -, h⟩ := hfails <;> cases h

/-- Files leave the names alone that none of them is called after. -/
theorem find?_of_foldlM (h : paths.foldlM (Environment.bind store) env = .ok env')
    (hname : ∀ path ∈ paths, ∀ c, path.stem = [c] → name ≠ String.singleton c) : env'.find? name = env.find? name := by
  induction paths generalizing env with
  | nil =>
    cases h
    rfl
  | cons path paths ih =>
    rw [List.forall_mem_cons] at hname
    rw [List.foldlM_cons, bind_eq_ok_iff] at h
    obtain ⟨middle, hmiddle, h⟩ := h
    obtain ⟨other, t, hother, ht, rfl⟩ := bind_ok_iff.mp hmiddle
    obtain ⟨c, hstem, rfl⟩ := exists_letter_of_placeholderOf hother
    rw [ih h hname.2, find?_insert, if_neg (hname.1 c hstem)]

/-- The last file of a letter is the one that its placeholder stands for. -/
theorem find?_last_of_foldlM {before after : List Path}
    (h : (before ++ path :: after).foldlM (Environment.bind store) env = .ok env') (hstem : path.stem = [c])
    (hlater : ∀ later ∈ after, later.stem ≠ [c]) :
    ∃ t, LetterFile store path c t ∧ env'.find? (String.singleton c) = some t := by
  rw [List.foldlM_append, bind_eq_ok_iff] at h
  obtain ⟨middle, -, h⟩ := h
  rw [List.foldlM_cons, bind_eq_ok_iff] at h
  obtain ⟨bound, hbound, h⟩ := h
  obtain ⟨name, t, hname, ht, rfl⟩ := bind_ok_iff.mp hbound
  obtain ⟨d, hd, rfl⟩ := exists_letter_of_placeholderOf hname
  obtain rfl : d = c := by simpa [hd] using hstem
  refine ⟨t, letterFile_iff.mpr ⟨hname, ht⟩, ?_⟩
  rw [find?_of_foldlM h, find?_insert, if_pos rfl]
  intro later hmem c hlast hsame
  rw [← singleton_inj hsame] at hlast
  exact hlater later hmem hlast

theorem exists_load_iff : (∃ env, load store piped paths = .ok env) ↔
    ∀ path ∈ paths, path.fileName ≠ reservedName ∧ ∃ c t, LetterFile store path c t := by
  simp only [load_eq_ok_iff, exists_and_left, ← loads_iff, forall_and]
  refine and_congr_right fun _ => ⟨fun ⟨env, h⟩ => loads_of_foldlM h, fun h => exists_foldlM_of_loads h _⟩

theorem isSome_find?_iff (h : load store piped paths = .ok env) (hname : name ≠ pipeName) :
    (env.find? name).isSome ↔ ∃ path ∈ paths, ∃ c, path.stem = [c] ∧ name = String.singleton c := by
  have hfold := (load_eq_ok_iff.mp h).2
  constructor
  · intro hsome
    by_contra hnone
    simp only [not_exists, not_and] at hnone
    rw [find?_of_foldlM hfold hnone, find?_start, if_neg hname] at hsome
    contradiction
  · rintro ⟨path, hmem, c, hstem, rfl⟩
    obtain ⟨before, last, after, rfl, hlast, hafter⟩ := exists_last (p := (·.stem = [c])) ⟨path, hmem, hstem⟩
    obtain ⟨t, -, ht⟩ := find?_last_of_foldlM hfold hlast hafter
    rw [ht, Option.isSome_some]

/-- Loading succeeds exactly if no file has the reserved name, and each is there, is called after a letter with the
    extension of array files, and holds an array. Then the letters of the files are bound, each to the last of its
    files, and piped data has its name to itself. -/
theorem load_spec (store : FileStore) (piped : Option (Tensor Float)) (paths : List Path) :
    ((∃ env, load store piped paths = .ok env) ↔
      ∀ path ∈ paths, path.fileName ≠ reservedName ∧ ∃ c t, LetterFile store path c t) ∧
    (∀ env, load store piped paths = .ok env →
      env.find? pipeName = piped ∧
      (∀ name, name ≠ pipeName →
        ((env.find? name).isSome ↔ ∃ path ∈ paths, ∃ c, path.stem = [c] ∧ name = String.singleton c)) ∧
      ∀ before path after c, paths = before ++ path :: after → path.stem = [c] → (∀ later ∈ after, later.stem ≠ [c]) →
        ∃ t, LetterFile store path c t ∧ env.find? (String.singleton c) = some t) ∧
    ∀ path : Path,
      (path.fileName = reservedName ↔
        ∃ front n, Path.IsFront front ∧ path = front ++ reservedName ++ List.replicate n '/') ∧
      ∀ c, 'A' ≤ c ∧ c ≤ 'Z' → (arrayExtension <:+ path ∧ path.stem = [c] ↔
        ∃ front, Path.IsFront front ∧ path = front ++ c :: arrayExtension) := by
  refine ⟨exists_load_iff, fun env h => ⟨find?_pipeName_of_load h, fun name hname => isSome_find?_iff h hname, ?_⟩,
    fun path => ⟨Path.fileName_eq_iff (by decide) (by decide), fun c hc => Path.letter_iff hc⟩⟩
  rintro before path after c rfl hstem hlater
  exact find?_last_of_foldlM (load_eq_ok_iff.mp h).2 hstem hlater

/-- Of two files of one letter the second counts, and piped data stays beside them. -/
theorem load_spec_last :
    let store : FileStore := ⟨[(["A.npy".toList], .file truthFile), (["d".toList], .directory),
      (["d".toList, "A.npy".toList], .file (truthFile.dropLast ++ [0]))]⟩
    let paths : List Path := ["A.npy".toList, "d/A.npy".toList]
    let row : Tensor Float := ⟨[1], #[2]⟩
    ∃ env t, load store (some row) paths = .ok env ∧ env.find? pipeName = some row ∧ (env.find? "B").isSome = false ∧
      LetterFile store "d/A.npy".toList 'A' t ∧ env.find? "A" = some t := by
  intro store paths row
  have hreads : ∀ path ∈ paths, (readArray store path).isOk = true := by
    decide +kernel
  have hnames : ∀ path ∈ paths, placeholderOf store path = .ok (String.singleton 'A') := by
    simp only [paths, List.forall_mem_cons]
    exact ⟨rfl, rfl, nofun⟩
  have hfiles : ∀ path ∈ paths, path.fileName ≠ reservedName ∧ ∃ c t, LetterFile store path c t := by
    intro path hpath
    have hread := hreads path hpath
    cases ht : readArray store path with
    | error e =>
      rw [ht] at hread
      cases hread
    | ok t =>
      have hletter : LetterFile store path 'A' t := letterFile_iff.mpr ⟨hnames path hpath, ht⟩
      refine ⟨fun hreserved => ?_, 'A', t, hletter⟩
      have hstem := hletter.stem
      rw [stem_of_reservedName hreserved] at hstem
      cases hstem
  obtain ⟨hloads, hbinds, -⟩ := load_spec store (some row) paths
  obtain ⟨env, henv⟩ := hloads.mpr hfiles
  obtain ⟨hpiped, hnames, hlast⟩ := hbinds env henv
  obtain ⟨t, hletter, ht⟩ := hlast ["A.npy".toList] "d/A.npy".toList [] 'A' rfl (by decide) nofun
  refine ⟨env, t, henv, hpiped, ?_, hletter, ht⟩
  rw [Bool.eq_false_iff]
  intro hother
  obtain ⟨path, hmem, c, hstem, hname⟩ := (hnames "B" (by decide)).mp hother
  have hstems : ∀ path ∈ paths, path.stem = ['A'] := by
    decide
  rw [hstems path hmem] at hstem
  cases hstem
  contradiction

end Environment

end ArrayCalc
