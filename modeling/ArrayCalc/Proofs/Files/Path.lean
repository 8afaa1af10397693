import Mathlib
import ArrayCalc.Files.Path

namespace ArrayCalc

/-- The last item of a list that has some property, and what stands around it. -/
theorem exists_last {α : Type} {p : α → Prop} {xs : List α} (h : ∃ x ∈ xs, p x) :
    ∃ before x after, xs = before ++ x :: after ∧ p x ∧ ∀ y ∈ after, ¬ p y := by
  induction xs with
  | nil => simp at h
  | cons first xs ih =>
    by_cases hlater : ∃ x ∈ xs, p x
    · obtain ⟨before, x, after, rfl, hx, hafter⟩ := ih hlater
      exact ⟨first :: before, x, after, rfl, hx, hafter⟩
    · obtain ⟨x, hmem, hx⟩ := h
      obtain rfl | hmem := List.mem_cons.mp hmem
      · exact ⟨[], x, xs, rfl, hx, fun y hy hp => hlater ⟨y, hy, hp⟩⟩
      · exact absurd ⟨x, hmem, hx⟩ hlater

namespace Path

/-- What can stand in front of the last piece of a path: nothing, or something that ends in a slash. -/
def IsFront (front : Path) : Prop :=
  front = [] ∨ ∃ dir, front = dir ++ ['/']

/-- A file name divided into its stem and its extension. The extension begins at the last point of the name, but not at
    its front, and the name of the parent directory has none. -/
inductive Divides : (stem ext : List Char) → Prop where
  | bare {name : List Char} (h : '.' ∉ name.tail ∨ name = ['.', '.']) : Divides name []
  | extended {stem tail : List Char} (hstem : stem ≠ []) (htail : '.' ∉ tail) (hparent : stem ++ '.' :: tail ≠ ['.', '.']) :
      Divides stem ('.' :: tail)

variable {path front : Path} {piece : List Char}

section

variable {x : Char} {cs ds : List Char}

theorem takeWhile_of_notMem (hcs : x ∉ cs) (hds : ds = [] ∨ ∃ es, ds = x :: es) :
    (cs ++ ds).takeWhile (· ≠ x) = cs := by
  have hkept : ∀ c ∈ cs, decide (c ≠ x) = true := fun c hc => decide_eq_true fun h => hcs (h ▸ hc)
  rw [List.takeWhile_append_of_pos hkept]
  obtain rfl | ⟨es, rfl⟩ := hds <;> simp

theorem dropWhile_of_notMem (hcs : x ∉ cs) (hds : ds = [] ∨ ∃ es, ds = x :: es) :
    (cs ++ ds).dropWhile (· ≠ x) = ds := by
  have hdropped : ∀ c ∈ cs, decide (c ≠ x) = true := fun c hc => decide_eq_true fun h => hcs (h ▸ hc)
  rw [List.dropWhile_append_of_pos hdropped]
  obtain rfl | ⟨es, rfl⟩ := hds <;> simp

theorem exists_last_of_mem (h : x ∈ cs) : ∃ front tail, cs = front ++ x :: tail ∧ x ∉ tail := by
  obtain ⟨front, _, tail, hsplit, rfl, htail⟩ := exists_last (p := (· = x)) ⟨x, h, rfl⟩
  exact ⟨front, tail, hsplit, fun hmem => htail _ hmem rfl⟩

theorem exists_run_at_end (cs : List Char) (x : Char) :
    ∃ core n, cs = core ++ List.replicate n x ∧ core.getLast? ≠ some x := by
  induction cs using List.reverseRecOn with
  | nil => exact ⟨[], 0, rfl, nofun⟩
  | append_singleton cs c ih =>
    by_cases hc : c = x
    · obtain ⟨core, n, rfl, hlast⟩ := ih
      exact ⟨core, n + 1, by rw [List.replicate_succ', ← List.append_assoc, hc], hlast⟩
    · exact ⟨cs ++ [c], 0, by simp, by simpa using hc⟩

end

/-- The last piece of a path stands behind its front, and slashes may follow it. -/
theorem fileName_append (hfront : IsFront front) (hne : piece ≠ []) (hslash : '/' ∉ piece) (n : Nat) :
    fileName (front ++ piece ++ List.replicate n '/') = piece := by
  have hreverse : (front ++ piece ++ List.replicate n '/').reverse =
      List.replicate n '/' ++ (piece.reverse ++ front.reverse) := by
    simp
  have hslashes : ∀ c ∈ List.replicate n '/', decide (c = '/') = true := fun c hc =>
    decide_eq_true (List.eq_of_mem_replicate hc)
  have hstops : (piece.reverse ++ front.reverse).dropWhile (· = '/') = piece.reverse ++ front.reverse := by
    cases hpiece : piece.reverse with
    | nil => exact absurd (List.reverse_eq_nil_iff.mp hpiece) hne
    | cons c cs =>
      have hc : c ≠ '/' := by
        rintro rfl
        exact hslash (List.mem_reverse.mp (hpiece ▸ List.mem_cons_self))
      exact List.dropWhile_cons_of_neg (by simpa using hc)
  have hend : front.reverse = [] ∨ ∃ dir, front.reverse = '/' :: dir := by
    obtain rfl | ⟨dir, rfl⟩ := hfront
    · exact .inl rfl
    · exact .inr ⟨dir.reverse, by simp⟩
  rw [fileName, hreverse, List.dropWhile_append_of_pos hslashes, hstops, takeWhile_of_notMem (by simpa using hslash) hend,
    List.reverse_reverse]

/-- Every path is a front, its last piece and slashes. -/
theorem exists_front (path : Path) :
    ∃ front n, IsFront front ∧ path = front ++ path.fileName ++ List.replicate n '/' ∧ '/' ∉ path.fileName := by
  obtain ⟨core, n, rfl, hlast⟩ := exists_run_at_end path '/'
  by_cases hslash : '/' ∈ core
  · obtain ⟨dir, piece, rfl, hpiece⟩ := exists_last_of_mem hslash
    have hne : piece ≠ [] := by
      rintro rfl
      exact hlast (by simp)
    have hfront : IsFront (dir ++ ['/']) := .inr ⟨dir, rfl⟩
    have hcore : dir ++ '/' :: piece = dir ++ ['/'] ++ piece := by
      simp
    have hname := fileName_append hfront hne hpiece n
    rw [hcore]
    exact ⟨dir ++ ['/'], n, hfront, by rw [hname], by rwa [hname]⟩
  · by_cases hne : core = []
    · subst hne
      have hname : fileName (List.replicate n '/') = [] := by
        simp [fileName]
      exact ⟨[], n, .inl rfl, by simp [hname], by simp [hname]⟩
    · have hname := fileName_append (.inl rfl) hne hslash n
      rw [List.nil_append] at hname
      exact ⟨[], n, .inl rfl, by rw [hname, List.nil_append], by rwa [hname]⟩

theorem exists_front_of_getLast? (h : path.getLast? ≠ some '/') :
    ∃ front, IsFront front ∧ path = front ++ path.fileName ∧ '/' ∉ path.fileName := by
  obtain ⟨front, n, hfront, hpath, hslash⟩ := exists_front path
  cases n with
  | zero => exact ⟨front, hfront, by simpa using hpath, hslash⟩
  | succ n =>
    rw [List.replicate_succ', ← List.append_assoc] at hpath
    rw [hpath] at h
    exact absurd List.getLast?_concat h

theorem fileName_eq_iff (hne : piece ≠ []) (hslash : '/' ∉ piece) :
    path.fileName = piece ↔ ∃ front n, IsFront front ∧ path = front ++ piece ++ List.replicate n '/' := by
  constructor
  · rintro rfl
    obtain ⟨front, n, hfront, hpath, -⟩ := exists_front path
    exact ⟨front, n, hfront, hpath⟩
  · rintro ⟨front, n, hfront, rfl⟩
    exact fileName_append hfront hne hslash n

section

variable {name stem tail : List Char}

theorem splitName_of_notMem (h : '.' ∉ name) : splitName name = (name, []) := by
  have hreverse : '.' ∉ name.reverse := by
    simpa using h
  have hdrop := dropWhile_of_notMem hreverse (.inl rfl)
  rw [List.append_nil] at hdrop
  rw [splitName, hdrop]

theorem splitName_point (htail : '.' ∉ tail) (stem : List Char) :
    splitName (stem ++ '.' :: tail) =
      if stem = [] ∨ stem ++ '.' :: tail = ['.', '.'] then (stem ++ '.' :: tail, []) else (stem, '.' :: tail) := by
  have hreverse : (stem ++ '.' :: tail).reverse = tail.reverse ++ '.' :: stem.reverse := by
    simp
  have hnotMem : '.' ∉ tail.reverse := by
    simpa using htail
  rw [splitName, hreverse, takeWhile_of_notMem hnotMem (.inr ⟨_, rfl⟩), dropWhile_of_notMem hnotMem (.inr ⟨_, rfl⟩)]
  cases hstem : stem.reverse with
  | nil =>
    rw [List.reverse_eq_nil_iff] at hstem
    rw [if_pos (.inl hstem)]
  | cons c front =>
    have hne : stem ≠ [] := by
      rintro rfl
      cases hstem
    simp only [hne, false_or, ← hstem, List.reverse_reverse]

theorem divides_splitName (name : List Char) : Divides (splitName name).1 (splitName name).2 := by
  by_cases hpoint : '.' ∈ name
  · obtain ⟨stem, tail, rfl, htail⟩ := exists_last_of_mem hpoint
    rw [splitName_point htail]
    split
    · next hbare =>
      obtain rfl | hparent := hbare
      · exact .bare (.inl htail)
      · exact .bare (.inr hparent)
    · next hextended =>
      rw [not_or] at hextended
      exact .extended hextended.1 htail hextended.2
  · rw [splitName_of_notMem hpoint]
    exact .bare (.inl fun hmem => hpoint (List.mem_of_mem_tail hmem))

end

end Path

end ArrayCalc
