import ArrayCalc.Command.Options
import ArrayCalc.Proofs.Except

namespace ArrayCalc

namespace Text

/-- Blanks at the end are dropped only up to a character that is none. -/
theorem stripBlanks_cons {c : Char} (hc : isBlank c = false) (cs : List Char) :
    ((c :: cs).reverse.dropWhile isBlank).reverse = c :: (cs.reverse.dropWhile isBlank).reverse := by
  rw [List.reverse_cons, List.dropWhile_append]
  split
  · rename_i hnone
    rw [List.isEmpty_iff.mp hnone]
    simp [hc]
  · simp

end Text

/-- A text that begins with two dashes writes no number. -/
theorem Number.ofText?_dashes (cs : List Char) : ofText? ('-' :: '-' :: cs) = none := by
  have hdash : Text.isBlank '-' = false := by decide
  have htrim : Text.trim ('-' :: '-' :: cs) = '-' :: '-' :: (cs.reverse.dropWhile Text.isBlank).reverse := by
    rw [Text.trim, List.dropWhile_cons_of_neg (by simp [hdash]), Text.stripBlanks_cons hdash,
      Text.stripBlanks_cons hdash]
  rw [ofText?, htrim]
  simp [signed?, splitSign, unsigned?, spanDigits, Char.isDigit]

namespace Argument

/-- A text that names an option by itself: it is no positional argument, it does not end the options, and no value
    is joined to it. -/
structure IsFlag (flag : List Char) : Prop where
  notPositional : isPositional flag = false
  ne_endOfOptions : flag ≠ endOfOptions
  notJoined : '=' ∉ flag

/-- All flags, those of the switches first. -/
def flagNames : List String :=
  Switch.all.flatMap Switch.flags ++ Setting.all.flatMap Setting.flags

section

variable {flag : List Char} {s : Switch} {setting : Setting}

theorem isFlag_of_mem (h : String.ofList flag ∈ flagNames) : IsFlag flag := by
  have hflags : ∀ name ∈ flagNames,
      isPositional name.toList = false ∧ name.toList ≠ endOfOptions ∧ '=' ∉ name.toList := by
    decide
  obtain ⟨hpositional, hend, hjoined⟩ := hflags _ h
  rw [String.toList_ofList] at hpositional hend hjoined
  exact ⟨hpositional, hend, hjoined⟩

theorem isFlag_of_switch (h : Switch.ofFlag? flag = some s) : IsFlag flag := by
  have hname : String.ofList flag ∈ s.flags := by simpa using List.find?_some h
  exact isFlag_of_mem (List.mem_append_left _ (List.mem_flatMap.mpr ⟨s, List.mem_of_find?_eq_some h, hname⟩))

theorem isFlag_of_setting (h : Setting.ofFlag? flag = some setting) : IsFlag flag := by
  have hname : String.ofList flag ∈ setting.flags := by simpa using List.find?_some h
  exact isFlag_of_mem (List.mem_append_right _ (List.mem_flatMap.mpr ⟨setting, List.mem_of_find?_eq_some h, hname⟩))

/-- No flag both stands alone and takes a value. -/
theorem switch_eq_none_of_setting (h : Setting.ofFlag? flag = some setting) : Switch.ofFlag? flag = none := by
  have hflags : ∀ name ∈ Setting.all.flatMap Setting.flags, Switch.ofFlag? name.toList = none := by decide
  have hname : String.ofList flag ∈ setting.flags := by simpa using List.find?_some h
  have hnone := hflags _ (List.mem_flatMap.mpr ⟨setting, List.mem_of_find?_eq_some h, hname⟩)
  rwa [String.toList_ofList] at hnone

theorem splitInline_flag (h : IsFlag flag) : splitInline flag = (flag, none) := by
  have hrest : flag.dropWhile (· ≠ '=') = [] := by
    rw [List.dropWhile_eq_nil_iff]
    intro c hc
    simpa using fun heq : c = '=' => h.notJoined (heq ▸ hc)
  rw [splitInline, hrest]
  split <;> rfl

theorem splitInline_joined (h : IsFlag flag) (hlong : endOfOptions.isPrefixOf flag = true) (value : List Char) :
    splitInline (flag ++ '=' :: value) = (flag, some value) := by
  have hfront : ∀ c ∈ flag, decide (c ≠ '=') = true := fun c hc => by
    simpa using fun heq : c = '=' => h.notJoined (heq ▸ hc)
  have hlong' : endOfOptions.isPrefixOf (flag ++ '=' :: value) = true := by
    rw [List.isPrefixOf_iff_prefix] at hlong ⊢
    exact hlong.trans (List.prefix_append ..)
  rw [splitInline, if_pos hlong', List.dropWhile_append_of_pos hfront, List.takeWhile_append_of_pos hfront]
  simp

theorem isPositional_joined (hlong : endOfOptions.isPrefixOf flag = true) (value : List Char) :
    isPositional (flag ++ '=' :: value) = false := by
  obtain ⟨name, rfl⟩ := List.isPrefixOf_iff_prefix.mp hlong
  have hnumber := Number.ofText?_dashes (name ++ '=' :: value)
  simp [isPositional, endOfOptions, hnumber]

theorem joined_ne_endOfOptions (value : List Char) : flag ++ '=' :: value ≠ endOfOptions := by
  intro heq
  have hmem : '=' ∈ endOfOptions := by
    rw [← heq]
    simp
  revert hmem
  decide

end

/-- Arguments that are read as one: a positional argument, a switch, a setting with its value behind it, or a setting
    whose long flag has its value joined to it. -/
inductive Group where
  | positional (text : List Char) (h : isPositional text = true)
  | switch (flag : List Char) (s : Switch) (h : Switch.ofFlag? flag = some s)
  | setting (flag value : List Char) (s : Setting) (h : Setting.ofFlag? flag = some s)
  | joined (flag value : List Char) (s : Setting) (h : Setting.ofFlag? flag = some s)
      (hlong : endOfOptions.isPrefixOf flag = true)

namespace Group

/-- The arguments of a group as they are written. -/
def args : Group → List (List Char)
  | positional text _ => [text]
  | switch flag _ _ => [flag]
  | setting flag value _ _ => [flag, value]
  | joined flag value _ _ _ => [flag ++ '=' :: value]

/-- What a group says. -/
def read : Group → Except UsageError Argument
  | positional text _ => .ok (.positional text)
  | switch _ s _ => .ok (.switch s)
  | setting flag value s _ => ofSetting s flag value
  | joined flag value s _ _ => ofSetting s flag value

/-- A positional argument is its text. -/
def text? : Group → Option (List Char)
  | positional text _ => some text
  | _ => none

/-- The text that a group gives a setting. -/
def value? (s : Setting) : Group → Option (List Char)
  | setting _ value t _ | joined _ value t _ _ => if t = s then some value else none
  | _ => none

/-- Whether a group is a given switch. -/
def isSwitch (s : Switch) : Group → Bool
  | switch _ t _ => t = s
  | _ => false

/-- A group is read as a whole, and the arguments behind it by themselves. -/
theorem ofArgs_append (g : Group) (rest : List (List Char)) :
    ofArgs (g.args ++ rest) = do return (← g.read) :: (← ofArgs rest) := by
  cases g with
  | positional text h =>
    rw [args, List.singleton_append, ofArgs, if_pos h]
    rfl
  | switch flag s h =>
    have hflag := isFlag_of_switch h
    rw [args, List.singleton_append, ofArgs, hflag.notPositional, if_neg Bool.false_ne_true,
      if_neg hflag.ne_endOfOptions, splitInline_flag hflag]
    simp only [h]
    rfl
  | setting flag value s h =>
    have hflag := isFlag_of_setting h
    rw [args, List.cons_append, List.singleton_append, ofArgs, hflag.notPositional, if_neg Bool.false_ne_true,
      if_neg hflag.ne_endOfOptions, splitInline_flag hflag]
    simp only [switch_eq_none_of_setting h, h]
    rfl
  | joined flag value s h hlong =>
    have hflag := isFlag_of_setting h
    rw [args, List.singleton_append, ofArgs, isPositional_joined hlong, if_neg Bool.false_ne_true,
      if_neg (joined_ne_endOfOptions value), splitInline_joined hflag hlong]
    simp only [switch_eq_none_of_setting h, h]
    rfl

/-- What the first argument of a group shows: nothing for a positional one, else a flag and a joined value. -/
def key : Group → Option (List Char × Option (List Char))
  | positional _ _ => none
  | switch flag _ _ | setting flag _ _ _ => some (flag, none)
  | joined flag value _ _ _ => some (flag, some value)

theorem exists_first (g : Group) :
    ∃ arg behind, g.args = arg :: behind ∧ arg ≠ endOfOptions ∧
      g.key = if isPositional arg then none else some (splitInline arg) := by
  cases g with
  | positional text h =>
    refine ⟨text, [], rfl, ?_, by rw [if_pos h]; rfl⟩
    rintro rfl
    revert h
    decide
  | switch flag s h =>
    have hflag := isFlag_of_switch h
    refine ⟨flag, [], rfl, hflag.ne_endOfOptions, ?_⟩
    rw [hflag.notPositional, if_neg Bool.false_ne_true, splitInline_flag hflag]
    rfl
  | setting flag value s h =>
    have hflag := isFlag_of_setting h
    refine ⟨flag, [value], rfl, hflag.ne_endOfOptions, ?_⟩
    rw [hflag.notPositional, if_neg Bool.false_ne_true, splitInline_flag hflag]
    rfl
  | joined flag value s h hlong =>
    refine ⟨flag ++ '=' :: value, [], rfl, joined_ne_endOfOptions value, ?_⟩
    rw [isPositional_joined hlong, if_neg Bool.false_ne_true, splitInline_joined (isFlag_of_setting h) hlong]
    rfl

/-- A list of arguments begins with at most one group. -/
theorem append_inj {g g' : Group} {rest rest' : List (List Char)} (h : g.args ++ rest = g'.args ++ rest') :
    g = g' ∧ rest = rest' := by
  have hkey : g.key = g'.key := by
    obtain ⟨arg, behind, hargs, -, hkey⟩ := g.exists_first
    obtain ⟨arg', behind', hargs', -, hkey'⟩ := g'.exists_first
    rw [hargs, hargs', List.cons_append, List.cons_append] at h
    rw [hkey, hkey', (List.cons.inj h).1]
  cases g with
  | positional text _ =>
    cases g' with
    | positional text' _ =>
      obtain ⟨rfl, hrest⟩ := List.cons.inj h
      exact ⟨rfl, hrest⟩
    | _ => cases hkey
  | switch flag s hs =>
    cases g' with
    | switch flag' s' hs' =>
      obtain ⟨rfl, hrest⟩ := List.cons.inj h
      obtain rfl := Option.some.inj (hs.symm.trans hs')
      exact ⟨rfl, hrest⟩
    | setting flag' value' s' hs' =>
      cases hkey
      rw [switch_eq_none_of_setting hs'] at hs
      cases hs
    | _ => cases hkey
  | setting flag value s hs =>
    cases g' with
    | switch flag' s' hs' =>
      cases hkey
      rw [switch_eq_none_of_setting hs] at hs'
      cases hs'
    | setting flag' value' s' hs' =>
      obtain ⟨rfl, hbehind⟩ := List.cons.inj h
      obtain ⟨rfl, hrest⟩ := List.cons.inj hbehind
      obtain rfl := Option.some.inj (hs.symm.trans hs')
      exact ⟨rfl, hrest⟩
    | _ => cases hkey
  | joined flag value s hs hlong =>
    cases g' with
    | joined flag' value' s' hs' hlong' =>
      cases hkey
      obtain rfl := Option.some.inj (hs.symm.trans hs')
      exact ⟨rfl, (List.cons.inj h).2⟩
    | _ => cases hkey

end Group

/-- A joined value is cut off at the first equals sign of a long option. -/
theorem eq_of_splitInline {arg flag : List Char} {value? : Option (List Char)}
    (h : splitInline arg = (flag, value?)) :
    match value? with
    | none => arg = flag
    | some value => arg = flag ++ '=' :: value ∧ endOfOptions.isPrefixOf flag = true := by
  rw [splitInline] at h
  split at h
  · rename_i hlong
    have hwhole := List.takeWhile_append_dropWhile (p := fun c => decide (c ≠ '=')) (l := arg)
    split at h
    · rename_i mark value hrest
      cases h
      rw [hrest] at hwhole
      have hmark : mark = '=' := by
        have hhead := List.head?_dropWhile_not (fun c => decide (c ≠ '=')) arg
        rw [hrest] at hhead
        simpa using hhead
      rw [hmark] at hwhole
      refine ⟨hwhole.symm, ?_⟩
      obtain ⟨name, rfl⟩ := List.isPrefixOf_iff_prefix.mp hlong
      simp [endOfOptions]
    · cases h
      rfl
  · cases h
    rfl

end Argument

/-- A command line as its groups, and the positional arguments behind the mark that ends the options, where it
    stands. -/
structure CommandLine where
  groups : List Argument.Group
  rest : Option (List (List Char))

namespace CommandLine

open Argument

def args (line : CommandLine) : List (List Char) :=
  line.groups.flatMap Group.args ++ line.rest.elim [] (endOfOptions :: ·)

def cons (g : Group) (line : CommandLine) : CommandLine :=
  ⟨g :: line.groups, line.rest⟩

theorem args_cons (g : Group) (line : CommandLine) : (line.cons g).args = g.args ++ line.args := by
  simp [args, cons]

/-- The positional arguments, in order. -/
def texts (line : CommandLine) : List (List Char) :=
  line.groups.filterMap Group.text? ++ line.rest.getD []

/-- The texts that are given to a setting, in order. -/
def values (line : CommandLine) (s : Setting) : List (List Char) :=
  line.groups.filterMap (Group.value? s)

/-- A command line is read group by group. -/
theorem ofArgs_args (line : CommandLine) :
    ofArgs line.args = do return (← line.groups.mapM Group.read) ++ (line.rest.getD []).map positional := by
  obtain ⟨groups, rest⟩ := line
  induction groups with
  | nil => cases rest <;> rfl
  | cons g groups ih =>
    have hline : CommandLine.mk (g :: groups) rest = cons g ⟨groups, rest⟩ := rfl
    rw [hline, args_cons, g.ofArgs_append, ih, cons, List.mapM_cons]
    simp

/-- Where a setting and what follows it are accepted, so is what follows it. -/
theorem exists_of_setting {x : Except UsageError Argument} {rest : List (List Char)} {xs : List Argument}
    (h : (do return (← x) :: (← ofArgs rest)) = Except.ok xs) : ∃ ys, ofArgs rest = .ok ys := by
  rw [bind_eq_ok_iff] at h
  obtain ⟨a, -, h⟩ := h
  rw [bind_eq_ok_iff] at h
  obtain ⟨ys, hys, -⟩ := h
  exact ⟨ys, hys⟩

/-- Every list of arguments that is accepted is a list of groups. -/
theorem exists_of_ofArgs {args : List (List Char)} {xs : List Argument} (h : ofArgs args = .ok xs) :
    ∃ line : CommandLine, line.args = args := by
  induction args using ofArgs.induct generalizing xs with
  | case1 => exact ⟨⟨[], none⟩, rfl⟩
  | case2 arg rest hpositional ih =>
    rw [ofArgs, if_pos hpositional, bind_eq_ok_iff] at h
    obtain ⟨ys, hys, -⟩ := h
    obtain ⟨line, rfl⟩ := ih hys
    exact ⟨line.cons (.positional arg hpositional), args_cons _ line⟩
  | case3 rest _ => exact ⟨⟨[], some rest⟩, rfl⟩
  | case4 arg rest hpositional hend flag s hs hsplit ih =>
    rw [ofArgs, if_neg hpositional, if_neg hend, hsplit] at h
    simp only [hs] at h
    rw [bind_eq_ok_iff] at h
    obtain ⟨ys, hys, -⟩ := h
    obtain ⟨line, rfl⟩ := ih hys
    obtain rfl : arg = flag := eq_of_splitInline hsplit
    exact ⟨line.cons (.switch arg s hs), args_cons _ line⟩
  | case5 arg rest hpositional hend flag s text hs hsplit =>
    rw [ofArgs, if_neg hpositional, if_neg hend, hsplit] at h
    simp only [hs] at h
    cases h
  | case6 arg rest hpositional hend flag value? hsplit hs hsetting =>
    rw [ofArgs, if_neg hpositional, if_neg hend, hsplit] at h
    simp only [hs, hsetting] at h
    cases h
  | case7 arg hpositional hend flag hs setting hsetting text rest hsplit ih =>
    rw [ofArgs, if_neg hpositional, if_neg hend, hsplit] at h
    simp only [hs, hsetting] at h
    obtain ⟨ys, hys⟩ := exists_of_setting h
    obtain ⟨line, rfl⟩ := ih hys
    obtain ⟨rfl, hlong⟩ := eq_of_splitInline hsplit
    exact ⟨line.cons (.joined flag text setting hsetting hlong), args_cons _ line⟩
  | case8 arg hpositional hend flag hs setting hsetting text rest hsplit ih =>
    rw [ofArgs, if_neg hpositional, if_neg hend, hsplit] at h
    simp only [hs, hsetting] at h
    obtain ⟨ys, hys⟩ := exists_of_setting h
    obtain ⟨line, rfl⟩ := ih hys
    obtain rfl : arg = flag := eq_of_splitInline hsplit
    exact ⟨line.cons (.setting arg text setting hsetting), args_cons _ line⟩
  | case9 arg hpositional hend flag hs setting hsetting hsplit =>
    rw [ofArgs, if_neg hpositional, if_neg hend, hsplit] at h
    simp only [hs, hsetting] at h
    cases h

/-- What follows the groups cannot be taken for one. -/
theorem args_ne_rest (g : Group) (line : CommandLine) (rest : Option (List (List Char))) :
    (line.cons g).args ≠ rest.elim [] (endOfOptions :: ·) := by
  obtain ⟨arg, behind, hargs, hne, -⟩ := g.exists_first
  rw [args_cons, hargs]
  cases rest with
  | none => exact List.cons_ne_nil _ _
  | some rest => exact fun h => hne (List.cons.inj h).1

/-- A list of arguments is one command line at most. -/
theorem eq_of_args_eq {line line' : CommandLine} (h : line.args = line'.args) : line = line' := by
  obtain ⟨groups, rest⟩ := line
  obtain ⟨groups', rest'⟩ := line'
  induction groups generalizing groups' with
  | nil =>
    cases groups' with
    | nil =>
      cases rest <;> cases rest' <;> simp_all [args]
    | cons g' groups' => exact absurd h.symm (args_ne_rest g' ⟨groups', rest'⟩ rest)
  | cons g groups ih =>
    cases groups' with
    | nil => exact absurd h (args_ne_rest g ⟨groups, rest⟩ rest')
    | cons g' groups' =>
      have happend : g.args ++ args ⟨groups, rest⟩ = g'.args ++ args ⟨groups', rest'⟩ := by
        rw [← args_cons, ← args_cons]
        exact h
      obtain ⟨rfl, hargs⟩ := Group.append_inj happend
      cases ih groups' hargs
      rfl

end CommandLine

namespace Options

open Argument

/-- The options that say which switches are on, list the positional arguments and give each setting its last value. -/
def ofParts (on : Switch → Bool) (texts : List (List Char)) (values : Setting → List (List Char)) : Options where
  help := on .help
  version := on .version
  prompt := on .prompt
  npy := on .npy
  pretty := on .pretty
  verbose := on .verbose
  components := on .components
  expression := texts.head?
  files := texts.tail
  output := (values .output).getLast?
  precision := (values .precision).getLast?.bind integer?
  format := (values .format).getLast?.bind fun name => OutputFormat.ofName? (String.ofList name)
  threshold := (values .threshold).getLast?.bind Number.ofText?

section

variable (on : Switch → Bool) (texts : List (List Char)) (values : Setting → List (List Char))

theorem add_positional (text : List Char) :
    (ofParts on texts values).add (.positional text) = ofParts on (texts ++ [text]) values := by
  cases texts <;> rfl

theorem add_switch (s : Switch) :
    (ofParts on texts values).add (.switch s) = ofParts (fun t => on t || decide (s = t)) texts values := by
  cases s <;> simp [add, set, ofParts]

/-- A setting replaces the value that it had. -/
theorem add_setting {s : Setting} {flag value : List Char} {a : Argument} (h : ofSetting s flag value = .ok a) :
    (ofParts on texts values).add a =
      ofParts on texts (fun t => values t ++ (if s = t then [value] else [])) := by
  cases s with
  | output =>
    cases h
    simp [add, ofParts]
  | precision =>
    rw [ofSetting] at h
    split at h
    · rename_i count hcount
      cases h
      simp [add, ofParts, hcount]
    · cases h
  | format =>
    rw [ofSetting] at h
    split at h
    · rename_i f hf
      cases h
      simp [add, ofParts, hf]
    · cases h
  | threshold =>
    rw [ofSetting] at h
    split at h
    · rename_i x hx
      split at h
      · cases h
      · cases h
        simp [add, ofParts, hx]
    · cases h

/-- What one group adds. -/
theorem add_group {g : Group} {a : Argument} (h : g.read = .ok a) :
    (ofParts on texts values).add a =
      ofParts (fun s => on s || g.isSwitch s) (texts ++ g.text?.toList) (fun s => values s ++ (g.value? s).toList) := by
  cases g with
  | positional text _ =>
    cases h
    rw [add_positional]
    simp [Group.isSwitch, Group.text?, Group.value?]
  | switch flag s _ =>
    cases h
    rw [add_switch]
    simp [Group.isSwitch, Group.text?, Group.value?]
  | setting flag value s _ =>
    rw [add_setting on texts values h]
    simp only [Group.isSwitch, Group.text?, Group.value?, Bool.or_false, Option.toList_none, List.append_nil]
    congr 2
    funext t
    split <;> rfl
  | joined flag value s _ _ =>
    rw [add_setting on texts values h]
    simp only [Group.isSwitch, Group.text?, Group.value?, Bool.or_false, Option.toList_none, List.append_nil]
    congr 2
    funext t
    split <;> rfl

/-- What all groups add. -/
theorem foldl_add_groups {groups : List Group} {as : List Argument} (h : groups.mapM Group.read = .ok as) :
    as.foldl add (ofParts on texts values) =
      ofParts (fun s => on s || groups.any (Group.isSwitch s)) (texts ++ groups.filterMap Group.text?)
        (fun s => values s ++ groups.filterMap (Group.value? s)) := by
  induction groups generalizing on texts values as with
  | nil =>
    cases h
    simp
  | cons g groups ih =>
    rw [List.mapM_cons, bind_eq_ok_iff] at h
    obtain ⟨a, ha, h⟩ := h
    rw [bind_eq_ok_iff] at h
    obtain ⟨as, has, h⟩ := h
    cases h
    rw [List.foldl_cons, add_group on texts values ha, ih _ _ _ has]
    congr 1
    · funext s
      rw [List.any_cons, Bool.or_assoc]
    · rw [List.append_assoc]
      cases htext : g.text? with
      | none => rw [List.filterMap_cons_none htext]; rfl
      | some text => rw [List.filterMap_cons_some htext]; rfl
    · funext s
      rw [List.append_assoc]
      cases hvalue : g.value? s with
      | none => rw [List.filterMap_cons_none hvalue]; rfl
      | some value => rw [List.filterMap_cons_some hvalue]; rfl

theorem foldl_add_positional (more : List (List Char)) :
    (more.map Argument.positional).foldl add (ofParts on texts values) = ofParts on (texts ++ more) values := by
  induction more generalizing texts with
  | nil => rw [List.append_nil]; rfl
  | cons text more ih => rw [List.map_cons, List.foldl_cons, add_positional, ih, List.append_assoc]; rfl

end

end Options

namespace CommandLine

open Argument

/-- What a command line asks for: the switches that occur in it are on, the first positional argument is the
    expression and the others are files, and each setting has the last value that it is given. -/
def options (line : CommandLine) : Options :=
  .ofParts (fun s => line.groups.any (Group.isSwitch s)) line.texts line.values

/-- A command line is accepted if every value is one that its setting takes. -/
def Accepted (line : CommandLine) : Prop :=
  ∀ g ∈ line.groups, ∃ a, g.read = .ok a

theorem accepted_iff {line : CommandLine} : line.Accepted ↔ ∃ as, line.groups.mapM Group.read = .ok as := by
  obtain ⟨groups, rest⟩ := line
  rw [Accepted]
  induction groups with
  | nil => exact ⟨fun _ => ⟨[], rfl⟩, fun _ => by simp⟩
  | cons g groups ih =>
    simp only [List.forall_mem_cons, List.mapM_cons, bind_eq_ok_iff] at ih ⊢
    rw [ih]
    constructor
    · rintro ⟨⟨a, ha⟩, as, has⟩
      exact ⟨a :: as, a, ha, as, has, rfl⟩
    · rintro ⟨_, a, ha, as, has, _⟩
      exact ⟨⟨a, ha⟩, as, has⟩

theorem parse_args_eq_ok_iff {line : CommandLine} {o : Options} :
    Options.parse line.args = .ok o ↔ line.Accepted ∧ o = line.options := by
  have hoptions {as : List Argument} (has : line.groups.mapM Group.read = .ok as) :
      Options.ofArguments (as ++ (line.rest.getD []).map positional) = line.options := by
    have hstart : ({} : Options) = .ofParts (fun _ => false) [] (fun _ => []) := rfl
    rw [Options.ofArguments, List.foldl_append, hstart, Options.foldl_add_groups _ _ _ has,
      Options.foldl_add_positional, options, texts]
    simp only [Bool.false_or, List.nil_append]
    rfl
  rw [Options.parse, ofArgs_args, accepted_iff]
  constructor
  · intro h
    cases has : line.groups.mapM Group.read with
    | error e =>
      rw [has] at h
      cases h
    | ok as =>
      rw [has] at h
      cases h
      exact ⟨⟨as, rfl⟩, hoptions has⟩
  · rintro ⟨⟨as, has⟩, rfl⟩
    rw [has, ← hoptions has]
    rfl

theorem exists_of_parse {args : List (List Char)} {o : Options} (h : Options.parse args = .ok o) :
    ∃ line : CommandLine, line.args = args := by
  cases hread : ofArgs args with
  | ok as => exact exists_of_ofArgs hread
  | error e =>
    rw [Options.parse, hread] at h
    cases h

end CommandLine

namespace Argument.Group

/-- Two spellings of one group: a long flag and its value may be joined or stand apart. -/
inductive Respelled : Group → Group → Prop where
  | same (g : Group) : Respelled g g
  | join {flag value : List Char} {s : Setting} (h : Setting.ofFlag? flag = some s)
      (hlong : endOfOptions.isPrefixOf flag = true) :
      Respelled (.setting flag value s h) (.joined flag value s h hlong)
  | part {flag value : List Char} {s : Setting} (h : Setting.ofFlag? flag = some s)
      (hlong : endOfOptions.isPrefixOf flag = true) :
      Respelled (.joined flag value s h hlong) (.setting flag value s h)

/-- Groups in another order, in which positional arguments follow each other as before, and so do the values of each
    setting. -/
structure Reordered (groups groups' : List Group) : Prop where
  perm : groups'.Perm groups
  texts : groups'.filterMap text? = groups.filterMap text?
  values (s : Setting) : groups'.filterMap (value? s) = groups.filterMap (value? s)

section

variable {groups groups' : List Group} (h : List.Forall₂ Respelled groups groups')

include h

/-- What does not depend on the spelling of a group does not depend on that of many. -/
theorem map_eq_of_respelled {α : Type} {f : Group → α} (hf : ∀ {g g'}, Respelled g g' → f g = f g') :
    groups.map f = groups'.map f := by
  induction h with
  | nil => rfl
  | cons hg _ ih => rw [List.map_cons, List.map_cons, hf hg, ih]

end

end Argument.Group

namespace CommandLine

open Argument

variable {groups groups' : List Group} (rest : Option (List (List Char)))

theorem accepted_iff_map {line : CommandLine} : line.Accepted ↔ ∀ r ∈ line.groups.map Group.read, ∃ a, r = .ok a := by
  rw [Accepted, List.forall_mem_map]

theorem options_eq {line line' : CommandLine}
    (hon : ∀ s, line'.groups.any (Group.isSwitch s) = line.groups.any (Group.isSwitch s))
    (htexts : line'.texts = line.texts) (hvalues : ∀ s, line'.values s = line.values s) :
    line'.options = line.options := by
  rw [options, options, funext hon, htexts, funext hvalues]

theorem options_reordered (h : Group.Reordered groups groups') :
    options ⟨groups', rest⟩ = options ⟨groups, rest⟩ :=
  options_eq (fun _ => h.perm.any_eq) (by rw [texts, texts, h.texts]) h.values

theorem options_respelled (h : List.Forall₂ Group.Respelled groups groups') :
    options ⟨groups', rest⟩ = options ⟨groups, rest⟩ := by
  refine options_eq (fun s => ?_) ?_ fun s => ?_
  · have hmap := Group.map_eq_of_respelled h (f := Group.isSwitch s) fun hg => by cases hg <;> rfl
    simpa [List.any_map] using (congrArg (List.any · id) hmap).symm
  · have hmap := Group.map_eq_of_respelled h (f := Group.text?) fun hg => by cases hg <;> rfl
    have htexts := congrArg (List.filterMap id) hmap
    rw [List.filterMap_map, List.filterMap_map] at htexts
    rw [texts, texts]
    exact congrArg (· ++ rest.getD []) htexts.symm
  · have hmap := Group.map_eq_of_respelled h (f := Group.value? s) fun hg => by cases hg <;> rfl
    have hvalues := congrArg (List.filterMap id) hmap
    rw [List.filterMap_map, List.filterMap_map] at hvalues
    exact hvalues.symm

theorem accepted_reordered (h : Group.Reordered groups groups') (haccepted : Accepted ⟨groups, rest⟩) :
    Accepted ⟨groups', rest⟩ :=
  fun g hg => haccepted g (h.perm.mem_iff.mp hg)

theorem accepted_respelled (h : List.Forall₂ Group.Respelled groups groups') (haccepted : Accepted ⟨groups, rest⟩) :
    Accepted ⟨groups', rest⟩ := by
  rw [accepted_iff_map] at haccepted ⊢
  rwa [← Group.map_eq_of_respelled h fun hg => by cases hg <;> rfl]

end CommandLine

/-- A list of arguments that is accepted is one command line and no other, and asks for what this says: the switches
    that occur, the first positional argument as the expression and the others as files, and the last value of each
    setting. Neither the order of its groups matters, as long as positional arguments and the values of each setting
    keep theirs, nor whether values are joined to their long flags. -/
theorem Options.parse_rearranged {args : List (List Char)} {o : Options} (h : Options.parse args = .ok o) :
    ∃ line : CommandLine, (∀ line' : CommandLine, line'.args = args ↔ line' = line) ∧ o = line.options ∧
      ∀ groups groups', Argument.Group.Reordered line.groups groups →
        List.Forall₂ Argument.Group.Respelled groups groups' →
        Options.parse (CommandLine.args ⟨groups', line.rest⟩) = .ok o := by
  obtain ⟨line, rfl⟩ := CommandLine.exists_of_parse h
  obtain ⟨haccepted, rfl⟩ := CommandLine.parse_args_eq_ok_iff.mp h
  refine ⟨line, fun line' => ⟨CommandLine.eq_of_args_eq, fun hline => by rw [hline]⟩, rfl, ?_⟩
  intro groups groups' hreordered hrespelled
  rw [CommandLine.parse_args_eq_ok_iff]
  have hmoved := CommandLine.accepted_reordered line.rest hreordered haccepted
  refine ⟨CommandLine.accepted_respelled line.rest hrespelled hmoved, ?_⟩
  rw [CommandLine.options_respelled line.rest hrespelled, CommandLine.options_reordered line.rest hreordered]

theorem Options.parse_rearranged_output :
    let o : Options := { expression := some "{A}.T".toList, files := ["-n".toList], output := some "D.npy".toList }
    Options.parse (["-o", "C.npy", "{A}.T", "--output=D.npy", "--", "-n"].map String.toList) = .ok o ∧
      Options.parse (["{A}.T", "-o", "C.npy", "--output", "D.npy", "--", "-n"].map String.toList) = .ok o := by
  intro o
  have hparse : Options.parse (["-o", "C.npy", "{A}.T", "--output=D.npy", "--", "-n"].map String.toList) = .ok o := rfl
  obtain ⟨line, hline, -, hrearranged⟩ := parse_rearranged hparse
  let first : Argument.Group := .setting "-o".toList "C.npy".toList .output (by decide)
  let expression : Argument.Group := .positional "{A}.T".toList (by decide)
  let joined : Argument.Group := .joined "--output".toList "D.npy".toList .output (by decide) (by decide)
  let apart : Argument.Group := .setting "--output".toList "D.npy".toList .output (by decide)
  have hgroups : CommandLine.mk [first, expression, joined] (some ["-n".toList]) = line := (hline _).mp rfl
  rw [← hgroups] at hrearranged
  have hreordered : Argument.Group.Reordered [first, expression, joined] [expression, first, joined] :=
    ⟨.swap _ _ _, rfl, fun s => by cases s <;> rfl⟩
  have hrespelled : List.Forall₂ Argument.Group.Respelled [expression, first, joined] [expression, first, apart] :=
    .cons (.same _) (.cons (.same _) (.cons (.part _ _) .nil))
  exact ⟨hparse, hrearranged _ _ hreordered hrespelled⟩

end ArrayCalc
