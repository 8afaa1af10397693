import ArrayCalc.Proofs.Eval.Evaluate
import ArrayCalc.Proofs.Expr.Reading
import ArrayCalc.Proofs.Input.Load

namespace ArrayCalc

/-- A computation whose outcome no sample has a part in: it draws none. -/
def Steady {α : Type} (x : Draw α) : Prop :=
  ∃ outcome : Except Failure α, x = liftM outcome

theorem steady_lift {α : Type} (x : Except Failure α) : Steady (liftM x : Draw α) :=
  ⟨x, rfl⟩

theorem steady_pure {α : Type} (a : α) : Steady (pure a : Draw α) :=
  ⟨.ok a, rfl⟩

theorem Steady.bind {α β : Type} {x : Draw α} {f : α → Draw β} (hx : Steady x) (hf : ∀ a, Steady (f a)) :
    Steady (x >>= f) := by
  obtain ⟨outcome, rfl⟩ := hx
  cases outcome with
  | error failure => exact ⟨.error failure, rfl⟩
  | ok a => exact hf a

/-- A value that does not depend on samples is the same however many were drawn before. -/
theorem Steady.eq_pure {α : Type} {x : Draw α} (hx : Steady x) {a : α} {drawn next : Nat}
    (h : x drawn = .ok (a, next)) : x = pure a := by
  obtain ⟨outcome, rfl⟩ := hx
  rw [draw_lift_eq_ok_iff] at h
  obtain ⟨rfl, -⟩ := h
  rfl

namespace Builtin

variable {host : Host}

theorem steady_apply {f : Builtin} (hf : f ≠ rand) (args : List Value) : Steady (f.apply host args) := by
  unfold apply
  refine (steady_lift _).bind fun result => ?_
  split
  · contradiction
  · exact steady_pure _

theorem steady_call {name : String} (hname : name ≠ rand.name) (args : List Value) :
    Steady (call host name args) := by
  unfold call
  cases hfind : ofName? name with
  | none => exact steady_lift _
  | some f =>
    have hf : f ≠ rand := by
      rintro rfl
      exact hname (name_of_ofName? hfind).symm
    dsimp only
    split
    · exact steady_lift _
    · have happly : Steady (f.apply host args) := steady_apply hf args
      obtain ⟨outcome, houtcome⟩ := happly
      rw [houtcome]
      cases outcome with
      | ok r => exact ⟨.ok r, rfl⟩
      | error failure =>
        cases failure with
        | evaluation e => exact ⟨.error (.evaluation e), rfl⟩
        | fault fault => exact ⟨complain (.numeric f.name fault), rfl⟩
        | endless => exact ⟨.error .endless, rfl⟩

end Builtin

namespace Expr

mutual

/-- A call of the function that draws samples stands somewhere in the expression. -/
def draws : Expr → Bool
  | constant _ | placeholder _ => false
  | unary _ operand => operand.draws
  | binary _ left right => left.draws || right.draws
  | call name args => name == Builtin.rand.name || drawsAny args

def drawsAny : List Expr → Bool
  | [] => false
  | arg :: args => arg.draws || drawsAny args

end

mutual

/-- The names of the placeholders in an expression, from left to right. -/
def placeholders : Expr → List String
  | constant _ => []
  | placeholder name => [name]
  | unary _ operand => operand.placeholders
  | binary _ left right => left.placeholders ++ right.placeholders
  | call _ args => placeholdersOfAll args

def placeholdersOfAll : List Expr → List String
  | [] => []
  | arg :: args => arg.placeholders ++ placeholdersOfAll args

end

mutual

/-- The expression with another one in place of every placeholder whose name is picked. -/
def replace (picks : String → Bool) : Expr → Expr → Expr
  | constant value, _ => .constant value
  | placeholder name, operand => if picks name then operand else .placeholder name
  | unary op e, operand => .unary op (e.replace picks operand)
  | binary op left right, operand => .binary op (left.replace picks operand) (right.replace picks operand)
  | call name args, operand => .call name (replaceAll picks args operand)

def replaceAll (picks : String → Bool) : List Expr → Expr → List Expr
  | [], _ => []
  | arg :: args, operand => arg.replace picks operand :: replaceAll picks args operand

end

section

variable {picks picks' : String → Bool} (operand : Expr)

-- what is picked among names that do not occur makes no difference
mutual

theorem replace_congr : (e : Expr) → (∀ name ∈ e.placeholders, picks name = picks' name) →
    e.replace picks operand = e.replace picks' operand
  | constant value, _ => rfl
  | placeholder name, h => by rw [replace, replace, h name (by simp [placeholders])]
  | unary op e, h => by rw [replace, replace, replace_congr e h]
  | binary op left right, h => by
    rw [placeholders] at h
    rw [replace, replace, replace_congr left fun name hname => h name (List.mem_append_left _ hname),
      replace_congr right fun name hname => h name (List.mem_append_right _ hname)]
  | call name args, h => by rw [replace, replace, replaceAll_congr args h]

theorem replaceAll_congr : (args : List Expr) → (∀ name ∈ placeholdersOfAll args, picks name = picks' name) →
    replaceAll picks args operand = replaceAll picks' args operand
  | [], _ => rfl
  | arg :: args, h => by
    rw [placeholdersOfAll] at h
    rw [replaceAll, replaceAll, replace_congr arg fun name hname => h name (List.mem_append_left _ hname),
      replaceAll_congr args fun name hname => h name (List.mem_append_right _ hname)]

end

end

/-- Every name in a list belongs to a letter. -/
def AllLetters (names : List String) : Prop :=
  ∀ name ∈ names, ∃ c, name = String.singleton c

theorem AllLetters.append {names others : List String} (h : AllLetters names) (hothers : AllLetters others) :
    AllLetters (names ++ others) := by
  intro name hname
  rcases List.mem_append.mp hname with hname | hname
  · exact h name hname
  · exact hothers name hname

theorem allLetters_singleton (c : Char) : AllLetters [String.singleton c] :=
  fun _ hname => ⟨c, List.mem_singleton.mp hname⟩

section

open Grammar

-- one case for each rule: only that of a placeholder names one
mutual

theorem allLetters_expression {ts : List (List Char)} {e : Expr} : Expression ts e → AllLetters e.placeholders
  | .term h => allLetters_term h
  | .sum _ hl hr => (allLetters_expression hl).append (allLetters_term hr)

theorem allLetters_term {ts : List (List Char)} {e : Expr} : Term ts e → AllLetters e.placeholders
  | .power h => allLetters_power h
  | .product _ hl hr => (allLetters_term hl).append (allLetters_power hr)

theorem allLetters_power {ts : List (List Char)} {e : Expr} : Power ts e → AllLetters e.placeholders
  | .factor h => allLetters_factor h
  | .raised hb he => (allLetters_factor hb).append (allLetters_factor he)

theorem allLetters_factor {ts : List (List Char)} {e : Expr} : Factor ts e → AllLetters e.placeholders
  | .group h => allLetters_expression h
  | .call _ h => allLetters_arguments h
  | .placeholder _ => allLetters_singleton _
  | .transposed _ => allLetters_singleton _
  | .literal _ => nofun
  | .negated h => by
    rw [placeholders]
    exact allLetters_factor h

theorem allLetters_arguments {ts : List (List Char)} {es : List Expr} :
    Arguments ts es → AllLetters (placeholdersOfAll es)
  | .none => nofun
  | .some h hmore => (allLetters_expression h).append (allLetters_moreArguments hmore)

theorem allLetters_moreArguments {ts : List (List Char)} {es : List Expr} :
    MoreArguments ts es → AllLetters (placeholdersOfAll es)
  | .none => nofun
  | .some h hmore => (allLetters_expression h).append (allLetters_moreArguments hmore)

end

/-- No text writes a placeholder with the name of piped data. -/
theorem pipeName_not_mem_placeholders {ts : List (List Char)} {e : Expr} (h : Expression ts e) :
    Environment.pipeName ∉ e.placeholders := by
  intro hmem
  obtain ⟨c, hc⟩ := allLetters_expression h _ hmem
  exact Environment.singleton_ne_pipeName c hc.symm

end

section

variable {host : Host} {env : Environment}

-- one case for each constructor: only a call can draw, and only of one function
mutual

theorem steady_eval : (e : Expr) → e.draws = false → Steady (eval host env e)
  | constant x, _ => steady_pure _
  | placeholder name, _ => by
    rw [eval]
    split
    · exact steady_pure _
    · exact steady_lift _
  | unary op operand, h => by
    rw [eval]
    split
    · exact steady_lift _
    · exact (steady_eval operand h).bind fun r => (steady_lift _).bind fun v => steady_pure _
  | binary op left right, h => by
    rw [draws, Bool.or_eq_false_iff] at h
    rw [eval]
    split
    · exact steady_lift _
    · exact (steady_eval left h.1).bind fun r => (steady_lift _).bind fun a =>
        (steady_eval right h.2).bind fun r => (steady_lift _).bind fun b =>
          (steady_lift _).bind fun v => steady_pure _
  | call name args, h => by
    rw [draws, Bool.or_eq_false_iff, beq_eq_false_iff_ne] at h
    rw [eval]
    exact (steady_evalArguments args h.2 name 1).bind fun values => Builtin.steady_call h.1 values

theorem steady_evalArguments : (args : List Expr) → drawsAny args = false → (function : String) →
    (position : Nat) → Steady (evalArguments host env function position args)
  | [], _, _, _ => steady_pure _
  | arg :: args, h, function, position => by
    rw [drawsAny, Bool.or_eq_false_iff] at h
    rw [evalArguments]
    exact (steady_eval arg h.1).bind fun r => (steady_lift _).bind fun v =>
      (steady_evalArguments args h.2 function (position + 1)).bind fun vs => steady_pure _

end

end

end Expr

namespace Environment

/-- From one environment to the other, the picked placeholders come to stand for an array, and the others keep
    what they stand for. -/
structure Rebinds (env env' : Environment) (picks : String → Bool) (t : Tensor Float) : Prop where
  picked : ∀ name, picks name = true → env'.resolve? name = some t
  kept : ∀ name, picks name = false → env'.resolve? name = env.resolve? name

end Environment

namespace Expr

section

variable {host : Host} {env env' : Environment} {picks : String → Bool} {t : Tensor Float} {operand : Expr}

theorem eval_replace_placeholder (henv : env.Rebinds env' picks t)
    (hoperand : eval host env operand = pure (.array t)) (name : String) :
    eval host env ((placeholder name).replace picks operand) = eval host env' (.placeholder name) := by
  rw [replace, eval]
  cases hname : picks name with
  | true =>
    rw [if_pos rfl, henv.picked name hname]
    exact hoperand
  | false =>
    rw [if_neg Bool.false_ne_true, eval, henv.kept name hname]

mutual

/-- An expression in place of placeholders has the effect of what it stands for. -/
theorem eval_replace (henv : env.Rebinds env' picks t) (hoperand : eval host env operand = pure (.array t)) :
    (e : Expr) → eval host env (e.replace picks operand) = eval host env' e
  | constant x => by rw [replace, eval, eval]
  | placeholder name => eval_replace_placeholder henv hoperand name
  | unary op e => by rw [replace, eval, eval, eval_replace henv hoperand e]
  | binary op left right => by
    rw [replace, eval, eval, eval_replace henv hoperand left, eval_replace henv hoperand right]
  | call name args => by rw [replace, eval, eval, evalArguments_replaceAll henv hoperand args name 1]

theorem evalArguments_replaceAll (henv : env.Rebinds env' picks t)
    (hoperand : eval host env operand = pure (.array t)) :
    (args : List Expr) → (function : String) → (position : Nat) →
      evalArguments host env function position (replaceAll picks args operand) =
        evalArguments host env' function position args
  | [], _, _ => by rw [replaceAll, evalArguments_nil, evalArguments_nil]
  | arg :: args, function, position => by
    rw [replaceAll, evalArguments, evalArguments, eval_replace henv hoperand arg,
      evalArguments_replaceAll henv hoperand args function (position + 1)]

end

end

/-- An expression that draws no samples and has an array as its value has it whatever was drawn before. -/
theorem eval_eq_pure {host : Host} {env : Environment} {e : Expr} {r : Result} (hdraws : e.draws = false)
    (h : e.evaluate host env = .ok r) : eval host env e = pure r := by
  obtain ⟨next, heval⟩ := evaluate_eq_ok_iff.mp h
  exact (steady_eval e hdraws).eq_pure heval

end Expr

namespace Environment

/-- The name that the placeholder of a letter is bound under: that of piped data for its letter. -/
def key (c : Char) : String :=
  if c = 'P' then pipeName else String.singleton c

/-- Whether a name means the placeholder of a letter. Piped data is meant by its own name, too. -/
def means (c : Char) (name : String) : Bool :=
  name == String.singleton c || name == key c

theorem means_of_ne {c : Char} (hc : c ≠ 'P') (name : String) : means c name = (name == String.singleton c) := by
  rw [means, key, if_neg hc, Bool.or_self]

theorem means_of_ne_pipeName {name : String} (hname : name ≠ pipeName) (c : Char) :
    means c name = (name == String.singleton c) := by
  by_cases hc : c = 'P'
  · have hpipe : (name == pipeName) = false := by simpa using hname
    rw [means, key, if_pos hc, hpipe, Bool.or_false]
  · exact means_of_ne hc name

theorem resolve?_of_ne {env : Environment} {name : String} (h : name ≠ pipeLetter) :
    env.resolve? name = env.find? name := by
  rw [resolve?, if_neg fun hand => h hand.1]

/-- Piped data is meant by its letter and by its name. -/
theorem PipedInto.rebinds {env env' : Environment} {t : Tensor Float} (h : env.PipedInto env' (some t)) :
    env.Rebinds env' (means 'P') t := by
  refine ⟨fun name hname => ?_, fun name hname => ?_⟩
  · simp only [means, Bool.or_eq_true, beq_iff_eq] at hname
    rcases hname with rfl | rfl
    · have hletter : String.singleton 'P' = pipeLetter := rfl
      rw [resolve?, if_pos ⟨hletter, by rw [h.1, Option.isSome_some]⟩]
      exact h.1
    · rw [resolve?_of_ne (by decide)]
      exact h.1
  · simp only [means, Bool.or_eq_false_iff, beq_eq_false_iff_ne] at hname
    rw [resolve?_of_ne hname.1, resolve?_of_ne hname.1]
    exact h.2 name hname.2

/-- A letter means its matrix unless there is piped data that it stands for. -/
theorem rebinds_letter {env : Environment} {c : Char} (hfree : c = 'P' → env.find? pipeName = none) (t : Tensor Float) :
    env.Rebinds (env.insert (String.singleton c) t) (· == String.singleton c) t := by
  have hpiped : (env.insert (String.singleton c) t).find? pipeName = env.find? pipeName := by
    rw [find?_insert, if_neg (singleton_ne_pipeName c).symm]
  refine ⟨fun name hname => ?_, fun name hname => ?_⟩
  · rw [beq_iff_eq.mp hname, resolve?, hpiped, if_neg, find?_insert, if_pos rfl]
    rintro ⟨hletter, hsome⟩
    by_cases hc : c = 'P'
    · rw [hfree hc] at hsome
      contradiction
    · exact singleton_ne_pipeLetter hc hletter
  · rw [resolve?, resolve?, hpiped, find?_insert, if_neg (beq_eq_false_iff_ne.mp hname)]

theorem rebinds_insert (env : Environment) (c : Char) (t : Tensor Float) :
    env.Rebinds (env.insert (key c) t) (means c) t := by
  by_cases hc : c = 'P'
  · subst hc
    refine PipedInto.rebinds ⟨?_, fun name hname => ?_⟩
    · exact (find?_insert env pipeName pipeName t).trans (if_pos rfl)
    · exact (find?_insert env pipeName name t).trans (if_neg hname)
  · have hkey : key c = String.singleton c := if_neg hc
    have hmeans : means c = (· == String.singleton c) := funext (means_of_ne hc)
    rw [hkey, hmeans]
    exact rebinds_letter (fun h => absurd h hc) t

end Environment

namespace Expr

open Environment

/-- An expression in place of the placeholder of a letter has the outcome of that placeholder bound to its array,
    errors included, when it draws no samples. Piped data has a name besides its letter, which no text can write;
    with that name, the same holds of every tree. So an evaluation can be split in two, the second of which is given
    the array as piped data or in a file. -/
theorem evaluate_replace {host : Host} {env : Environment} {e' : Expr} {t : Tensor Float}
    (hdraws : e'.draws = false) (h : e'.evaluate host env = .ok (.array t)) (c : Char) (e : Expr) :
    ((c = 'P' → pipeName ∉ e.placeholders) →
        (e.replace (· == String.singleton c) e').evaluate host env = e.evaluate host (env.insert (key c) t)) ∧
      (∀ texts, Parser.parse texts = .ok e → pipeName ∉ e.placeholders) ∧
      (e.replace (means c) e').evaluate host env = e.evaluate host (env.insert (key c) t) ∧
      ∀ (store : FileStore) (piped : Option (Tensor Float)) (paths : List Path),
        load store piped paths = .ok env →
          (∃ env', load store (some t) paths = .ok env' ∧
            (e.replace (means 'P') e').evaluate host env = e.evaluate host env') ∧
          ∀ path, (c = 'P' → piped = none) → placeholderOf store path = .ok (String.singleton c) →
            readArray store path = .ok t →
              ∃ env', load store piped (paths ++ [path]) = .ok env' ∧
                (e.replace (· == String.singleton c) e').evaluate host env = e.evaluate host env' := by
  have hpure := eval_eq_pure hdraws h
  have heval {picks : String → Bool} {env' : Environment} (henv : env.Rebinds env' picks t) :
      (e.replace picks e').evaluate host env = e.evaluate host env' := by
    rw [evaluate, evaluate, eval_replace henv hpure]
  have hmeans := heval (rebinds_insert env c t)
  refine ⟨fun hpipe => ?_, fun texts hparse => ?_, hmeans, fun store piped paths hload => ⟨?_, ?_⟩⟩
  · rw [← hmeans]
    refine congrArg (evaluate host env) (replace_congr e' e fun name hname => ?_)
    by_cases hc : c = 'P'
    · exact (means_of_ne_pipeName (fun hsame => hpipe hc (hsame ▸ hname)) c).symm
    · exact (means_of_ne hc name).symm
  · exact pipeName_not_mem_placeholders (Parser.expression_of_parse hparse)
  · obtain ⟨env', hload', hpiped⟩ := load_piped hload (some t)
    exact ⟨env', hload', heval hpiped.rebinds⟩
  · intro path hfree hname hread
    refine ⟨_, load_append hload hname hread, heval (rebinds_letter (fun hc => ?_) t)⟩
    rw [find?_pipeName_of_load hload, hfree hc]

/-- The diagonal matrix of the diagonal of a matrix, in one evaluation and in two. -/
theorem evaluate_replace_diagonal :
    let host : Host := ⟨fun _ => 0, ⟨4, by decide, 4⟩⟩
    let square : Tensor Float := ⟨[2, 2], #[1, 2, 3, 4]⟩
    let row : Tensor Float := ⟨[2], #[1, 4]⟩
    let diagonal : Expr := .call "diag" [.placeholder "P"]
    load ⟨[]⟩ (some square) [] = .ok ⟨[(pipeName, square)]⟩ ∧
      diagonal.draws = false ∧ diagonal.evaluate host ⟨[(pipeName, square)]⟩ = .ok (.array row) ∧
      ∃ env', load ⟨[]⟩ (some row) [] = .ok env' ∧
        (Expr.call "diag" [diagonal]).evaluate host ⟨[(pipeName, square)]⟩ =
          diagonal.evaluate host env' := by
  intro host square row diagonal
  have hload : load ⟨[]⟩ (some square) [] = .ok ⟨[(pipeName, square)]⟩ := rfl
  have heval : diagonal.evaluate host ⟨[(pipeName, square)]⟩ = .ok (.array row) := by rfl
  obtain ⟨hpiped, _⟩ := (evaluate_replace rfl heval 'P' diagonal).2.2.2 ⟨[]⟩ (some square) [] hload
  exact ⟨hload, rfl, heval, hpiped⟩

end Expr

end ArrayCalc
