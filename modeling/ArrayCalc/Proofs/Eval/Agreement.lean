import ArrayCalc.Proofs.Eval.Substitution

namespace ArrayCalc

namespace Environment

/-- Two environments bind the placeholders of the given names alike, or both of them not at all. For the letter of piped
    data that means its name, and the letter itself only when nothing is piped. -/
structure AgreeOn (env env' : Environment) (names : List String) : Prop where
  matrices : ∀ name ∈ names, name ≠ pipeLetter → env.find? name = env'.find? name
  piped : pipeLetter ∈ names → env.find? pipeName = env'.find? pipeName
  unpiped : pipeLetter ∈ names → env.find? pipeName = none → env.find? pipeLetter = env'.find? pipeLetter

variable {env env' : Environment} {names : List String} {name : String}

theorem AgreeOn.resolve?_eq (h : env.AgreeOn env' names) (hname : name ∈ names) :
    env.resolve? name = env'.resolve? name := by
  by_cases hletter : name = pipeLetter
  · subst hletter
    have hpiped := h.piped hname
    cases hfind : env.find? pipeName with
    | none =>
      rw [hfind] at hpiped
      rw [resolve?, resolve?, hfind, ← hpiped, if_neg (by simp), if_neg (by simp)]
      exact h.unpiped hname hfind
    | some t =>
      rw [hfind] at hpiped
      rw [resolve?, resolve?, hfind, ← hpiped]
      simp
  · rw [resolve?_of_ne hletter, resolve?_of_ne hletter]
    exact h.matrices name hname hletter

theorem pipeLetter_ne_pipeName : pipeLetter ≠ pipeName := by
  decide

/-- A binding that no placeholder looks for is not noticed. -/
theorem agreeOn_insert (hname : name ∉ names) (hpipe : name = pipeName → pipeLetter ∉ names) (t : Tensor Float) :
    (env.insert name t).AgreeOn env names := by
  have hkept {other : String} (hother : other ≠ name) : (env.insert name t).find? other = env.find? other := by
    rw [find?_insert, if_neg hother]
  have hne {other : String} (hother : other ∈ names) : other ≠ name := fun h => hname (h ▸ hother)
  exact ⟨fun other hother _ => hkept (hne hother), fun hletter => hkept fun h => hpipe h.symm hletter,
    fun hletter _ => hkept (hne hletter)⟩

/-- The matrix of the letter of piped data is not noticed where data is piped in. -/
theorem agreeOn_insert_pipeLetter (hpiped : (env.find? pipeName).isSome) (t : Tensor Float) :
    (env.insert pipeLetter t).AgreeOn env names := by
  have hkept {other : String} (hother : other ≠ pipeLetter) :
      (env.insert pipeLetter t).find? other = env.find? other := by
    rw [find?_insert, if_neg hother]
  refine ⟨fun other _ hother => hkept hother, fun _ => hkept pipeLetter_ne_pipeName.symm, fun _ hnone => ?_⟩
  rw [hkept pipeLetter_ne_pipeName.symm] at hnone
  rw [hnone] at hpiped
  contradiction

end Environment

namespace Expr

open Environment

section

variable {host : Host} {env env' : Environment}

-- environments are consulted by the case of a placeholder alone
mutual

/-- An expression is evaluated alike where its placeholders stand for the same. -/
theorem eval_congr : (e : Expr) → (∀ name ∈ e.placeholders, env.resolve? name = env'.resolve? name) →
    eval host env e = eval host env' e
  | constant x, _ => by rw [eval, eval]
  | placeholder name, h => by rw [eval, eval, h name (by simp [placeholders])]
  | unary op e, h => by rw [eval, eval, eval_congr e h]
  | binary op left right, h => by
    rw [placeholders] at h
    rw [eval, eval, eval_congr left fun name hname => h name (List.mem_append_left _ hname),
      eval_congr right fun name hname => h name (List.mem_append_right _ hname)]
  | call name args, h => by rw [eval_call_eq, eval_call_eq, evalArguments_congr args h name 1]

theorem evalArguments_congr : (args : List Expr) →
    (∀ name ∈ placeholdersOfAll args, env.resolve? name = env'.resolve? name) → (function : String) → (position : Nat) →
      evalArguments host env function position args = evalArguments host env' function position args
  | [], _, _, _ => by rw [evalArguments_nil, evalArguments_nil]
  | arg :: args, h, function, position => by
    rw [placeholdersOfAll] at h
    rw [evalArguments, evalArguments, eval_congr arg fun name hname => h name (List.mem_append_left _ hname),
      evalArguments_congr args (fun name hname => h name (List.mem_append_right _ hname)) function (position + 1)]

end

theorem evaluate_congr {e : Expr} (h : env.AgreeOn env' e.placeholders) :
    e.evaluate host env = e.evaluate host env' := by
  rw [evaluate, evaluate, eval_congr e fun name hname => h.resolve?_eq hname]

end

/-- Environments that agree on the placeholders of an expression give it the same outcome, errors included. So an array
    that no placeholder stands for has no influence, and neither has a matrix with the letter of piped data where there
    is some. -/
theorem evaluate_of_agreeOn (host : Host) (e : Expr) :
    (∀ env env', env.AgreeOn env' e.placeholders → e.evaluate host env = e.evaluate host env') ∧
      (∀ env name t, name ∉ e.placeholders → (name = pipeName → pipeLetter ∉ e.placeholders) →
        e.evaluate host (env.insert name t) = e.evaluate host env) ∧
      ∀ env t, (env.find? pipeName).isSome →
        e.evaluate host (env.insert pipeLetter t) = e.evaluate host env :=
  ⟨fun _ _ h => evaluate_congr h, fun _ _ t hname hpipe => evaluate_congr (agreeOn_insert hname hpipe t),
    fun _ t hpiped => evaluate_congr (agreeOn_insert_pipeLetter hpiped t)⟩

/-- Piped data and a matrix decide a product, and neither an unused matrix nor one called like piped data does. -/
theorem evaluate_of_agreeOn_product :
    let host : Host := ⟨fun _ => 0, ⟨4, by decide, 4⟩⟩
    let row : Tensor Float := ⟨[2], #[1, 2]⟩
    let square : Tensor Float := ⟨[2, 2], #[1, 2, 3, 4]⟩
    let product : Expr := .binary "@" (.placeholder "A") (.placeholder "P")
    let env : Environment := ⟨[(pipeName, row), ("A", square)]⟩
    let env' : Environment := ⟨[("P", square), ("B", row), ("A", square), (pipeName, row)]⟩
    (env.AgreeOn env' product.placeholders ∧
        product.evaluate host env = product.evaluate host env') ∧
      ("B" ∉ product.placeholders ∧
        product.evaluate host (env.insert "B" row) = product.evaluate host env) ∧
      (env.find? pipeName).isSome ∧
        product.evaluate host (env.insert pipeLetter square) = product.evaluate host env := by
  intro host row square product env env'
  have hagree : env.AgreeOn env' product.placeholders := by
    refine ⟨fun name hname hletter => ?_, fun _ => rfl, fun _ hnone => ?_⟩
    · obtain rfl | rfl : name = "A" ∨ name = "P" := by simpa [product, placeholders] using hname
      · rfl
      · contradiction
    · cases hnone
  have hunused : "B" ∉ product.placeholders := by
    decide
  obtain ⟨hcongr, hinsert, hpiped⟩ := evaluate_of_agreeOn host product
  exact ⟨⟨hagree, hcongr env env' hagree⟩, ⟨hunused, hinsert env "B" row hunused (by decide)⟩, rfl,
    hpiped env square rfl⟩

end Expr

end ArrayCalc
