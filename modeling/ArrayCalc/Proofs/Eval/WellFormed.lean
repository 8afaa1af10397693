import ArrayCalc.Proofs.Eval.Evaluate
import ArrayCalc.Proofs.Eval.Functions

namespace ArrayCalc

namespace Environment

/-- Every placeholder stands for a well-formed array. -/
def WellFormed (env : Environment) : Prop :=
  ∀ name t, env.find? name = some t → t.WellFormed

theorem WellFormed.resolve? {env : Environment} (henv : env.WellFormed) {name : String} {t : Tensor Float}
    (h : env.resolve? name = some t) : t.WellFormed := by
  unfold Environment.resolve? at h
  split at h
  · exact henv _ _ h
  · exact henv _ _ h

end Environment

namespace Builtin

variable {host : Host}

theorem shape_drawInto {t u : Tensor Float} {drawn next : Nat} (h : drawInto host.samples t drawn = .ok (u, next)) :
    u.shape = t.shape ∧ u.data.size = t.data.size := by
  rw [drawInto, draw_bind_eq_ok_iff] at h
  obtain ⟨start, _, _, h⟩ := h
  rw [draw_pure_eq_ok_iff] at h
  obtain ⟨rfl, _⟩ := h
  simp

theorem gives_apply {f : Builtin} {args : List Value} (hargs : ∀ v ∈ args, v.WellFormed) {drawn next : Nat}
    {r : Result} (h : f.apply host args drawn = .ok (r, next)) : f.Gives args r := by
  rw [apply, draw_bind_eq_ok_iff] at h
  obtain ⟨r', _, hpure, h⟩ := h
  rw [draw_lift_eq_ok_iff] at hpure
  obtain ⟨hpure, rfl⟩ := hpure
  have hgives := gives_pureValue hargs hpure
  split at h
  · rename_i t
    rw [draw_bind_eq_ok_iff] at h
    obtain ⟨u, _, hdraw, h⟩ := h
    rw [draw_pure_eq_ok_iff] at h
    obtain ⟨rfl, _⟩ := h
    obtain ⟨hshape, hsize⟩ := shape_drawInto hdraw
    have ht : t.data.size = t.shape.size := hgives.1
    refine gives_array (by decide) args ?_
    rw [Tensor.WellFormed, hshape, hsize, ht]
  · rw [draw_pure_eq_ok_iff] at h
    obtain ⟨rfl, _⟩ := h
    exact hgives

theorem gives_call {name : String} {args : List Value} (hargs : ∀ v ∈ args, v.WellFormed) {drawn next : Nat}
    {r : Result} (h : call host name args drawn = .ok (r, next)) :
    ∃ f, ofName? name = some f ∧ f.signature.least ≤ args.length ∧ args.length ≤ f.signature.most ∧
      f.Gives args r := by
  cases hname : ofName? name with
  | none =>
    rw [call, hname] at h
    cases h
  | some f =>
    rw [call, hname] at h
    dsimp only at h
    by_cases hcount : args.length < f.signature.least ∨ f.signature.most < args.length
    · rw [if_pos hcount] at h
      cases h
    · rw [if_neg hcount] at h
      rw [not_or, Nat.not_lt, Nat.not_lt] at hcount
      refine ⟨f, rfl, hcount.1, hcount.2, ?_⟩
      cases happly : f.apply host args drawn with
      | error failure =>
        rw [happly] at h
        cases failure <;> cases h
      | ok outcome =>
        rw [happly] at h
        cases h
        exact gives_apply hargs happly

end Builtin

namespace Expr

variable {host : Host} {env : Environment}

/-- Whatever was drawn before, the value of the expression is well-formed. -/
def Sound (host : Host) (env : Environment) (e : Expr) : Prop :=
  ∀ (drawn next : Nat) (r : Result), eval host env e drawn = .ok (r, next) → r.WellFormed

def SoundArguments (host : Host) (env : Environment) (args : List Expr) : Prop :=
  ∀ (function : String) (position drawn next : Nat) (values : List Value),
    evalArguments host env function position args drawn = .ok (values, next) → ∀ v ∈ values, v.WellFormed

theorem Sound.unary {operand : Expr} (hoperand : Sound host env operand) (op : String) :
    Sound host env (.unary op operand) := by
  intro drawn next r h
  obtain ⟨f, v, hf, hv, rfl⟩ := eval_unary h
  exact wellFormed_of_unaryOperator? hf (hoperand _ _ _ hv)

theorem sound_binary (op : String) (left right : Expr) : Sound host env (.binary op left right) := by
  intro drawn next r h
  obtain ⟨f, a, b, mid, v, hf, _, _, hv, rfl⟩ := eval_binary h
  exact wellFormed_of_binaryOperator? hf hv

theorem SoundArguments.call {args : List Expr} (hargs : SoundArguments host env args) (name : String) :
    Sound host env (.call name args) := by
  intro drawn next r h
  obtain ⟨values, mid, hvalues, hcall⟩ := eval_call h
  obtain ⟨f, _, _, _, hgives⟩ := Builtin.gives_call (hargs _ _ _ _ _ hvalues) hcall
  exact hgives.1

theorem soundArguments_nil : SoundArguments host env [] := by
  intro function position drawn next values h v hv
  rw [evalArguments_nil, draw_pure_eq_ok_iff] at h
  rw [h.1] at hv
  cases hv

theorem Sound.cons {arg : Expr} {args : List Expr} (harg : Sound host env arg)
    (hargs : SoundArguments host env args) : SoundArguments host env (arg :: args) := by
  intro function position drawn next values h v hv
  obtain ⟨w, vs, mid, hw, hvs, rfl⟩ := evalArguments_cons h
  rcases List.mem_cons.mp hv with rfl | hv
  · exact harg _ _ _ hw
  · exact hargs _ _ _ _ _ hvs v hv

mutual

theorem sound (henv : env.WellFormed) : (e : Expr) → Sound host env e
  | constant x => fun _ _ _ h => by
    obtain ⟨rfl, _⟩ := eval_constant h
    trivial
  | placeholder name => fun _ _ _ h => by
    obtain ⟨t, ht, rfl, _⟩ := eval_placeholder h
    exact henv.resolve? ht
  | unary op operand => (sound henv operand).unary op
  | binary op left right => sound_binary op left right
  | call name args => (soundArguments henv args).call name

theorem soundArguments (henv : env.WellFormed) : (args : List Expr) → SoundArguments host env args
  | [] => soundArguments_nil
  | arg :: args => (sound henv arg).cons (soundArguments henv args)

end

/-- The functions whose calls give tuples. -/
def decompositions : List Builtin := [.svd, .eig, .qr, .lu]

theorem mem_decompositions {f : Builtin} {first : Builtin.Returns} (hfirst : first ≠ .tuple)
    (h : f.kindFor first = .tuple) : f ∈ decompositions := by
  revert hfirst h
  cases f <;> cases first <;> decide

theorem one_le_least (f : Builtin) : 1 ≤ f.signature.least := by
  cases f <;> decide

theorem most_of_mem_elementwise {f : Builtin} (h : f ∈ Builtin.elementwise) : f.signature.most = 1 := by
  revert h
  cases f <;> decide

/-- A call that gives a value gives it the kind for its first argument. -/
theorem kind_of_evaluate_call (henv : env.WellFormed) {name : String} {args : List Expr} {r : Result}
    (h : (call name args).evaluate host env = .ok r) :
    ∃ f arg rest v, Builtin.ofName? name = some f ∧ args = arg :: rest ∧ args.length ≤ f.signature.most ∧
      arg.evaluate host env = .ok (.value v) ∧ r.kind = f.kindFor v.kind := by
  rw [evaluate_eq_ok_iff] at h
  obtain ⟨next, h⟩ := h
  obtain ⟨values, mid, hvalues, hcall⟩ := eval_call h
  obtain ⟨f, hname, hleast, hmost, hgives⟩ :=
    Builtin.gives_call (soundArguments henv args _ _ _ _ _ hvalues) hcall
  have hlength := length_evalArguments hvalues
  have hone := one_le_least f
  cases args with
  | nil =>
    rw [List.length_nil] at hlength
    omega
  | cons arg rest =>
    obtain ⟨v, vs, _, hv, _, rfl⟩ := evalArguments_cons hvalues
    refine ⟨f, arg, rest, v, hname, rfl, ?_, evaluate_eq_ok_iff.mpr ⟨_, hv⟩, hgives.2 v rfl⟩
    rwa [← hlength]

theorem call_of_tuple (henv : env.WellFormed) {e : Expr} {items : List Value}
    (h : e.evaluate host env = .ok (.tuple items)) :
    ∃ f ∈ decompositions, ∃ args, e = .call f.name args := by
  cases e with
  | constant x =>
    obtain ⟨_, h⟩ := evaluate_eq_ok_iff.mp h
    exact nomatch (eval_constant h).1
  | placeholder name =>
    obtain ⟨_, h⟩ := evaluate_eq_ok_iff.mp h
    obtain ⟨t, _, heq, _⟩ := eval_placeholder h
    exact nomatch heq
  | unary op operand =>
    obtain ⟨_, h⟩ := evaluate_eq_ok_iff.mp h
    obtain ⟨f, v, _, _, heq⟩ := eval_unary h
    exact nomatch heq
  | binary op left right =>
    obtain ⟨_, h⟩ := evaluate_eq_ok_iff.mp h
    obtain ⟨f, a, b, mid, v, _, _, _, _, heq⟩ := eval_binary h
    exact nomatch heq
  | call name args =>
    obtain ⟨f, arg, rest, v, hname, _, _, _, hkind⟩ := kind_of_evaluate_call henv h
    refine ⟨f, mem_decompositions v.kind_ne_tuple hkind.symm, args, ?_⟩
    rw [Builtin.name_of_ofName? hname]

/-- Evaluation keeps arrays well-formed: where the placeholders stand for well-formed arrays, every array
    of a result is well-formed, at any place of a tuple too. Only a call of a decomposition gives a tuple,
    and all its components are arrays. A call gives what the function is declared to give, but the
    elementwise functions keep the kind of their argument. -/
theorem evaluate_wellFormed (host : Host) (env : Environment) (e : Expr) (r : Result)
    (henv : ∀ name t, env.find? name = some t → t.WellFormed) (h : e.evaluate host env = .ok r) :
    (∀ t, r = .array t → t.WellFormed) ∧
      (∀ items, r = .tuple items →
        (∀ item ∈ items, ∃ t : Tensor Float, item = .array t ∧ t.WellFormed) ∧
          ∃ f ∈ decompositions, ∃ args, e = .call f.name args) ∧
      (∀ f args, e = .call f.name args →
        if f ∈ Builtin.elementwise then
          ∃ arg v, args = [arg] ∧ arg.evaluate host env = .ok (.value v) ∧ r.kind = v.kind
        else r.kind = f.signature.returns) := by
  obtain ⟨next, heval⟩ := evaluate_eq_ok_iff.mp h
  have hsound := sound henv e _ _ _ heval
  refine ⟨?_, ?_, ?_⟩
  · rintro t rfl
    exact hsound
  · rintro items rfl
    exact ⟨hsound, call_of_tuple henv h⟩
  · rintro f args rfl
    obtain ⟨f', arg, rest, v, hname, hargs, hmost, hv, hkind⟩ := kind_of_evaluate_call henv h
    obtain rfl : f = f' := by rwa [Builtin.ofName?_name, Option.some.injEq] at hname
    unfold Builtin.kindFor at hkind
    by_cases helementwise : f ∈ Builtin.elementwise
    · rw [if_pos helementwise] at hkind ⊢
      rw [most_of_mem_elementwise helementwise, hargs, List.length_cons] at hmost
      have hrest : rest = [] := List.eq_nil_of_length_eq_zero (by omega)
      exact ⟨arg, v, by rw [hargs, hrest], hv, hkind⟩
    · rwa [if_neg helementwise] at hkind ⊢

/-- The diagonal of an array with two rows and two columns is well-formed. -/
theorem evaluate_wellFormed_diagonal :
    let host : Host := ⟨fun _ => 0, ⟨4, by decide, 4⟩⟩
    let env : Environment := ⟨[("A", ⟨[2, 2], #[1, 2, 3, 4]⟩)]⟩
    let e : Expr := .call "diag" [.placeholder "A"]
    e.evaluate host env = .ok (.array ⟨[2], #[1, 4]⟩) ∧
      (⟨[2], #[1, 4]⟩ : Tensor Float).WellFormed ∧ (Result.array ⟨[2], #[1, 4]⟩).kind = .array := by
  intro host env e
  have henv : ∀ name t, env.find? name = some t → t.WellFormed := by
    intro name t h
    simp only [env, Environment.find?, List.lookup] at h
    split at h
    · cases h
      rfl
    · cases h
  have heval : e.evaluate host env = .ok (.array ⟨[2], #[1, 4]⟩) := by rfl
  obtain ⟨harray, _, hkind⟩ := evaluate_wellFormed _ env e _ henv heval
  exact ⟨heval, harray _ rfl, hkind .diag _ rfl⟩

end Expr

end ArrayCalc
