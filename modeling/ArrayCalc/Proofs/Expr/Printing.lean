import ArrayCalc.Proofs.Expr.Lexing
import ArrayCalc.Proofs.Expr.Parsing
import ArrayCalc.Proofs.Number.Compact

namespace ArrayCalc.Lexer

open Number

theorem letterForPipe_of_notMem {cs : List Char} (h : '{' ∉ cs) : letterForPipe cs = cs := by
  induction cs with
  | nil => rfl
  | cons c cs ih =>
    rw [List.mem_cons, not_or] at h
    have hpattern : ¬ pipeBraces <+: c :: cs := by
      rintro ⟨rest, hrest⟩
      cases hrest
      exact h.1 rfl
    rw [letterForPipe_cons hpattern, ih h.2]

theorem dropBraces_of_notMem {cs : List Char} (h : '{' ∉ cs) : dropBraces cs = cs := by
  induction cs with
  | nil => rw [dropBraces]
  | cons c cs ih =>
    rw [List.mem_cons, not_or] at h
    rw [dropBraces_cons fun _ _ _ hc => absurd hc.symm h.1, ih h.2]

theorem unbrace_of_notMem {cs : List Char} (h : '{' ∉ cs) : unbrace cs = cs := by
  rw [unbrace, letterForPipe_of_notMem h, dropBraces_of_notMem h]

theorem spaceStructural_of_notMem {cs : List Char} (h : ∀ c ∈ cs, c ∉ structural) : spaceStructural cs = cs := by
  induction cs with
  | nil => rfl
  | cons c cs ih =>
    have htail := ih fun d hd => h d (List.mem_cons_of_mem c hd)
    rw [spaceStructural] at htail ⊢
    rw [List.flatMap_cons, if_neg (h c List.mem_cons_self), htail]
    rfl

/-- Digits have no point to set apart, and after them a point can begin a fraction. -/
theorem spaceDots_digits {ds : List Char} (hds : AllDigits ds) (rest : List Char) :
    spaceDots false (ds ++ rest) = ds ++ spaceDots false rest := by
  induction ds with
  | nil => rfl
  | cons d ds ih =>
    have hd : d.isDigit = true := hds d List.mem_cons_self
    have hdot : d ≠ '.' := by
      rintro rfl
      contradiction
    rw [List.cons_append, spaceDots, not_isNameChar_of_isDigit hd, ih fun c hc => hds c (List.mem_cons_of_mem d hc)]
    simp [hdot]

theorem spaceDots_allDigits {ds : List Char} (hds : AllDigits ds) : spaceDots false ds = ds := by
  have hall := spaceDots_digits hds []
  rwa [spaceDots, List.append_nil] at hall

theorem apart_of_isDigit {c : Char} (h : c.isDigit = true) :
    c ≠ '{' ∧ c ∉ structural ∧ Text.isBlank c = false := by
  refine ⟨?_, fun hmem => ?_, not_isBlank_of_isDigit h⟩
  · rintro rfl
    contradiction
  · rw [(unlike_of_structural hmem).2.1] at h
    contradiction

/-- A number that is written without an exponent is a token. -/
theorem tokens_positional {cs : List Char} {d : Decimal} (h : Positional cs d) : tokens cs = [cs] := by
  have hchars : ∀ c ∈ cs, c.isDigit = true ∨ c = '.' := by
    cases h with
    | whole hds _ => exact fun c hc => .inl (hds c hc)
    | point hds hps _ _ =>
      intro c hc
      rw [List.mem_append, List.mem_cons] at hc
      rcases hc with hc | hc | hc
      · exact .inl (hds c hc)
      · exact .inr hc
      · exact .inl (hps c hc)
  have hapart : ∀ c ∈ cs, c ≠ '{' ∧ c ∉ structural ∧ Text.isBlank c = false := by
    intro c hc
    rcases hchars c hc with hdigit | rfl
    · exact apart_of_isDigit hdigit
    · decide
  have hdots : spaceDots false cs = cs := by
    cases h with
    | whole hds _ => exact spaceDots_allDigits hds
    | @point ds ps hds hps _ hback =>
      cases ps with
      | nil => contradiction
      | cons p ps =>
        have hp : p.isDigit = true := hps p List.mem_cons_self
        have hname : isNameChar '.' = false := by decide
        rw [spaceDots_digits hds, spaceDots, hname, spaceDots_allDigits hps]
        simp [hp]
  have hne : cs ≠ [] := by
    cases h with
    | whole _ hne => exact hne
    | point => simp
  rw [tokens, unbrace_of_notMem fun hmem => (hapart _ hmem).1 rfl, spaceStructural_of_notMem fun c hc => (hapart c hc).2.1,
    hdots, Text.words_of_not_isBlank hne fun c hc => (hapart c hc).2.2]

section

variable {c : Char} (hc : isUpper c = true)

include hc

theorem spaceStructural_letter (rest : List Char) : spaceStructural (c :: rest) = c :: spaceStructural rest := by
  have hstructural : c ∉ structural := by
    intro hmem
    rw [(apart_of_structural hmem).2.2] at hc
    contradiction
  rw [spaceStructural, List.flatMap_cons, if_neg hstructural]
  rfl

theorem words_letter : Text.words [c] = [[c]] :=
  Text.words_of_not_isBlank (List.cons_ne_nil _ _) (by simpa using not_isBlank_of_isUpper hc)

theorem tokens_placeholder : tokens ['{', c, '}'] = [[c]] := by
  have hdot : c ≠ '.' := by
    rintro rfl
    contradiction
  have hdots : spaceDots false [c] = [c] := by simp [spaceDots, hdot]
  rw [tokens, unbrace_letter hc, unbrace_of_notMem List.not_mem_nil, spaceStructural_letter hc, spaceStructural,
    List.flatMap_nil, hdots, words_letter hc]

/-- The point after a letter is a token of its own. -/
theorem tokens_transposed : tokens ['{', c, '}', '.', 'T'] = [[c], ['.'], ['T']] := by
  have hdot : c ≠ '.' := by
    rintro rfl
    contradiction
  have hname : isNameChar c = true := by simp [isNameChar, hc]
  have hproperty : spaceStructural ['.', 'T'] = ['.', 'T'] := by decide
  have hdots : spaceDots false [c, '.', 'T'] = [c] ++ ' ' :: ['.'] ++ ' ' :: ['T'] := by
    simp [spaceDots, hdot, hname]
  rw [tokens, unbrace_letter hc, unbrace_of_notMem (by decide), spaceStructural_letter hc, hproperty, hdots,
    Text.words_append_blank Text.isBlank_space, Text.words_append_blank Text.isBlank_space, words_letter hc]
  rfl

end

theorem tokens_name (f : Builtin) : tokens f.name.toList = [f.name.toList] := by
  cases f <;> decide +kernel

end ArrayCalc.Lexer

namespace ArrayCalc.Expr

mutual

/-- The numbers in an expression. -/
def constants : Expr → List Float
  | constant x => [x]
  | placeholder _ => []
  | unary _ operand => operand.constants
  | binary _ left right => left.constants ++ right.constants
  | call _ args => constantsOfAll args

def constantsOfAll : List Expr → List Float
  | [] => []
  | arg :: args => arg.constants ++ constantsOfAll args

end

end ArrayCalc.Expr

namespace ArrayCalc.Parser

open Grammar Lexer

/-- The text of a tree is written in tokens that the grammar reads as a factor: every sum, product and power stands
    in parentheses. -/
def Prints (e : Expr) : Prop :=
  (∀ x ∈ e.constants, Number.Plain x) → Factor (tokens e.text) e

theorem prints_placeholder {c : Char} (hc : isUpper c = true) : Prints (.placeholder (String.singleton c)) := by
  intro _
  have htext : (Expr.placeholder (String.singleton c)).text = ['{', c, '}'] := by simp [Expr.text]
  rw [htext, tokens_placeholder hc]
  exact .placeholder hc

theorem prints_transposed {c : Char} (hc : isUpper c = true) :
    Prints (.unary Expr.transposeOp (.placeholder (String.singleton c))) := by
  intro _
  have htext : (Expr.unary Expr.transposeOp (.placeholder (String.singleton c))).text = ['{', c, '}', '.', 'T'] := by
    simp [Expr.text]
  rw [htext, tokens_transposed hc]
  exact .transposed hc

theorem prints_literal (d : Number.Decimal) : Prints (.constant (d.toFloat false)) := by
  intro hplain
  obtain ⟨d', hpositional, hd'⟩ := Number.positional_compact (hplain (d.toFloat false) (by simp [Expr.constants]))
  have hliteral : Factor [Number.compact (d.toFloat false)] (.constant (d'.toFloat false)) :=
    .literal (.plain hpositional.significand)
  rw [hd'] at hliteral
  rw [Expr.text, tokens_positional hpositional]
  exact hliteral

/-- Parentheses around a text are tokens of their own. -/
theorem tokens_group (cs : List Char) : tokens ('(' :: (cs ++ [')'])) = ['('] :: (tokens cs ++ [[')']]) := by
  rw [tokens_cons_structural (by decide), tokens_concat_structural (by decide)]

theorem Prints.negated {e : Expr} (h : Prints e) : Prints (.unary Expr.negateOp e) := by
  intro hplain
  have htext : (Expr.unary Expr.negateOp e).text = '-' :: '(' :: (e.text ++ [')']) := by
    rw [Expr.text, if_neg (by decide)]
    rfl
  rw [htext, tokens_cons_structural (by decide), tokens_group]
  exact .negated (.group (.term (.power (.factor (h hplain)))))

/-- An operator is a token between those of its operands. -/
theorem tokens_binary {op : String} {c : Char} (hop : op.toList = [c]) (hc : c ∈ structural) (left right : Expr) :
    tokens (Expr.binary op left right).text =
      ['('] :: (tokens left.text ++ op.toList :: tokens right.text ++ [[')']]) := by
  have htext : (Expr.binary op left right).text = '(' :: ((left.text ++ ' ' :: c :: ' ' :: right.text) ++ [')']) := by
    rw [Expr.text, hop]
    simp
  rw [htext, tokens_group, tokens_append_blank Text.isBlank_space, tokens_cons_structural hc,
    tokens_cons_blank Text.isBlank_space, hop]

/-- Two operands print if the grammar reads the operator between them within parentheses. -/
theorem Prints.binary {op : String} (hop : op ∈ "^" :: sumOps ++ productOps) {left right : Expr}
    (hgroup : ∀ ts us, Factor ts left → Factor us right → Expression (ts ++ op.toList :: us) (.binary op left right))
    (hl : Prints left) (hr : Prints right) : Prints (.binary op left right) := by
  intro hplain
  rw [Expr.constants] at hplain
  have hleft := hl fun x hx => hplain x (List.mem_append_left _ hx)
  have hright := hr fun x hx => hplain x (List.mem_append_right _ hx)
  obtain ⟨c, hc, hmark⟩ := exists_mark hop
  rw [tokens_binary hmark hc]
  exact .group (hgroup _ _ hleft hright)

theorem Prints.sum {op : String} (hop : op ∈ sumOps) {left right : Expr} (hl : Prints left) (hr : Prints right) :
    Prints (.binary op left right) :=
  Prints.binary (by simp [hop])
    (fun _ _ hts hus => .sum hop (.term (.power (.factor hts))) (.power (.factor hus))) hl hr

theorem Prints.product {op : String} (hop : op ∈ productOps) {left right : Expr} (hl : Prints left)
    (hr : Prints right) : Prints (.binary op left right) :=
  Prints.binary (by simp [hop])
    (fun _ _ hts hus => .term (.product hop (.power (.factor hts)) (.factor hus))) hl hr

theorem Prints.raised {base exponent : Expr} (hb : Prints base) (he : Prints exponent) :
    Prints (.binary "^" base exponent) :=
  Prints.binary (by simp) (fun _ _ hts hus => .term (.power (.raised hts hus))) hb he

/-- Every argument prints. -/
def PrintsAll (args : List Expr) : Prop :=
  ∀ arg ∈ args, Prints arg

theorem mem_constantsOfAll {args : List Expr} {arg : Expr} (harg : arg ∈ args) {x : Float} (hx : x ∈ arg.constants) :
    x ∈ Expr.constantsOfAll args := by
  induction args with
  | nil => cases harg
  | cons first args ih =>
    rw [Expr.constantsOfAll]
    rcases List.mem_cons.mp harg with rfl | harg
    · exact List.mem_append_left _ hx
    · exact List.mem_append_right _ (ih harg)

/-- A comma is a token between those of two arguments. -/
theorem tokens_argumentsText (arg : Expr) (args : List Expr) :
    tokens (Expr.argumentsText (arg :: args)) = tokens arg.text ++ args.flatMap fun arg => [','] :: tokens arg.text := by
  induction args generalizing arg with
  | nil => simp [Expr.argumentsText]
  | cons next args ih =>
    rw [Expr.argumentsText, tokens_append_structural (by decide), tokens_cons_blank Text.isBlank_space, ih,
      List.flatMap_cons]
    rfl

theorem moreArguments_of_factors {args : List Expr} (h : ∀ arg ∈ args, Factor (tokens arg.text) arg) :
    MoreArguments (args.flatMap fun arg => [','] :: tokens arg.text) args := by
  induction args with
  | nil => exact .none
  | cons arg args ih =>
    have hmore := ih fun other hother => h other (List.mem_cons_of_mem arg hother)
    exact .some (.term (.power (.factor (h arg List.mem_cons_self)))) hmore

theorem arguments_of_factors {args : List Expr} (h : ∀ arg ∈ args, Factor (tokens arg.text) arg) :
    Arguments (tokens (Expr.argumentsText args)) args := by
  cases args with
  | nil =>
    rw [Expr.argumentsText, tokens_nil]
    exact .none
  | cons arg args =>
    rw [tokens_argumentsText]
    exact .some (.term (.power (.factor (h arg List.mem_cons_self))))
      (moreArguments_of_factors fun other hother => h other (List.mem_cons_of_mem arg hother))

theorem PrintsAll.call (f : Builtin) {args : List Expr} (h : PrintsAll args) : Prints (.call f.name args) := by
  intro hplain
  rw [Expr.constants] at hplain
  have hfactors : ∀ arg ∈ args, Factor (tokens arg.text) arg := fun arg harg =>
    h arg harg fun x hx => hplain x (mem_constantsOfAll harg hx)
  have htext : (Expr.call f.name args).text = f.name.toList ++ '(' :: (Expr.argumentsText args ++ [')']) := by
    rw [Expr.text]
    simp
  rw [htext, tokens_append_structural (by decide), tokens_name, tokens_concat_structural (by decide)]
  exact .call f (arguments_of_factors hfactors)

-- one case for each rule of the grammar, each by its own lemma above
mutual

theorem prints_expression {ts : List (List Char)} {e : Expr} : Expression ts e → Prints e
  | .term h => prints_term h
  | .sum hop hl hr => (prints_expression hl).sum hop (prints_term hr)

theorem prints_term {ts : List (List Char)} {e : Expr} : Term ts e → Prints e
  | .power h => prints_power h
  | .product hop hl hr => (prints_term hl).product hop (prints_power hr)

theorem prints_power {ts : List (List Char)} {e : Expr} : Power ts e → Prints e
  | .factor h => prints_factor h
  | .raised hb he => (prints_factor hb).raised (prints_factor he)

theorem prints_factor {ts : List (List Char)} {e : Expr} : Factor ts e → Prints e
  | .group h => prints_expression h
  | .call f h => (prints_arguments h).call f
  | .placeholder hc => prints_placeholder hc
  | .transposed hc => prints_transposed hc
  | .literal _ => prints_literal _
  | .negated h => (prints_factor h).negated

theorem prints_arguments {ts : List (List Char)} {args : List Expr} : Arguments ts args → PrintsAll args
  | .none => nofun
  | .some h hmore => List.forall_mem_cons.mpr ⟨prints_expression h, prints_moreArguments hmore⟩

theorem prints_moreArguments {ts : List (List Char)} {args : List Expr} : MoreArguments ts args → PrintsAll args
  | .none => nofun
  | .some h hmore => List.forall_mem_cons.mpr ⟨prints_expression h, prints_moreArguments hmore⟩

end

/-- The text of an expression is parsed as the expression, when its numbers are finite and written without an
    exponent. -/
theorem parseText_text {source : List Char} {e : Expr} (h : parseText source = .ok e)
    (hplain : ∀ x ∈ e.constants, Number.Plain x) : parseText e.text = .ok e := by
  have hfactor := prints_expression (expression_of_parse h) hplain
  exact parse_of_expression (.term (.power (.factor hfactor)))

/-- Two and a half is written without an exponent. -/
theorem plain_two_and_half : Number.Plain (Number.Decimal.toFloat false ⟨25, -1⟩) := by
  have hcode : 4612811918334230528 < Number.infiniteCode := by decide
  have hnearest : Number.Decimal.nearestCode ⟨25, -1⟩ = 4612811918334230528 := by decide +kernel
  have hshortest : Number.shortest 4612811918334230528 = ⟨25, -1⟩ := by decide +kernel
  have hread := Number.read_ofCode hcode false
  rw [Number.Decimal.toFloat, hnearest]
  refine ⟨⟨_, _, _, hread⟩, ?_⟩
  rw [Number.compact, hread, Number.magnitudeCode_ofCode (Nat.le_of_lt hcode), hshortest]
  decide +kernel

/-- An expression with a negation as the base of a power, a transposed operand, a fraction and piped data. -/
theorem parseText_text_solve :
    let source := "-{A}.T^2.5@solve({B}, {PIPE})".toList
    let e : Expr := .binary "@"
      (.binary "^" (.unary "negate" (.unary "transpose" (.placeholder "A")))
        (.constant (Number.Decimal.toFloat false ⟨25, -1⟩)))
      (.call "solve" [.placeholder "B", .placeholder "P"])
    parseText source = .ok e ∧ (∀ x ∈ e.constants, Number.Plain x) ∧ parseText e.text = .ok e := by
  have htokens : Lexer.tokens "-{A}.T^2.5@solve({B}, {PIPE})".toList =
      [['-'], ['A'], ['.'], ['T'], ['^'], "2.5".toList, ['@'], "solve".toList, ['('], ['B'], [','], ['P'], [')']] := by
    cbv
  intro source e
  have hparse : parseText source = .ok e := by
    rw [parseText, htokens]
    rfl
  have hplain : ∀ x ∈ e.constants, Number.Plain x := by
    have hconstants : e.constants = [Number.Decimal.toFloat false ⟨25, -1⟩] := by
      simp only [e, Expr.constants, Expr.constantsOfAll, List.nil_append, List.append_nil]
    rw [hconstants, List.forall_mem_singleton]
    exact plain_two_and_half
  exact ⟨hparse, hplain, parseText_text hparse hplain⟩

end ArrayCalc.Parser
