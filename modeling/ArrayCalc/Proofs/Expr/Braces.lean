import ArrayCalc.Proofs.Eval.Substitution
import ArrayCalc.Proofs.Expr.Letters
import ArrayCalc.Proofs.Expr.Parsing

namespace ArrayCalc.Lexer

/-- The placeholders in braces, from left to right, as letters, each with what stands before its brace. -/
def braced (ctx : Context) : List Char → List (Context × Char)
  | '{' :: 'P' :: 'I' :: 'P' :: 'E' :: '}' :: cs => (ctx, 'P') :: braced {} cs
  | '{' :: c :: '}' :: cs => if isUpper c then (ctx, c) :: braced {} cs else braced (ctx.next '{') (c :: '}' :: cs)
  | c :: cs => braced (ctx.next c) cs
  | [] => []
termination_by cs => cs.length

theorem sublist_capitals_cons {found : List (Context × Char)} {ctx : Context} {c : Char} {cs : List Char}
    (h : found.Sublist (capitals (ctx.next c) cs)) : found.Sublist (capitals ctx (c :: cs)) := by
  rw [capitals]
  split
  · exact h.cons _
  · exact h

/-- Every placeholder in braces is a capital letter of the text without the braces, and what stands before it is the
    same there. -/
theorem braced_sublist_capitals (ctx : Context) (source : List Char) :
    (braced ctx source).Sublist (capitals ctx (unbrace source)) := by
  fun_induction braced ctx source with
  | case1 ctx cs ih =>
    rw [unbrace_pipe, capitals_cons_of_isUpper (by decide)]
    exact ih.cons_cons _
  | case2 ctx c cs hc ih =>
    rw [unbrace_letter hc, capitals_cons_of_isUpper hc]
    exact ih.cons_cons _
  | case3 ctx c cs hc ih =>
    have hpipe : ¬ pipeBraces <+: '{' :: c :: '}' :: cs := by
      rintro ⟨rest, hrest⟩
      cases hrest
    rw [unbrace_cons hpipe]
    · exact sublist_capitals_cons ih
    · intro x rest hx _
      cases hx
      simpa using hc
  | case4 ctx c cs hpipe hletter ih =>
    have hpipe : ¬ pipeBraces <+: c :: cs := by
      rintro ⟨rest, hrest⟩
      cases hrest
      exact hpipe rest rfl rfl
    rw [unbrace_cons hpipe fun x rest hx hc => absurd hx (hletter x rest hc)]
    exact sublist_capitals_cons ih
  | case5 => exact List.nil_sublist _

end ArrayCalc.Lexer

namespace ArrayCalc.Parser

open Grammar Lexer Number

/-- Read from the start of an operand, tokens have the letters of some operands, and what follows them stands after
    neither a digit nor a point. -/
def Names (ts : List (List Char)) (names : List String) : Prop :=
  (∀ t ∈ ts, t = ['.'] ∨ PointsBeforeDigits t) →
    operandNames (capitals {} (unwords ts)) = names ∧ Context.after {} (unwords ts) = {}

theorem Names.append {ts us : List (List Char)} {names more : List String} (hts : Names ts names)
    (hus : Names us more) : Names (ts ++ us) (names ++ more) := by
  intro h
  rw [List.forall_mem_append] at h
  obtain ⟨hnames, hafter⟩ := hts h.1
  obtain ⟨hmore, hafter'⟩ := hus h.2
  rw [unwords_append, capitals_append, operandNames_append, Context.after_append, hafter, hnames, hmore]
  exact ⟨rfl, hafter'⟩

theorem names_nil : Names [] [] :=
  fun _ => ⟨rfl, rfl⟩

/-- A structural character names no operand. -/
theorem names_mark {c : Char} (hc : c ∈ structural) : Names [[c]] [] := by
  intro _
  have hunwords : unwords [[c]] = [c, ' '] := rfl
  have hafter : Context.after {} [' '] = {} := by decide
  rw [hunwords, capitals_cons_of_not_isUpper (apart_of_structural hc).2.2, Context.after_cons, next_of_structural hc]
  exact ⟨rfl, hafter⟩

theorem names_op {op : String} (hop : op ∈ "^" :: sumOps ++ productOps) : Names [op.toList] [] := by
  obtain ⟨c, hc, hmark⟩ := exists_mark hop
  rw [hmark]
  exact names_mark hc

theorem names_name (f : Builtin) : Names [f.name.toList] [] := by
  intro _
  cases f <;> decide

section

variable {c : Char} (hc : isUpper c = true)

include hc

theorem names_letter : Names [[c]] [String.singleton c] := by
  intro _
  have hunwords : unwords [[c]] = [c, ' '] := rfl
  have hafter : Context.after {} [' '] = {} := by decide
  rw [hunwords, capitals_cons_of_isUpper hc, Context.after_cons, next_of_isUpper hc]
  exact ⟨by simp [operandNames, Context.absorbs, capitals, isUpper], hafter⟩

/-- The letter after the point is not an operand. -/
theorem names_transposed : Names [[c], ['.'], ['T']] [String.singleton c] := by
  intro _
  have hunwords : unwords [[c], ['.'], ['T']] = c :: " . T ".toList := rfl
  have hproperty : capitals {} " . T ".toList = [(⟨false, true⟩, 'T')] := by decide
  have hafter : Context.after {} " . T ".toList = {} := by decide
  rw [hunwords, capitals_cons_of_isUpper hc, Context.after_cons, next_of_isUpper hc, hproperty]
  exact ⟨by simp [operandNames, Context.absorbs], hafter⟩

end

section

variable {ds : List Char} (hds : AllDigits ds)

include hds

theorem capitals_allDigits (ctx : Context) : capitals ctx ds = [] := by
  induction ds generalizing ctx with
  | nil => rfl
  | cons d ds ih =>
    have hd := not_isUpper_of_isDigit (hds d List.mem_cons_self)
    rw [capitals_cons_of_not_isUpper hd, ih fun c hc => hds c (List.mem_cons_of_mem d hc)]

theorem after_allDigits (hne : ds ≠ []) (ctx : Context) : ctx.after ds = ⟨true, false⟩ := by
  obtain ⟨rest, d, rfl⟩ := (List.eq_nil_or_concat ds).resolve_left hne
  have hd : d.isDigit = true := hds d (by simp)
  rw [List.concat_eq_append, Context.after_append]
  exact next_of_isDigit hd _

end

/-- A significand with a digit after its point ends in a digit. -/
theorem read_significand {cs : List Char} {d : Decimal} (h : Significand cs d) (hpoints : PointsBeforeDigits cs)
    (ctx : Context) : capitals ctx cs = [] ∧ ctx.after cs = ⟨true, false⟩ := by
  cases h with
  | whole hds hne => exact ⟨capitals_allDigits hds ctx, after_allDigits hds hne ctx⟩
  | @point ds ps hds hps _ =>
    obtain ⟨p, hp, -⟩ := hpoints ds ps rfl
    have hne : ps ≠ [] := List.ne_nil_of_mem (List.mem_of_head? hp)
    have hpoint : isUpper '.' = false := by decide
    rw [capitals_append, capitals_allDigits hds, capitals_cons_of_not_isUpper hpoint, capitals_allDigits hps,
      Context.after_append, Context.after_cons, after_allDigits hps hne]
    exact ⟨rfl, rfl⟩

/-- A number names no operand: the only letter that it can have is the mark of its exponent. -/
theorem names_literal {text : List Char} {d : Decimal} (h : Literal text d) : Names [text] [] := by
  intro hpoints
  have hpoint : text ≠ ['.'] := by
    rintro rfl
    have hnumeric : Token.isNumeric ['.'] = true := Token.isNumeric_iff.mpr ⟨d, h⟩
    contradiction
  have hpoints : PointsBeforeDigits text := (hpoints text List.mem_cons_self).resolve_left hpoint
  have hunwords : unwords [text] = text ++ [' '] := List.flatMap_singleton _ _
  have hspace : ∀ ctx, capitals ctx [' '] = [] := fun _ => rfl
  have hblank : Context.after ⟨true, false⟩ [' '] = {} := by decide
  rw [hunwords, capitals_append, hspace, List.append_nil, Context.after_append]
  cases h with
  | plain h =>
    obtain ⟨hcapitals, hafter⟩ := read_significand h hpoints {}
    rw [hcapitals, hafter]
    exact ⟨rfl, hblank⟩
  | @scaled cs ks d mark h hmark hks hne =>
    have hsignificand : PointsBeforeDigits cs := by
      intro u v hsplit
      obtain ⟨p, hp, hdigit⟩ := hpoints u (v ++ mark :: ks) (by rw [hsplit, List.append_assoc, List.cons_append])
      cases v with
      | nil =>
        cases hp
        rcases hmark with rfl | rfl <;> contradiction
      | cons x v => exact ⟨p, hp, hdigit⟩
    obtain ⟨hcapitals, hafter⟩ := read_significand h hsignificand {}
    have hexponent := capitals_allDigits hks
    have hend : Context.after {} (cs ++ mark :: ks) = ⟨true, false⟩ := by
      rw [Context.after_append, Context.after_cons, after_allDigits hks hne]
    rw [capitals_append, hcapitals, hafter, hend]
    refine ⟨?_, hblank⟩
    rcases hmark with rfl | rfl <;> simp [capitals, isUpper, hexponent, operandNames, Context.absorbs]

theorem Names.group {ts : List (List Char)} {names : List String} (h : Names ts names) :
    Names (['('] :: ts ++ [[')']]) names := by
  have hopen : Names [['(']] [] := names_mark (by decide)
  have hclose : Names [[')']] [] := names_mark (by decide)
  have hwhole := (hopen.append h).append hclose
  rwa [List.nil_append, List.append_nil] at hwhole

theorem Names.binary {ts us : List (List Char)} {op : String} {left right : Expr}
    (hop : op ∈ "^" :: sumOps ++ productOps) (hts : Names ts left.placeholders) (hus : Names us right.placeholders) :
    Names (ts ++ op.toList :: us) (Expr.binary op left right).placeholders := by
  rw [Expr.placeholders]
  exact hts.append ((names_op hop).append hus)

-- one case for each rule of the grammar
mutual

theorem names_expression {ts : List (List Char)} {e : Expr} : Expression ts e → Names ts e.placeholders
  | .term h => names_term h
  | .sum hop hl hr => (names_expression hl).binary (by simp [hop]) (names_term hr)

theorem names_term {ts : List (List Char)} {e : Expr} : Term ts e → Names ts e.placeholders
  | .power h => names_power h
  | .product hop hl hr => (names_term hl).binary (by simp [hop]) (names_power hr)

theorem names_power {ts : List (List Char)} {e : Expr} : Power ts e → Names ts e.placeholders
  | .factor h => names_factor h
  | .raised hb he => Names.binary (show "^" ∈ _ from List.mem_cons_self) (names_factor hb) (names_factor he)

theorem names_factor {ts : List (List Char)} {e : Expr} : Factor ts e → Names ts e.placeholders
  | .group h => (names_expression h).group
  | .call f h => (names_name f).append (names_arguments h).group
  | .placeholder hc => names_letter hc
  | .transposed hc => names_transposed hc
  | .literal h => names_literal h
  | .negated h => (names_mark (by decide)).append (names_factor h)

theorem names_arguments {ts : List (List Char)} {args : List Expr} :
    Arguments ts args → Names ts (Expr.placeholdersOfAll args)
  | .none => names_nil
  | .some h hmore => (names_expression h).append (names_moreArguments hmore)

theorem names_moreArguments {ts : List (List Char)} {args : List Expr} :
    MoreArguments ts args → Names ts (Expr.placeholdersOfAll args)
  | .none => names_nil
  | .some h hmore => (names_mark (by decide)).append ((names_expression h).append (names_moreArguments hmore))

end

/-- The placeholders of a tree are the capital letters of the text, in the same order, without the marks of exponents
    and the properties. -/
theorem placeholders_of_parse {source : List Char} {e : Expr} (h : parseText source = .ok e) :
    e.placeholders = operandNames (capitals {} (unbrace source)) := by
  obtain ⟨hnames, -⟩ := names_expression (expression_of_parse h) fun t => pointsBeforeDigits_of_mem_tokens
  rw [← capitals_tokens, hnames]

/-- No placeholder in braces is lost, but for an `E` that becomes the mark of an exponent and a `T` that becomes a
    property. -/
theorem braced_sublist_placeholders {source : List Char} {e : Expr} (h : parseText source = .ok e) :
    (operandNames (braced {} source)).Sublist e.placeholders := by
  rw [placeholders_of_parse h]
  exact ((braced_sublist_capitals {} source).filter _).map _

/-- Piped data transposed and a scaled number, both with a placeholder in braces that is no operand. -/
theorem braced_sublist_placeholders_marks :
    let source := "{PIPE}.{T}@{B}+2{E}3*{A}".toList
    let e : Expr := .binary "+"
      (.binary "@" (.unary "transpose" (.placeholder "P")) (.placeholder "B"))
      (.binary "*" (.constant (Decimal.toFloat false ⟨2, 3⟩)) (.placeholder "A"))
    parseText source = .ok e ∧ operandNames (braced {} source) = ["P", "B", "A"] ∧
      (operandNames (braced {} source)).Sublist e.placeholders := by
  have htokens : tokens "{PIPE}.{T}@{B}+2{E}3*{A}".toList =
      [['P'], ['.'], ['T'], ['@'], ['B'], ['+'], "2E3".toList, ['*'], ['A']] := by
    cbv
  have hbraced : operandNames (braced {} "{PIPE}.{T}@{B}+2{E}3*{A}".toList) = ["P", "B", "A"] := by
    cbv
  intro source e
  have hparse : parseText source = .ok e := by
    rw [parseText, htokens]
    rfl
  exact ⟨hparse, hbraced, braced_sublist_placeholders hparse⟩

/-- A property can be written in braces and so can the mark of an exponent, though neither is an operand. -/
theorem exists_braced_lost :
    (∃ e, parseText "{A}.{T}".toList = .ok e ∧
        ¬ ((braced {} "{A}.{T}".toList).map fun p => String.singleton p.2).Sublist e.placeholders) ∧
      ∃ e, parseText "2{E}3".toList = .ok e ∧
        ¬ ((braced {} "2{E}3".toList).map fun p => String.singleton p.2).Sublist e.placeholders := by
  have htransposed : tokens "{A}.{T}".toList = [['A'], ['.'], ['T']] := by cbv
  have hscaled : tokens "2{E}3".toList = ["2E3".toList] := by cbv
  have hproperty : ((braced {} "{A}.{T}".toList).map fun p => String.singleton p.2) = ["A", "T"] := by cbv
  have hmark : ((braced {} "2{E}3".toList).map fun p => String.singleton p.2) = ["E"] := by cbv
  refine ⟨⟨.unary "transpose" (.placeholder "A"), ?_, ?_⟩, ⟨.constant (Decimal.toFloat false ⟨2, 3⟩), ?_, ?_⟩⟩
  · rw [parseText, htransposed]
    rfl
  · rw [hproperty, Expr.placeholders, Expr.placeholders]
    decide
  · rw [parseText, hscaled]
    rfl
  · rw [hmark, Expr.placeholders]
    decide

end ArrayCalc.Parser
