import ArrayCalc.Expr.Parser
import ArrayCalc.Proofs.Number.Literal

namespace ArrayCalc.Grammar

/-- The operators between the terms of an expression. -/
def sumOps : List String := ["+", "-"]

/-- The operators between the powers of a term. -/
def productOps : List String := ["*", "@"]

theorem exists_mark {op : String} (hop : op ∈ "^" :: sumOps ++ productOps) :
    ∃ c ∈ Lexer.structural, op.toList = [c] := by
  simp only [sumOps, productOps, List.cons_append, List.nil_append, List.mem_cons, List.not_mem_nil, or_false] at hop
  rcases hop with rfl | rfl | rfl | rfl | rfl
  · exact ⟨'^', by decide, rfl⟩
  · exact ⟨'+', by decide, rfl⟩
  · exact ⟨'-', by decide, rfl⟩
  · exact ⟨'*', by decide, rfl⟩
  · exact ⟨'@', by decide, rfl⟩

mutual

/-- `expression := term (('+' | '-') term)*`, with the tree leaning to the left. -/
inductive Expression : List (List Char) → Expr → Prop where
  | term {ts : List (List Char)} {e : Expr} (h : Term ts e) : Expression ts e
  | sum {ts us : List (List Char)} {l r : Expr} {op : String} (hop : op ∈ sumOps)
      (hl : Expression ts l) (hr : Term us r) : Expression (ts ++ op.toList :: us) (.binary op l r)

/-- `term := power (('*' | '@') power)*`, with the tree leaning to the left. -/
inductive Term : List (List Char) → Expr → Prop where
  | power {ts : List (List Char)} {e : Expr} (h : Power ts e) : Term ts e
  | product {ts us : List (List Char)} {l r : Expr} {op : String} (hop : op ∈ productOps)
      (hl : Term ts l) (hr : Power us r) : Term (ts ++ op.toList :: us) (.binary op l r)

/-- `power := factor ('^' factor)?` -/
inductive Power : List (List Char) → Expr → Prop where
  | factor {ts : List (List Char)} {e : Expr} (h : Factor ts e) : Power ts e
  | raised {ts us : List (List Char)} {base exponent : Expr} (hb : Factor ts base)
      (he : Factor us exponent) : Power (ts ++ ['^'] :: us) (.binary "^" base exponent)

/-- `factor := '(' expression ')' | name '(' arguments ')' | letter ('.' 'T')? | literal | '-' factor`.
    Parentheses leave no node, and a literal stands for the double nearest to its decimal. -/
inductive Factor : List (List Char) → Expr → Prop where
  | group {ts : List (List Char)} {e : Expr} (h : Expression ts e) : Factor (['('] :: ts ++ [[')']]) e
  | call {ts : List (List Char)} {args : List Expr} (f : Builtin) (h : Arguments ts args) :
      Factor (f.name.toList :: ['('] :: ts ++ [[')']]) (.call f.name args)
  | placeholder {c : Char} (hc : Lexer.isUpper c = true) : Factor [[c]] (.placeholder (String.singleton c))
  | transposed {c : Char} (hc : Lexer.isUpper c = true) :
      Factor [[c], ['.'], ['T']] (.unary Expr.transposeOp (.placeholder (String.singleton c)))
  | literal {text : List Char} {d : Number.Decimal} (h : Number.Literal text d) :
      Factor [text] (.constant (d.toFloat false))
  | negated {ts : List (List Char)} {e : Expr} (h : Factor ts e) :
      Factor (['-'] :: ts) (.unary Expr.negateOp e)

/-- `arguments := (expression (',' expression)*)?` -/
inductive Arguments : List (List Char) → List Expr → Prop where
  | none : Arguments [] []
  | some {ts us : List (List Char)} {e : Expr} {es : List Expr} (h : Expression ts e)
      (hmore : MoreArguments us es) : Arguments (ts ++ us) (e :: es)

/-- `(',' expression)*` -/
inductive MoreArguments : List (List Char) → List Expr → Prop where
  | none : MoreArguments [] []
  | some {ts us : List (List Char)} {e : Expr} {es : List Expr} (h : Expression ts e)
      (hmore : MoreArguments us es) : MoreArguments ([','] :: ts ++ us) (e :: es)

end

end ArrayCalc.Grammar
