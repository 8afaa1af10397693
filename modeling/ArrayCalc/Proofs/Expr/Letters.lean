import ArrayCalc.Proofs.Expr.Lexing

namespace ArrayCalc.Lexer

/-- What stands before a character: a digit, or a point with nothing but blanks after it. -/
structure Context where
  afterDigit : Bool := false
  afterPoint : Bool := false
  deriving DecidableEq, Repr

namespace Context

/-- What stands before the character that follows `c`. -/
def next (ctx : Context) (c : Char) : Context :=
  ⟨c.isDigit, c = '.' || (Text.isBlank c && ctx.afterPoint)⟩

def after (ctx : Context) (cs : List Char) : Context :=
  cs.foldl next ctx

/-- The letters that can be no operand: the mark of an exponent after a digit and the property after a point. -/
def absorbs (ctx : Context) (c : Char) : Bool :=
  (c = 'E' && ctx.afterDigit) || (c = 'T' && ctx.afterPoint)

theorem after_cons (ctx : Context) (c : Char) (cs : List Char) : ctx.after (c :: cs) = (ctx.next c).after cs :=
  rfl

theorem after_append (ctx : Context) (u v : List Char) : ctx.after (u ++ v) = (ctx.after u).after v :=
  List.foldl_append

end Context

/-- The capital letters of a text, each with what stands before it. -/
def capitals (ctx : Context) : List Char → List (Context × Char)
  | [] => []
  | c :: cs => if isUpper c then (ctx, c) :: capitals (ctx.next c) cs else capitals (ctx.next c) cs

/-- The names of those letters that can be operands. -/
def operandNames (found : List (Context × Char)) : List String :=
  (found.filter fun p => !p.1.absorbs p.2).map fun p => String.singleton p.2

theorem operandNames_append (found more : List (Context × Char)) :
    operandNames (found ++ more) = operandNames found ++ operandNames more := by
  rw [operandNames, List.filter_append, List.map_append, operandNames, operandNames]

theorem capitals_append (ctx : Context) (u v : List Char) :
    capitals ctx (u ++ v) = capitals ctx u ++ capitals (ctx.after u) v := by
  induction u generalizing ctx with
  | nil => rfl
  | cons c u ih =>
    simp only [List.cons_append, capitals, ih]
    split <;> rfl

section

variable {c : Char}

theorem next_of_isUpper (hc : isUpper c = true) (ctx : Context) : ctx.next c = {} := by
  have hpoint : c ≠ '.' := by
    rintro rfl
    contradiction
  simp [Context.next, not_isDigit_of_isUpper hc, not_isBlank_of_isUpper hc, hpoint]

theorem next_of_isBlank (hc : Text.isBlank c = true) (ctx : Context) : ctx.next c = ⟨false, ctx.afterPoint⟩ := by
  have hpoint : c ≠ '.' := by
    rintro rfl
    contradiction
  simp [Context.next, not_isDigit_of_isBlank hc, hc, hpoint]

theorem next_of_isDigit (hc : c.isDigit = true) (ctx : Context) : ctx.next c = ⟨true, false⟩ := by
  have hpoint : c ≠ '.' := by
    rintro rfl
    contradiction
  simp [Context.next, hc, not_isBlank_of_isDigit hc, hpoint]

theorem next_of_structural (hc : c ∈ structural) (ctx : Context) : ctx.next c = {} := by
  obtain ⟨hblank, hdigit, -, hpoint, -, -⟩ := unlike_of_structural hc
  simp [Context.next, hdigit, hblank, hpoint]

end

theorem capitals_cons_of_not_isUpper {c : Char} (hc : isUpper c = false) (ctx : Context) (cs : List Char) :
    capitals ctx (c :: cs) = capitals (ctx.next c) cs := by
  rw [capitals, hc, if_neg Bool.false_ne_true]

theorem capitals_cons_of_isUpper {c : Char} (hc : isUpper c = true) (ctx : Context) (cs : List Char) :
    capitals ctx (c :: cs) = (ctx, c) :: capitals {} cs := by
  rw [capitals, if_pos hc, next_of_isUpper hc]

/-- Spaces around the structural characters make no difference to the capital letters. -/
theorem capitals_spaceStructural (ctx : Context) (cs : List Char) :
    capitals ctx (spaceStructural cs) = capitals ctx cs := by
  induction cs generalizing ctx with
  | nil => rfl
  | cons c cs ih =>
    rw [spaceStructural, List.flatMap_cons, ← spaceStructural]
    split
    · next hc =>
      have hspace : isUpper ' ' = false := by decide
      simp only [List.cons_append, List.nil_append, capitals, hspace, (apart_of_structural hc).2.2]
      simp [next_of_structural hc, next_of_isBlank Text.isBlank_space, ih]
    · rw [List.cons_append, List.nil_append, capitals, capitals, ih]

/-- Nor do those around the points. -/
theorem capitals_spaceDots (named : Bool) (ctx : Context) (cs : List Char) :
    capitals ctx (spaceDots named cs) = capitals ctx cs := by
  induction cs generalizing named ctx with
  | nil => rfl
  | cons c cs ih =>
    rw [spaceDots]
    split
    · next h =>
      obtain ⟨rfl, -⟩ := h
      have hspace : isUpper ' ' = false := by decide
      have hpoint : isUpper '.' = false := by decide
      simp only [capitals, hspace, hpoint]
      have hblank : Text.isBlank ' ' = true := Text.isBlank_space
      simp [ih, Context.next, hblank]
    · rw [capitals, capitals, ih]

/-- Tokens, one after the other. -/
def unwords (ts : List (List Char)) : List Char :=
  ts.flatMap fun t => t ++ [' ']

theorem unwords_append (ts us : List (List Char)) : unwords (ts ++ us) = unwords ts ++ unwords us :=
  List.flatMap_append

/-- Only a digit before the text could tell it apart from its words. -/
theorem capitals_unwords (cs : List Char) (ctx : Context) (hctx : ctx.afterDigit = false) :
    capitals ctx (unwords (Text.words cs)) = capitals ctx cs := by
  induction cs using Text.runs_induction generalizing ctx with
  | run w hw =>
    by_cases hne : w = []
    · rw [hne, Text.words_nil]
      rfl
    · have hspace : isUpper ' ' = false := by decide
      rw [Text.words_of_not_isBlank hne hw, unwords, List.flatMap_singleton, capitals_append,
        capitals_cons_of_not_isUpper hspace, capitals, List.append_nil]
  | cut w b rest hw hb ih =>
    have hspace : isUpper ' ' = false := by decide
    rw [Text.words_append_blank hb, unwords_append, capitals_append, capitals_append,
      capitals_cons_of_not_isUpper (apart_of_isBlank hb).2.2, next_of_isBlank hb]
    by_cases hne : w = []
    · rw [hne, Text.words_nil]
      have hstart : (⟨false, (ctx.after []).afterPoint⟩ : Context) = ctx := by
        rw [← hctx]
        rfl
      rw [hstart]
      exact ih ctx hctx
    · have hword : capitals ctx (w ++ [' ']) = capitals ctx w := by
        rw [capitals_append, capitals_cons_of_not_isUpper hspace, capitals, List.append_nil]
      have hend : ctx.after (w ++ [' ']) = ⟨false, (ctx.after w).afterPoint⟩ := by
        rw [Context.after_append]
        exact next_of_isBlank Text.isBlank_space _
      rw [Text.words_of_not_isBlank hne hw, unwords, List.flatMap_singleton, hword, hend]
      rw [ih _ rfl]

/-- Every point is followed by a digit. -/
def PointsBeforeDigits (cs : List Char) : Prop :=
  ∀ u v, cs = u ++ '.' :: v → ∃ d ∈ v.head?, d.isDigit = true

/-- Every point that no digit follows stands alone between blanks. -/
def PointsApart (cs : List Char) : Prop :=
  ∀ u v, cs = u ++ '.' :: v →
    (∃ d ∈ v.head?, d.isDigit = true) ∨
      (∀ c ∈ u.getLast?, Text.isBlank c = true) ∧ (∀ c ∈ v.head?, Text.isBlank c = true)

theorem spaces_of_spaceDots {named : Bool} {cs u v : List Char} (h : spaceDots named cs = u ++ '.' :: v) :
    (∃ d ∈ v.head?, d.isDigit = true) ∨ (∃ before, u = before ++ [' ']) ∧ ∃ rest, v = ' ' :: rest := by
  induction cs generalizing named u with
  | nil => simp [spaceDots] at h
  | cons c cs ih =>
    rw [spaceDots] at h
    split at h
    · -- the point stands between the blanks, or further on
      cases u with
      | nil => cases h
      | cons x u =>
        rw [List.cons_append, List.cons.injEq] at h
        cases u with
        | nil =>
          cases h.2
          exact .inr ⟨⟨[], congrArg (fun blank => [blank]) h.1.symm⟩, _, rfl⟩
        | cons y u =>
          rw [List.cons_append, List.cons.injEq] at h
          cases u with
          | nil => cases h.2.2
          | cons z u =>
            rw [List.cons_append, List.cons.injEq] at h
            rcases ih h.2.2.2 with hdigit | ⟨⟨before, rfl⟩, hrest⟩
            · exact .inl hdigit
            · exact .inr ⟨⟨x :: y :: z :: before, rfl⟩, hrest⟩
    · next hkept =>
      cases u with
      | nil =>
        simp only [List.nil_append, List.cons.injEq] at h
        obtain ⟨rfl, rfl⟩ := h
        left
        cases cs with
        | nil => simp at hkept
        | cons d cs =>
          have hdigit : d.isDigit = true := by
            by_cases hd : d.isDigit = true
            · exact hd
            · simp [hd] at hkept
          have hpoint : d ≠ '.' := by
            rintro rfl
            contradiction
          rw [spaceDots, if_neg fun hdot => hpoint hdot.1]
          exact ⟨d, rfl, hdigit⟩
      | cons x u =>
        simp only [List.cons_append, List.cons.injEq] at h
        rcases ih h.2 with hdigit | ⟨⟨before, rfl⟩, hrest⟩
        · exact .inl hdigit
        · exact .inr ⟨⟨x :: before, rfl⟩, hrest⟩

theorem pointsApart_spaceDots (named : Bool) (cs : List Char) : PointsApart (spaceDots named cs) := by
  intro u v h
  rcases spaces_of_spaceDots h with hdigit | ⟨⟨before, rfl⟩, rest, rfl⟩
  · exact .inl hdigit
  · refine .inr ⟨?_, ?_⟩
    · simp [Text.isBlank_space]
    · simp [Text.isBlank_space]

section

variable {u v : List Char} {b : Char} (h : PointsApart (u ++ b :: v))

include h

theorem PointsApart.before_blank (hb : Text.isBlank b = true) : PointsApart u := by
  intro before rest hsplit
  have hwhole := h before (rest ++ b :: v) (by rw [hsplit, List.append_assoc, List.cons_append])
  cases rest with
  | nil =>
    rcases hwhole with ⟨d, hd, hdigit⟩ | ⟨hbefore, -⟩
    · cases hd
      rw [not_isDigit_of_isBlank hb] at hdigit
      contradiction
    · exact .inr ⟨hbefore, nofun⟩
  | cons c rest => exact hwhole

theorem PointsApart.after_blank : PointsApart v := by
  intro before rest hsplit
  have hwhole := h (u ++ b :: before) rest (by rw [hsplit, List.append_assoc, List.cons_append])
  cases before with
  | nil => exact hwhole.imp_right fun hblank => ⟨nofun, hblank.2⟩
  | cons c before =>
    have hlast : (u ++ b :: c :: before).getLast? = (c :: before).getLast? := by
      rw [List.getLast?_append, List.getLast?_cons_cons, List.getLast?_cons]
      rfl
    rwa [hlast] at hwhole

end

/-- Without blanks there is room for a point alone only if there is nothing else. -/
theorem PointsApart.of_visible {w : List Char} (h : PointsApart w) (hw : ∀ c ∈ w, Text.isBlank c = false) :
    w = ['.'] ∨ PointsBeforeDigits w := by
  by_cases hpoint : w = ['.']
  · exact .inl hpoint
  refine .inr fun u v hsplit => (h u v hsplit).resolve_right ?_
  rintro ⟨hbefore, hafter⟩
  have hu : u = [] := by
    rw [← List.getLast?_eq_none_iff, Option.eq_none_iff_forall_ne_some]
    intro c hc
    have hmem : c ∈ w := by
      rw [hsplit]
      exact List.mem_append_left _ (List.mem_of_getLast? hc)
    simpa [hbefore c hc] using hw c hmem
  have hv : v = [] := by
    rw [← List.head?_eq_none_iff, Option.eq_none_iff_forall_ne_some]
    intro c hc
    have hmem : c ∈ w := by
      rw [hsplit]
      exact List.mem_append_right _ (List.mem_cons_of_mem _ (List.mem_of_head? hc))
    simpa [hafter c hc] using hw c hmem
  rw [hsplit, hu, hv] at hpoint
  contradiction

/-- A point is a word, or it belongs to one in which a digit follows it. -/
theorem pointsBeforeDigits_of_mem_words {cs t : List Char} (h : PointsApart cs) (ht : t ∈ Text.words cs) :
    t = ['.'] ∨ PointsBeforeDigits t := by
  induction cs using Text.runs_induction with
  | run w hw => exact (Text.eq_of_mem_words hw ht) ▸ h.of_visible hw
  | cut w b rest hw hb ih =>
    rw [Text.words_append_blank hb, List.mem_append] at ht
    rcases ht with ht | ht
    · exact (Text.eq_of_mem_words hw ht) ▸ (h.before_blank hb).of_visible hw
    · exact ih h.after_blank ht

theorem pointsBeforeDigits_of_mem_tokens {source t : List Char} (h : t ∈ tokens source) :
    t = ['.'] ∨ PointsBeforeDigits t :=
  pointsBeforeDigits_of_mem_words (pointsApart_spaceDots false _) h

theorem capitals_tokens (source : List Char) : capitals {} (unwords (tokens source)) = capitals {} (unbrace source) := by
  rw [tokens, capitals_unwords _ _ rfl, capitals_spaceDots, capitals_spaceStructural]

end ArrayCalc.Lexer
