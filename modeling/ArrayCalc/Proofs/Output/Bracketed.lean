import ArrayCalc.Proofs.Output.Cells
import ArrayCalc.Proofs.Output.Nesting

namespace ArrayCalc.Output

open Number Nested

/-- A text that is one word when it is trimmed stands for this word. -/
theorem read?_trim {text token : List Char} (h : '[' ∉ text ∧ ']' ∉ text) (hword : Text.words text = [token]) :
    read? (Text.trim text) = some (leaf token) := by
  obtain ⟨before, after, -, -, hwhole⟩ := Text.exists_trim text
  have hkept : ∀ c ∈ Text.trim text, c ∈ text := fun c hc => by
    rw [hwhole]
    exact List.mem_append_left _ (List.mem_append_right _ hc)
  have hreads := reads_words (fun hmem => h.1 (hkept _ hmem)) (fun hmem => h.2 (hkept _ hmem))
  rw [Text.words_trim, hword] at hreads
  exact read?_of_reads hreads

theorem bracketed_eq {t : Tensor Float} (hne : t.data.size ≠ 0) {precision : Float} {cs : List Cell}
    (hcells : cells precision t.data.toList = .ok cs) :
    bracketed t precision = .ok (if t.shape = [] then Text.trim ((align cs).headD [])
      else brackets (align cs).toArray 0 t.shape 0) := by
  have hfilled : t.data.isEmpty = false := by simpa [Array.isEmpty] using hne
  rw [bracketed, hfilled, if_neg Bool.false_ne_true, hcells]
  exact (apply_ite Except.ok (t.shape = []) _ _).symm

/-- An array in brackets is read as nested lists of its shape exactly if its exponents have one length; then the cells
    are read, one word each. -/
theorem read?_bracketed {t : Tensor Float} (hwf : t.WellFormed) (hne : t.data.size ≠ 0) {precision : Float}
    {cs : List Cell} (hcells : cells precision t.data.toList = .ok cs) (hcount : cs.length = t.data.size)
    (h : Alignable cs) :
    ∃ text nest, bracketed t precision = .ok text ∧ read? text = some nest ∧
      ∀ tokens, nest.flatten? t.shape = some tokens ↔ EvenExponents cs ∧ tokens = cs.map Cell.text := by
  rw [bracketed_eq hne hcells]
  by_cases hrank : t.shape = []
  · have hsize : t.data.size = 1 := by rw [hwf, hrank, Shape.size_nil]
    obtain ⟨c, rfl⟩ := List.length_eq_one_iff.mp (hcount.trans hsize)
    obtain ⟨cell, hcell⟩ : ∃ cell, align [c] = [cell] := ⟨_, rfl⟩
    -- a single exponent fills its column
    have heven : EvenExponents [c] := by
      intro c₁ h₁ c₂ h₂ _ _
      rw [List.mem_singleton.mp h₁, List.mem_singleton.mp h₂]
    have hwords := (h.forall₂_words_iff [c.text]).mpr ⟨heven, rfl⟩
    have hbrackets := h.brackets_notMem
    rw [hcell] at hwords hbrackets
    obtain ⟨hword, -⟩ := List.forall₂_cons.mp hwords
    have hread := read?_trim (hbrackets cell (List.mem_singleton.mpr rfl)) hword
    rw [if_pos hrank, hcell]
    refine ⟨_, .leaf c.text, rfl, hread, fun tokens => ?_⟩
    rw [hrank, flatten?, Option.some_inj, and_iff_right heven, eq_comm]
    rfl
  · have hsize : (align cs).toArray.size = Shape.size t.shape := by
      rw [List.size_toArray, align_eq, List.length_map, hcount]
      exact hwf
    obtain ⟨nest, hread, htokens⟩ := read?_brackets h.brackets_notMem h.words_ne_nil hrank hsize
    rw [if_neg hrank]
    exact ⟨_, nest, rfl, hread, fun tokens => (htokens tokens).trans (h.forall₂_words_iff tokens)⟩

/-- How a number is printed: a word, or digits around a point after a sign if need be, with or without an exponent. -/
inductive Printed (x : Float) : List Char → Prop where
  | nan (h : read x = .nan) : Printed x "nan".toList
  | infinite {negative : Bool} (h : read x = .infinite negative) : Printed x (signText negative ++ "inf".toList)
  | positional {cs : List Char} {v w : ℚ} (h : value? x = some v) (hcs : PointNotation cs w) : Printed x cs
  | scientific {cs : List Char} {v w : ℚ} (h : value? x = some v) (hcs : PointNotation cs w) (exp : Int) :
    Printed x (cs ++ exponentText exp)

/-- A number that is not finite is printed as a word, alike in both notations. -/
theorem special_eq {x : Float} (h : value? x = none) : ∃ word, Printed x word ∧
    Cell.Solid ⟨word, [], []⟩ ∧ (∀ precision, positionalCell precision x = .ok ⟨word, [], []⟩) ∧
      ∀ places, scientificCell places x = ⟨word, [], []⟩ := by
  have hletters : (∀ ch ∈ "nan".toList, ch ∈ ['n', 'a', 'i', 'f']) ∧ ∀ ch ∈ "inf".toList, ch ∈ ['n', 'a', 'i', 'f'] := by
    simp
  cases hread : read x with
  | finite negative mant exp =>
    rw [value?_of_read hread] at h
    cases h
  | nan =>
    have hspecial : special? x = some "nan".toList := by rw [special?, hread]
    refine ⟨_, .nan hread, solid_of_chars (by simp) fun ch hch => ?_, fun precision => ?_, fun places => ?_⟩
    · simp only [Cell.text, List.append_nil] at hch
      exact .inr (hletters.1 ch hch)
    · rw [positionalCell, hread, hspecial, Option.getD_some]
    · rw [scientificCell, hread, hspecial, Option.getD_some]
  | infinite negative =>
    have hspecial : special? x = some (signText negative ++ "inf".toList) := by rw [special?, hread]
    refine ⟨_, .infinite hread, solid_of_chars (by simp) fun ch hch => ?_, fun precision => ?_, fun places => ?_⟩
    · simp only [Cell.text, List.append_nil, List.mem_append] at hch
      exact hch.imp (isNumberChar_signText negative ch) (hletters.2 ch)
    · rw [positionalCell, hread, hspecial, Option.getD_some]
    · rw [scientificCell, hread, hspecial, Option.getD_some]

/-- A number that needs no exponent, in positional notation: its nearest whole number of units of the last place, with a
    sign and without the zeros at the end. -/
theorem positionalCell_of_value? {x precision : Float} {v : ℚ} (hvalue : value? x = some v)
    (hsmall : needsExponent x = false) {places : Nat} (hplaces : places? precision = some places) :
    ∃ negative n ds ps, positionalCell precision x = .ok ⟨signText negative ++ ds, '.' :: ps, []⟩ ∧
      Stripped places n ds ps ∧ RoundsToPlaces places v (signed negative (n / 10 ^ places)) := by
  obtain ⟨negative, mant, exp, hread, rfl⟩ := read_of_value? hvalue
  have hless : magnitude mant exp < 10 ^ 21 := by
    by_contra hlarge
    have hneeds : needsExponent x = true := by
      rw [needsExponent_iff hvalue, abs_signed, abs_of_nonneg (magnitude_nonneg mant exp)]
      linarith
    rw [hsmall] at hneeds
    cases hneeds
  obtain ⟨ds, ps, hstripped, hcell⟩ := positionalCell_eq hread hless hplaces
  refine ⟨_, _, ds, ps, hcell, hstripped, ?_⟩
  have hrounds : RoundsToPlaces places _ _ := .of_nonneg (magnitude_nonneg mant exp)
  rw [← roundPlaces_eq_floor] at hrounds
  have hsign : signed (negative && mant ≠ 0) (roundPlaces mant exp places / 10 ^ places) =
      signed negative (roundPlaces mant exp places / 10 ^ places) := by
    by_cases hzero : mant = 0
    · have hunits : roundPlaces 0 exp places = 0 := by
        rw [roundPlaces_eq_floor, magnitude_zero, zero_mul, zero_add]
        norm_num
      rw [hzero, hunits, Nat.cast_zero, zero_div, signed_zero, signed_zero]
    · rw [decide_eq_true hzero, Bool.and_true]
  rw [hsign]
  exact hrounds.signed negative

/-- A cell in positional notation has no exponent, and it prints its number if there is a place after the point. -/
theorem positionalCell_spec {x precision : Float} {c : Cell} (hcell : positionalCell precision x = .ok c)
    (hsmall : needsExponent x = false) {places : Nat} (hplaces : places? precision = some places) :
    c.Solid ∧ c.exponent = [] ∧ (0 < places → Printed x c.text) := by
  cases hvalue : value? x with
  | none =>
    obtain ⟨word, hprinted, hsolid, hspecial, -⟩ := special_eq hvalue
    obtain rfl : ⟨word, [], []⟩ = c := Except.ok.inj ((hspecial precision).symm.trans hcell)
    refine ⟨hsolid, rfl, fun _ => ?_⟩
    rwa [Cell.text, List.append_nil, List.append_nil]
  | some v =>
    obtain ⟨negative, n, ds, ps, hfinite, hstripped, -⟩ := positionalCell_of_value? hvalue hsmall hplaces
    obtain rfl : ⟨signText negative ++ ds, '.' :: ps, []⟩ = c := Except.ok.inj (hfinite.symm.trans hcell)
    refine ⟨solid_point negative hstripped.whole hstripped.fraction (List.forall_mem_nil _), rfl, fun hpos => ?_⟩
    rw [Cell.text, List.append_nil]
    exact .positional hvalue (.mk negative hstripped.whole hstripped.fraction (.inl (hstripped.value hpos).2))

/-- What a cell owes to the number that it prints and to the columns: a fraction of full length beside an exponent. -/
structure Fits (fraction : Nat) (x : Float) (c : Cell) : Prop where
  printed : Printed x c.text
  solid : c.Solid
  fraction_le : c.fraction.length ≤ fraction
  fraction_eq : c.exponent ≠ [] → c.fraction.length = fraction

theorem alignable_of_fits {fraction : Nat} {xs : List Float} {cs : List Cell} (h : List.Forall₂ (Fits fraction) xs cs) :
    Alignable cs := by
  have hfits := exists_of_mem_forall₂ h
  constructor
  · intro c hc
    obtain ⟨x, -, hx⟩ := hfits c hc
    exact hx.solid
  · intro c hc hne
    obtain ⟨x, -, hx⟩ := hfits c hc
    have hwidth : width (cs.map Cell.fraction) ≤ fraction := by
      rw [width_le_iff, List.forall_mem_map]
      intro c' hc'
      obtain ⟨x', -, hx'⟩ := hfits c' hc'
      exact hx'.fraction_le
    have hle : c.fraction.length ≤ width (cs.map Cell.fraction) := length_le_width (List.mem_map_of_mem hc)
    rw [hx.fraction_eq hne] at hle ⊢
    exact Nat.le_antisymm hle hwidth

theorem fits_scientificCell (places : Nat) (x : Float) : Fits (places + 1) x (scientificCell places x) := by
  cases hvalue : value? x with
  | none =>
    obtain ⟨word, hprinted, hsolid, -, hcell⟩ := special_eq hvalue
    rw [hcell]
    refine ⟨?_, hsolid, Nat.zero_le _, fun hne => absurd rfl hne⟩
    rwa [Cell.text, List.append_nil, List.append_nil]
  | some v =>
    obtain ⟨negative, mant, exp, hread, -⟩ := read_of_value? hvalue
    obtain ⟨d, ps, hd, hps, hlength, hcell⟩ := scientificCell_eq hread places
    have hpoint := PointNotation.mk (negative && mant ≠ 0) hd hps (.inl (List.cons_ne_nil d []))
    have hfraction : ('.' :: ps).length = places + 1 := by rw [List.length_cons, hlength]
    rw [hcell]
    exact ⟨.scientific hvalue hpoint _, solid_point _ hd hps (isNumberChar_exponentText _), hfraction.le,
      fun _ => hfraction⟩

/-- In scientific notation zero and the numbers from `10 ^ -99` to below `10 ^ 99` have exponents of two digits. -/
theorem length_exponent_scientificCell {x : Float}
    (hbounds : ∀ v, value? x = some v → v = 0 ∨ 10 ^ (-99 : Int) ≤ |v| ∧ |v| < 10 ^ (99 : Int)) {places : Nat}
    (hne : (scientificCell places x).exponent ≠ []) : (scientificCell places x).exponent.length = 4 := by
  cases hvalue : value? x with
  | none =>
    obtain ⟨word, -, -, -, hcell⟩ := special_eq hvalue
    rw [hcell] at hne
    contradiction
  | some v =>
    obtain ⟨negative, mant, exp, hread, rfl⟩ := read_of_value? hvalue
    obtain ⟨d, ps, -, -, -, hcell⟩ := scientificCell_eq hread places
    rw [hcell]
    apply length_exponentText
    rcases hbounds _ hvalue with hzero | ⟨hlow, hhigh⟩
    · have hmant : mant = 0 := by
        by_contra hne
        have hpos := magnitude_pos (Nat.pos_of_ne_zero hne) exp
        rw [← abs_eq_zero, abs_signed, abs_of_pos hpos] at hzero
        exact hpos.ne' hzero
      simp [hmant, roundSignificant]
    · rw [abs_signed, abs_of_nonneg (magnitude_nonneg mant exp)] at hlow hhigh
      have hbounds := order_roundSignificant_bounds hlow hhigh places
      omega

section

variable {xs : List Float} {precision : Float} {places : Nat} (hplaces : places? precision = some places)

include hplaces

/-- Numbers of which none needs an exponent are all printed in positional notation. -/
theorem cells_of_not_needsExponent (h : ∀ x ∈ xs, needsExponent x = false) :
    ∃ cs, cells precision xs = .ok cs ∧ Alignable cs ∧ EvenExponents cs ∧
      List.Forall₂ (fun x c => x ∈ xs ∧ positionalCell precision x = .ok c) xs cs := by
  have hnone : xs.any needsExponent = false := by simpa using h
  have hcell : ∀ x ∈ xs, ∃ c, positionalCell precision x = .ok c := by
    intro x hx
    cases hvalue : value? x with
    | none =>
      obtain ⟨word, -, -, hcell, -⟩ := special_eq hvalue
      exact ⟨_, hcell precision⟩
    | some v =>
      obtain ⟨negative, n, ds, ps, hcell, -⟩ := positionalCell_of_value? hvalue (h x hx) hplaces
      exact ⟨_, hcell⟩
  obtain ⟨cs, hcs⟩ := exists_forall₂_iff.mpr hcell
  have hspec : ∀ c ∈ cs, c.Solid ∧ c.exponent = [] := by
    intro c hc
    obtain ⟨x, hx, hxc⟩ := exists_of_mem_forall₂ hcs c hc
    obtain ⟨hsolid, hnil, -⟩ := positionalCell_spec hxc (h x hx) hplaces
    exact ⟨hsolid, hnil⟩
  refine ⟨cs, ?_, ⟨fun c hc => (hspec c hc).1, ?_⟩, ?_, (List.forall₂_and_left xs cs).mpr ⟨fun x hx => hx, hcs⟩⟩
  · rw [cells, hnone, if_neg Bool.false_ne_true]
    exact mapM_eq_ok_iff_forall₂.mpr hcs
  · exact fun c hc hne => absurd (hspec c hc).2 hne
  · exact fun c hc _ _ hne _ => absurd (hspec c hc).2 hne

/-- If one number needs an exponent, all have exponents, and one count of digits after the point. -/
theorem cells_of_needsExponent (h : xs.any needsExponent = true) :
    ∃ shared, cells precision xs = .ok (xs.map (scientificCell shared)) := by
  have hcount : ∀ x ∈ xs, ∃ n, scientificPlaces precision x = .ok n := by
    intro x _
    unfold scientificPlaces
    split
    · rw [hplaces]
      exact ⟨_, rfl⟩
    · exact ⟨0, rfl⟩
  obtain ⟨counts, hcounts⟩ := exists_forall₂_iff.mpr hcount
  have hrun : xs.mapM (scientificPlaces precision) = .ok counts := mapM_eq_ok_iff_forall₂.mpr hcounts
  refine ⟨counts.foldl max 0, ?_⟩
  rw [cells, if_pos h, hrun]
  rfl

/-- The exponents have one length if there are none, and if they all have two digits. -/
theorem evenExponents_of_bounds {cs : List Cell} (hcells : cells precision xs = .ok cs)
    (hbounds : (∀ x ∈ xs, ∀ v, value? x = some v → |v| < 10 ^ 8) ∨
      ∀ x ∈ xs, ∀ v, value? x = some v → v = 0 ∨ 10 ^ (-99 : Int) ≤ |v| ∧ |v| < 10 ^ (99 : Int)) :
    EvenExponents cs := by
  cases hany : xs.any needsExponent with
  | true =>
    obtain ⟨shared, hcells'⟩ := cells_of_needsExponent hplaces hany
    obtain rfl : xs.map (scientificCell shared) = cs := Except.ok.inj (hcells'.symm.trans hcells)
    obtain ⟨large, hlarge, hneeds⟩ := List.any_eq_true.mp hany
    obtain ⟨v, hv⟩ := exists_value?_of_needsExponent hneeds
    rcases hbounds with hsmall | hbounds
    · exact absurd ((needsExponent_iff hv).mp hneeds) (not_le.mpr (hsmall large hlarge v hv))
    · have hlength : ∀ c ∈ xs.map (scientificCell shared), c.exponent ≠ [] → c.exponent.length = 4 := by
        rw [List.forall_mem_map]
        exact fun x hx => length_exponent_scientificCell (hbounds x hx)
      exact fun c hc c' hc' hne hne' => (hlength c hc hne).trans (hlength c' hc' hne').symm
  | false =>
    have hnone : ∀ x ∈ xs, needsExponent x = false := by simpa using hany
    obtain ⟨cs', hcells', -, heven, -⟩ := cells_of_not_needsExponent hplaces hnone
    obtain rfl : cs' = cs := Except.ok.inj (hcells'.symm.trans hcells)
    exact heven

/-- Cells with a place after the point can be lined up, and each of them prints its number. -/
theorem cells_spec (hpos : 0 < places) (xs : List Float) :
    ∃ cs, cells precision xs = .ok cs ∧ Alignable cs ∧ List.Forall₂ (fun x c => Printed x c.text) xs cs := by
  cases hany : xs.any needsExponent with
  | true =>
    obtain ⟨shared, hcells⟩ := cells_of_needsExponent hplaces hany
    have hfits : List.Forall₂ (Fits (shared + 1)) xs (xs.map (scientificCell shared)) := by
      rw [List.forall₂_map_right_iff, List.forall₂_same]
      exact fun x _ => fits_scientificCell shared x
    exact ⟨_, hcells, alignable_of_fits hfits, hfits.imp fun x c hc => hc.printed⟩
  | false =>
    have hnone : ∀ x ∈ xs, needsExponent x = false := by simpa using hany
    obtain ⟨cs, hcells, halignable, -, hcs⟩ := cells_of_not_needsExponent hplaces hnone
    refine ⟨cs, hcells, halignable, hcs.imp fun x c hc => ?_⟩
    obtain ⟨-, -, hprinted⟩ := positionalCell_spec hc.2 (hnone x hc.1) hplaces
    exact hprinted hpos

end

/-- An array of numbers of which none needs an exponent is read element by element, each one rounded to the given
    number of decimal places. Its text stands for the rounded number if there are such places; without them, exactly if
    it is no multiple of ten, since the zeros at its end are dropped with those of a fraction. -/
theorem bracketed_places {t : Tensor Float} (hwf : t.WellFormed) (hne : t.data.size ≠ 0) {precision : Float} {p : Nat}
    (hp : truncated? precision = some (p : Int)) (hmax : p ≤ 100)
    (hvalues : ∀ x ∈ t.data.toList, ∃ v, value? x = some v ∧ |v| < 10 ^ 8) :
    ∃ text nest tokens, bracketed t precision = .ok text ∧ read? text = some nest ∧
      nest.flatten? t.shape = some tokens ∧
      List.Forall₂ (fun x token => ∃ v w, value? x = some v ∧ RoundsToPlaces p v w ∧ |v - w| ≤ 1 / 2 / 10 ^ p ∧
        (PointNotation token w ↔ 0 < p ∨ ∀ m : Int, w ≠ 10 * m)) t.data.toList tokens := by
  have hplaces := places?_of_truncated? hp hmax
  have hsmall : ∀ x ∈ t.data.toList, needsExponent x = false := by
    intro x hx
    obtain ⟨v, hv, hlimit⟩ := hvalues x hx
    rw [← Bool.not_eq_true, needsExponent_iff hv]
    exact not_le.mpr hlimit
  obtain ⟨cs, hcells, halignable, heven, hcs⟩ := cells_of_not_needsExponent hplaces hsmall
  have hcount : cs.length = t.data.size := by rw [← hcs.length_eq, Array.length_toList]
  obtain ⟨text, nest, htext, hnest, htokens⟩ := read?_bracketed hwf hne hcells hcount halignable
  refine ⟨text, nest, cs.map Cell.text, htext, hnest, (htokens _).mpr ⟨heven, rfl⟩, ?_⟩
  rw [List.forall₂_map_right_iff]
  refine hcs.imp fun x c hc => ?_
  obtain ⟨v, hv, -⟩ := hvalues x hc.1
  obtain ⟨negative, n, ds, ps, hcell, hstripped, hrounds⟩ := positionalCell_of_value? hv (hsmall x hc.1) hplaces
  obtain rfl : ⟨signText negative ++ ds, '.' :: ps, []⟩ = c := Except.ok.inj (hcell.symm.trans hc.2)
  refine ⟨v, _, hv, hrounds, hrounds.abs_sub_le, ?_⟩
  rw [Cell.text, List.append_nil, hstripped.pointNotation_iff negative]
  rcases Nat.eq_zero_or_pos p with rfl | hpos
  · simp only [lt_irrefl, false_or, pow_zero, div_one]
    exact (signed_ne_ten_mul_iff negative n).symm
  · exact iff_of_true (.inl hpos) (.inl hpos)

/-- A half and a negative number, with one place. -/
theorem bracketed_places_two :
    let t : Tensor Float := ⟨[2], #[0.5, -12]⟩
    t.WellFormed ∧ t.data.size ≠ 0 ∧ truncated? 1 = some ((1 : Nat) : Int) ∧ value? 0.5 = some (1 / 2) ∧
      value? (-12) = some (-12) ∧ bracketed t 1 = .ok "[  0.5 -12. ]".toList ∧
      ∃ nest tokens, read? "[  0.5 -12. ]".toList = some nest ∧ nest.flatten? [2] = some tokens ∧
        List.Forall₂ (fun x token => ∃ v w, value? x = some v ∧ RoundsToPlaces 1 v w ∧ PointNotation token w)
          [0.5, -12] tokens := by
  intro t
  have htext : bracketed t 1 = .ok "[  0.5 -12. ]".toList := by decide +kernel
  have hhalf : read 0.5 = .finite false (2 ^ 52) (-53) := by decide +kernel
  have htwelve : read (-12) = .finite true (12 * 2 ^ 49) (-49) := by decide +kernel
  have hhalf' : value? 0.5 = some (1 / 2) := by
    rw [value?_of_read hhalf]
    norm_num [signed, magnitude]
  have htwelve' : value? (-12) = some (-12) := by
    rw [value?_of_read htwelve]
    norm_num [signed, magnitude]
  have hvalues : ∀ x ∈ t.data.toList, ∃ v, value? x = some v ∧ |v| < 10 ^ 8 := by
    simp only [t, List.forall_mem_cons]
    refine ⟨⟨_, hhalf', by norm_num⟩, ⟨_, htwelve', by norm_num⟩, List.forall_mem_nil _⟩
  have hprecision : truncated? 1 = some ((1 : Nat) : Int) := by decide +kernel
  obtain ⟨text, nest, tokens, hbracketed, hnest, htokens, hshown⟩ :=
    bracketed_places (t := t) rfl (by decide) hprecision (by decide) hvalues
  obtain rfl : "[  0.5 -12. ]".toList = text := Except.ok.inj (htext.symm.trans hbracketed)
  refine ⟨rfl, by decide, hprecision, hhalf', htwelve', htext, nest, tokens, hnest, htokens, hshown.imp ?_⟩
  rintro x token ⟨v, w, hv, hround, -, hpoint⟩
  exact ⟨v, w, hv, hround, hpoint.mpr (.inl (by decide))⟩

/-- Without places ten is printed as one, and twenty as two. -/
theorem bracketed_tens :
    let t : Tensor Float := ⟨[2], #[10, 20]⟩
    t.WellFormed ∧ truncated? 0 = some ((0 : Nat) : Int) ∧ value? 10 = some 10 ∧ value? 20 = some 20 ∧
      bracketed t 0 = .ok "[1. 2.]".toList ∧
      ¬ ∃ nest tokens, read? "[1. 2.]".toList = some nest ∧ nest.flatten? [2] = some tokens ∧
        List.Forall₂ (fun x token => ∃ v w, value? x = some v ∧ RoundsToPlaces 0 v w ∧ PointNotation token w)
          [10, 20] tokens := by
  intro t
  have hten : read 10 = .finite false (10 * 2 ^ 49) (-49) := by decide +kernel
  have htwenty : read 20 = .finite false (20 * 2 ^ 48) (-48) := by decide +kernel
  have hten' : value? 10 = some 10 := by
    rw [value?_of_read hten]
    norm_num [signed, magnitude]
  have htwenty' : value? 20 = some 20 := by
    rw [value?_of_read htwenty]
    norm_num [signed, magnitude]
  refine ⟨rfl, by decide +kernel, hten', htwenty', by decide +kernel, ?_⟩
  rintro ⟨nest, tokens, hnest, htokens, hshown⟩
  obtain rfl : list [leaf ['1', '.'], leaf ['2', '.']] = nest := Option.some.inj hnest
  have hwords : (list [leaf ['1', '.'], leaf ['2', '.']]).flatten? [2] = some [['1', '.'], ['2', '.']] := by
    simp [flatten?]
  obtain rfl : [['1', '.'], ['2', '.']] = tokens := Option.some.inj (hwords.symm.trans htokens)
  obtain ⟨⟨v, w, hv, hround, hpoint⟩, -⟩ := List.forall₂_cons.mp hshown
  obtain rfl : 10 = v := Option.some.inj (hten'.symm.trans hv)
  have hw : w = 10 := by
    have hnear := hround.nearest 10
    norm_num at hnear
    linarith
  have hone : AllDigits ['1'] := by simp [AllDigits]
  have hnone : AllDigits [] := List.forall_mem_nil _
  have hdigits : ofDigits ['1'] = 1 := rfl
  have hpoint' : PointNotation (signText false ++ ['1'] ++ '.' :: []) w := hpoint
  obtain ⟨-, hvalue⟩ := (pointNotation_iff hone hnone w).mp hpoint'
  norm_num [signed, hdigits, hw] at hvalue

/-- An array in brackets has all its cells in one width. It is read as nested lists of its shape exactly if its exponents
    have one length, and then with one token for each element, in row-major order; otherwise a shorter exponent stands
    apart from its digits. The exponents have one length if no number needs one, and if all of them have two digits. -/
theorem bracketed_tokens {t : Tensor Float} (hwf : t.WellFormed) (hne : t.data.size ≠ 0) (hrank : t.shape ≠ [])
    {precision : Float} {p : Nat} (hp : truncated? precision = some (p : Int)) (hmin : 1 ≤ p) (hmax : p ≤ 100) :
    ∃ text cs nest, bracketed t precision = .ok text ∧ cells precision t.data.toList = .ok cs ∧
      text = brackets (align cs).toArray 0 t.shape 0 ∧ (∃ w, ∀ cell ∈ align cs, cell.length = w) ∧
      read? text = some nest ∧
      (∀ tokens, nest.flatten? t.shape = some tokens → List.Forall₂ Printed t.data.toList tokens) ∧
      ((∃ tokens, nest.flatten? t.shape = some tokens) ↔ EvenExponents cs) ∧
      ((∀ x ∈ t.data.toList, ∀ v, value? x = some v → |v| < 10 ^ 8) ∨
          (∀ x ∈ t.data.toList, ∀ v, value? x = some v → v = 0 ∨ 10 ^ (-99 : Int) ≤ |v| ∧ |v| < 10 ^ (99 : Int)) →
        EvenExponents cs) := by
  have hplaces := places?_of_truncated? hp hmax
  obtain ⟨cs, hcells, halignable, hprinted⟩ := cells_spec hplaces hmin t.data.toList
  have hcount : cs.length = t.data.size := by rw [← hprinted.length_eq, Array.length_toList]
  obtain ⟨text, nest, htext, hnest, htokens⟩ := read?_bracketed hwf hne hcells hcount halignable
  have hbrackets : text = brackets (align cs).toArray 0 t.shape 0 := by
    rw [bracketed_eq hne hcells, if_neg hrank] at htext
    exact (Except.ok.inj htext).symm
  refine ⟨text, cs, nest, htext, hcells, hbrackets, ⟨_, fun cell => length_of_mem_align⟩, hnest, ?_, ?_,
    evenExponents_of_bounds hplaces hcells⟩
  · intro tokens hflatten
    obtain ⟨-, rfl⟩ := (htokens tokens).mp hflatten
    rwa [List.forall₂_map_right_iff]
  · constructor
    · rintro ⟨tokens, hflatten⟩
      exact ((htokens tokens).mp hflatten).1
    · exact fun heven => ⟨_, (htokens _).mpr ⟨heven, rfl⟩⟩

/-- A column with a word and a negative number. -/
theorem bracketed_tokens_column :
    let t : Tensor Float := ⟨[2, 1], #[0.0 / 0.0, -1.5]⟩
    t.WellFormed ∧ t.data.size ≠ 0 ∧ t.shape ≠ [] ∧ truncated? 4 = some ((4 : Nat) : Int) ∧
      bracketed t 4 = .ok "[[nan  ]\n [ -1.5]]".toList ∧
      ∃ nest tokens, read? "[[nan  ]\n [ -1.5]]".toList = some nest ∧ nest.flatten? [2, 1] = some tokens ∧
        List.Forall₂ Printed [0.0 / 0.0, -1.5] tokens := by
  intro t
  have htext : bracketed t 4 = .ok "[[nan  ]\n [ -1.5]]".toList := by decide +kernel
  have hprecision : truncated? 4 = some ((4 : Nat) : Int) := by decide +kernel
  have hnan : read (0.0 / 0.0) = .nan := by decide +kernel
  have hnumber : read (-1.5) = .finite true (3 * 2 ^ 51) (-52) := by decide +kernel
  obtain ⟨text, cs, nest, hbracketed, -, -, -, hnest, hprinted, htokens, hbounds⟩ :=
    bracketed_tokens (t := t) rfl (by decide) (by decide) hprecision (by decide) (by decide)
  obtain rfl : "[[nan  ]\n [ -1.5]]".toList = text := Except.ok.inj (htext.symm.trans hbracketed)
  have hsmall : ∀ x ∈ t.data.toList, ∀ v, value? x = some v → |v| < 10 ^ 8 := by
    simp only [t, List.forall_mem_cons, value?, hnan, hnumber]
    refine ⟨by simp, fun v hv => ?_, List.forall_mem_nil _⟩
    rw [← Option.some.inj hv]
    norm_num [signed, magnitude]
  obtain ⟨tokens, hflatten⟩ := htokens.mpr (hbounds (.inl hsmall))
  exact ⟨rfl, by decide, by decide, hprecision, htext, nest, tokens, hnest, hflatten, hprinted tokens hflatten⟩

/-- An exponent of two digits beside one of three stands apart from its digits. -/
theorem bracketed_gap :
    let t : Tensor Float := ⟨[2], #[1e100, 1e10]⟩
    t.WellFormed ∧ truncated? 4 = some ((4 : Nat) : Int) ∧ bracketed t 4 = .ok "[1.e+100 1. e+10]".toList ∧
      ∃ nest, read? "[1.e+100 1. e+10]".toList = some nest ∧ nest.flatten? [2] = none := by
  intro t
  refine ⟨rfl, by decide +kernel, by decide +kernel,
    list [leaf "1.e+100".toList, leaf "1.".toList, leaf "e+10".toList], rfl, ?_⟩
  rw [flatten?, if_neg (by decide)]

end ArrayCalc.Output
