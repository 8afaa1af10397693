import ArrayCalc.Proofs.Npy.HeaderText

namespace ArrayCalc.Npy

theorem toList_quotes (key : Key) : ("'" ++ key.name ++ "'").toList = quoted key.name.toList := by
  cases key <;> rfl

/-- A search whose results all begin with a given key. -/
def Opens {α : Type} (key : Key) (f : List Char → Option α) : Prop :=
  ∀ cs, Text.after? (quoted key.name.toList) cs = none → f cs = none

theorem afterKey?_eq_none (key : Key) {cs : List Char} (h : Text.after? (quoted key.name.toList) cs = none) :
    afterKey? key.name cs = none := by
  rw [afterKey?, toList_quotes, h]
  rfl

theorem opens_elementType? : Opens .elementType elementType? := by
  intro cs h
  have hkey : afterKey? "descr" cs = none := afterKey?_eq_none .elementType h
  rw [elementType?, hkey]
  rfl

theorem opens_columnMajor? : Opens .order columnMajor? := by
  intro cs h
  have hkey : afterKey? "fortran_order" cs = none := afterKey?_eq_none .order h
  rw [columnMajor?, hkey]
  rfl

theorem opens_shapeText? : Opens .shape shapeText? := by
  intro cs h
  have hkey : afterKey? "shape" cs = none := afterKey?_eq_none .shape h
  rw [shapeText?, hkey]
  rfl

section

variable {α : Type} {key : Key} {f : List Char → Option α} (hf : Opens key f)

include hf

theorem search?_cons {c : Char} {cs : List Char} (h : Text.after? (quoted key.name.toList) (c :: cs) = none) :
    search? f (c :: cs) = search? f cs := by
  rw [search?, hf _ h]
  rfl

/-- Text without quotes is passed over. -/
theorem search?_append {cs : List Char} (hcs : '\'' ∉ cs) (rest : List Char) :
    search? f (cs ++ rest) = search? f rest := by
  induction cs with
  | nil => rfl
  | cons c cs ih =>
    have hc : '\'' ≠ c := fun h => hcs (h ▸ List.mem_cons_self)
    have hrest := ih fun h => hcs (List.mem_cons_of_mem c h)
    rw [List.cons_append, search?_cons hf, hrest]
    rw [quoted, Text.after?, if_neg hc]

/-- A quoted text is passed over when the key begins neither at its first quote nor at its last. -/
theorem search?_quoted {cs rest : List Char} (hcs : '\'' ∉ cs)
    (hopen : Text.after? (quoted key.name.toList) (quoted cs ++ rest) = none)
    (hclose : Text.after? (quoted key.name.toList) ('\'' :: rest) = none) :
    search? f (quoted cs ++ rest) = search? f rest := by
  have hquoted : quoted cs ++ rest = '\'' :: (cs ++ '\'' :: rest) := by simp [quoted]
  rw [hquoted] at hopen ⊢
  rw [search?_cons hf hopen, search?_append hf hcs, search?_cons hf hclose]

end

/-- No key begins at a quote that spaces and punctuation follow. -/
theorem after?_closing (key : Key) (count : Nat) {c : Char} (hc : c ∈ [':', ',', '\x7d']) (cs : List Char) :
    Text.after? (quoted key.name.toList) ('\'' :: (spaces count ++ c :: cs)) = none := by
  have hhead : ∃ first rest, spaces count ++ c :: cs = first :: rest ∧ first ∈ [' ', ':', ',', '\x7d'] := by
    cases count with
    | zero => exact ⟨c, cs, rfl, List.mem_cons_of_mem _ hc⟩
    | succ count => exact ⟨' ', spaces count ++ c :: cs, rfl, List.mem_cons_self⟩
  obtain ⟨first, rest, htext, hfirst⟩ := hhead
  have hletter : ∀ first ∈ [' ', ':', ',', '\x7d'], 'd' ≠ first ∧ 'f' ≠ first ∧ 's' ≠ first := by simp
  obtain ⟨hd, hf, hs⟩ := hletter first hfirst
  rw [htext]
  cases key with
  | elementType => exact if_neg hd
  | order => exact if_neg hf
  | shape => exact if_neg hs

/-- A key does not begin where another one stands. -/
theorem after?_name {key other : Key} (h : other ≠ key) (rest : List Char) :
    Text.after? (quoted key.name.toList) (quoted other.name.toList ++ rest) = none := by
  cases key <;> cases other <;> first | rfl | contradiction

theorem exists_digits (n : Nat) : ∃ c cs, Number.digits n = c :: cs ∧ c.isDigit = true := by
  obtain ⟨c, cs, hdigits⟩ := List.exists_cons_of_ne_nil (Number.digits_ne_nil n)
  exact ⟨c, cs, hdigits, Number.allDigits_digits n c (hdigits ▸ List.mem_cons_self)⟩

/-- The other keys do not begin where the element type stands; a float's `'f8'` is the close one. -/
theorem after?_elementType {key : Key} (h : key ≠ .elementType) (order : ByteOrder) (kind : Kind) (size : Nat)
    (rest : List Char) :
    Text.after? (quoted key.name.toList) ('\'' :: (order.text ++ kind.letter :: (Number.digits size ++ rest))) =
      none := by
  obtain ⟨c, cs, hdigits, hc⟩ := exists_digits size
  have hletter : 'o' ≠ c := by
    rintro rfl
    exact absurd hc (by decide)
  have hfloat : Text.after? (quoted Key.order.name.toList) ('\'' :: 'f' :: (Number.digits size ++ rest)) = none := by
    rw [hdigits]
    exact if_neg hletter
  cases key with
  | elementType => contradiction
  | order =>
    cases order with
    | unmarked =>
      cases kind with
      | float => exact hfloat
      | _ => rfl
    | _ => rfl
  | shape => cases order <;> cases kind <;> rfl

namespace Declared

variable {d : Declared} (hd : d.Valid)

include hd

/-- A search for one key passes over the fields of the others. -/
theorem search?_fieldText {α : Type} {key : Key} {f : List Char → Option α} (hf : Opens key f) {field : Field}
    (hkey : field.key ≠ key) {c : Char} (hc : c ∈ [':', ',', '\x7d']) (cs : List Char) :
    search? f (d.fieldText field ++ c :: cs) = search? f (c :: cs) := by
  have hspaces (count : Nat) (rest : List Char) : search? f (spaces count ++ rest) = search? f rest :=
    search?_append hf (quote_notMem_spaces count) rest
  have hname : '\'' ∉ field.key.name.toList := by cases field.key <;> decide
  have hvalue : search? f (d.valueText field.key ++ (spaces field.after ++ c :: cs)) = search? f (c :: cs) := by
    rw [← hspaces field.after (c :: cs)]
    rw [valueText.eq_def]
    split
    · rename_i hfield
      have hother : key ≠ .elementType := fun h => hkey (hfield.trans h.symm)
      refine search?_quoted hf quote_notMem_elementType ?_ (after?_closing key _ hc cs)
      have hopen := after?_elementType hother d.order d.kind d.size ('\'' :: (spaces field.after ++ c :: cs))
      simpa [quoted] using hopen
    · refine search?_append hf ?_ _
      split <;> decide
    · exact search?_append hf (quote_notMem_shape hd) _
  have hcolon : search? f (':' :: (spaces field.afterColon ++ (d.valueText field.key ++
      (spaces field.after ++ c :: cs)))) = search? f (c :: cs) := by
    rw [search?_cons hf rfl, hspaces, hvalue]
  simp only [fieldText, List.append_assoc, List.cons_append]
  rw [hspaces, search?_quoted hf hname (after?_name hkey _) (after?_closing key _ (by simp) _), hspaces, hcolon]

end Declared

theorem isBlank_of_mem_spaces (count : Nat) : ∀ c ∈ spaces count, Text.isBlank c = true := by
  intro c hc
  rw [mem_spaces hc]
  exact Text.isBlank_space

theorem dropWhile_spaces (count : Nat) {c : Char} (hc : Text.isBlank c = false) (cs : List Char) :
    (spaces count ++ c :: cs).dropWhile Text.isBlank = c :: cs :=
  Text.dropWhile_blanks_append (isBlank_of_mem_spaces count) (by simp [hc])

theorem afterKey?_text (key : Key) (before after : Nat) {c : Char} (hc : Text.isBlank c = false) (cs : List Char) :
    afterKey? key.name (quoted key.name.toList ++ (spaces before ++ ':' :: (spaces after ++ c :: cs))) =
      some (c :: cs) := by
  have hkey := Text.after?_eq_some_iff.mpr (rfl : quoted key.name.toList ++ (spaces before ++
    ':' :: (spaces after ++ c :: cs)) = quoted key.name.toList ++ _)
  rw [afterKey?, toList_quotes, hkey]
  simp only [Option.bind_eq_bind, Option.bind_some]
  rw [dropWhile_spaces before (by decide)]
  simp only [Text.after?, if_true, Option.bind_some]
  rw [dropWhile_spaces after hc]

namespace Declared

variable (d : Declared) (before after : Nat) (rest : List Char)

theorem elementType?_text :
    elementType? (quoted Key.elementType.name.toList ++ (spaces before ++ ':' :: (spaces after ++
      (d.valueText .elementType ++ rest)))) = some d.element := by
  have hvalue : d.valueText .elementType ++ rest =
      '\'' :: (d.order.text ++ d.kind.letter :: (Number.digits d.size ++ '\'' :: rest)) := by
    simp [valueText, quoted]
  have hkey := afterKey?_text .elementType before after (c := '\'') (by decide)
    (d.order.text ++ d.kind.letter :: (Number.digits d.size ++ '\'' :: rest))
  have hspan := Number.spanDigits_append (Number.allDigits_digits d.size) ('\'' :: rest) (by simp)
  have hdigits := Number.digits_ne_nil d.size
  have hquote : "'".toList = ['\''] := rfl
  rw [hvalue, elementType?]
  change Option.bind (afterKey? Key.elementType.name _) _ = _
  rw [hkey]
  cases horder : d.order <;> cases hkind : d.kind <;>
    simp [hquote, Text.after?, ByteOrder.text, Kind.letter, Kind.ofLetter?, hspan, hdigits, Number.ofDigits_digits,
      element, horder, hkind, ByteOrder.littleEndian]

theorem columnMajor?_text :
    columnMajor? (quoted Key.order.name.toList ++ (spaces before ++ ':' :: (spaces after ++
      (d.valueText .order ++ rest)))) = some d.columnMajor := by
  have htrue : Text.after? "True".toList ("True".toList ++ rest) = some rest := Text.after?_eq_some_iff.mpr rfl
  have hfalse : Text.after? "False".toList ("False".toList ++ rest) = some rest := Text.after?_eq_some_iff.mpr rfl
  have hother : Text.after? "True".toList ("False".toList ++ rest) = none := rfl
  rw [columnMajor?, valueText]
  change Option.bind (afterKey? Key.order.name _) _ = _
  cases d.columnMajor with
  | true =>
    have hkey : afterKey? _ (_ ++ (_ ++ ':' :: (_ ++ ("True".toList ++ rest)))) = some ("True".toList ++ rest) :=
      afterKey?_text .order before after (by decide) ("rue".toList ++ rest)
    rw [if_pos rfl, hkey, Option.bind_some, htrue]
  | false =>
    have hkey : afterKey? _ (_ ++ (_ ++ ':' :: (_ ++ ("False".toList ++ rest)))) = some ("False".toList ++ rest) :=
      afterKey?_text .order before after (by decide) ("alse".toList ++ rest)
    rw [if_neg Bool.false_ne_true, hkey, Option.bind_some, hother, hfalse]

theorem shapeText?_text (hd : d.Valid) :
    shapeText? (quoted Key.shape.name.toList ++ (spaces before ++ ':' :: (spaces after ++
      (d.valueText .shape ++ rest)))) = some (sizesText (d.shape.map d.print)) := by
  have hvalue : d.valueText .shape ++ rest = '(' :: (sizesText (d.shape.map d.print) ++ ')' :: rest) := by
    simp [valueText, tupleText_eq]
  have hclose : ∀ c ∈ sizesText (d.shape.map d.print), c ≠ ')' := by
    rintro c hc rfl
    exact notMem_shape hd (by simp) (by simp [Number.isNumberChar]) hc
  have hkey := afterKey?_text .shape before after (c := '(') (by decide)
    (sizesText (d.shape.map d.print) ++ ')' :: rest)
  rw [hvalue, shapeText?]
  change Option.bind (afterKey? Key.shape.name _) _ = _
  rw [hkey]
  have htake : (sizesText (d.shape.map d.print) ++ ')' :: rest).takeWhile (· ≠ ')') =
      sizesText (d.shape.map d.print) := by
    rw [List.takeWhile_append_of_pos (by simpa using hclose)]
    simp
  have hmem : ')' ∈ sizesText (d.shape.map d.print) ++ ')' :: rest := List.mem_append_right _ List.mem_cons_self
  simp only [Option.bind_some, Text.after?, if_true, Option.bind_eq_bind]
  rw [if_pos hmem, htake]

end Declared

/-- The pieces between commas that are not blank. -/
def pieces (text : List Char) : List (List Char) :=
  ((text.splitOn ',').map Text.trim).filter (· ≠ [])

theorem shape_eq (text : List Char) : shape text = (pieces text).mapM dimension :=
  rfl

theorem pieces_append (cs rest : List Char) : pieces (cs ++ ',' :: rest) = pieces cs ++ pieces rest := by
  rw [pieces, List.splitOn_append_cons_self, List.map_append, List.filter_append]
  rfl

section

variable {text : List Char} {n : Nat} (h : IsSize text n)

include h

theorem trim_spaces_append (count : Nat) : Text.trim (spaces count ++ text) = text := by
  have hblank : ∀ c ∈ text, Text.isBlank c = false := fun c hc => Number.not_isBlank_of_isNumberChar (h.chars c hc)
  have htrim : Text.trim (spaces count ++ text ++ []) = text :=
    Text.trim_surrounded (isBlank_of_mem_spaces count) nofun (fun c hc => hblank c (List.mem_of_mem_head? hc))
      fun c hc => hblank c (List.mem_of_mem_getLast? hc)
  rwa [List.append_nil] at htrim

theorem pieces_size (count : Nat) : pieces (spaces count ++ text) = [text] := by
  have hcomma : ',' ∉ spaces count ++ text := by
    intro hmem
    obtain hmem | hmem := List.mem_append.mp hmem
    · have hspace := mem_spaces hmem
      simp at hspace
    · have hchar := h.chars _ hmem
      simp [Number.isNumberChar] at hchar
  rw [pieces, List.splitOn_eq_singleton hcomma, List.map_singleton, trim_spaces_append h]
  exact List.filter_cons_of_pos (by simpa using h.ne_nil)

end

section

variable {print : Nat → List Char}

theorem pieces_intercalate (n : Nat) (s : Shape) (count : Nat) (hsizes : ∀ k ∈ n :: s, IsSize (print k) k) :
    pieces (spaces count ++ List.intercalate [',', ' '] ((n :: s).map print)) = (n :: s).map print := by
  induction s generalizing n count with
  | nil =>
    rw [List.map_singleton, List.intercalate_singleton]
    exact pieces_size (hsizes n List.mem_cons_self) count
  | cons m s ih =>
    have htail := ih m 1 fun k hk => hsizes k (List.mem_cons_of_mem n hk)
    have hsplit : spaces count ++ List.intercalate [',', ' '] ((n :: m :: s).map print) =
        (spaces count ++ print n) ++ ',' :: (spaces 1 ++ List.intercalate [',', ' '] ((m :: s).map print)) := by
      rw [List.map_cons, List.map_cons, List.intercalate_cons_cons]
      simp [spaces]
    rw [hsplit, pieces_append, pieces_size (hsizes n List.mem_cons_self), htail]
    rfl

theorem pieces_sizesText {s : Shape} (hsizes : ∀ k ∈ s, IsSize (print k) k) :
    pieces (sizesText (s.map print)) = s.map print := by
  match s with
  | [] => rfl
  | [n] =>
    have hone := pieces_size (hsizes n List.mem_cons_self) 0
    have hcomma : pieces (print n ++ [',']) = pieces (print n) ++ pieces [] := pieces_append _ _
    rw [List.map_singleton, sizesText, hcomma]
    rw [spaces, List.replicate_zero, List.nil_append] at hone
    rw [hone]
    rfl
  | n :: m :: s => exact pieces_intercalate n (m :: s) 0 hsizes

/-- The text of the sizes is read as them, whatever the rank. -/
theorem shape_sizesText {s : Shape} (hsizes : ∀ k ∈ s, IsSize (print k) k) :
    shape (sizesText (s.map print)) = .ok s := by
  rw [shape_eq, pieces_sizesText hsizes]
  induction s with
  | nil => rfl
  | cons n s ih =>
    have htail := ih fun k hk => hsizes k (List.mem_cons_of_mem n hk)
    rw [List.map_cons, List.mapM_cons, (hsizes n List.mem_cons_self).value, htail]
    rfl

end

theorem search?_of_eq_some {α : Type} {f : List Char → Option α} {cs : List Char} {a : α} (h : f cs = some a) :
    search? f cs = some a := by
  cases cs with
  | nil => rw [search?, h]
  | cons c cs =>
    rw [search?, h]
    rfl

namespace Declared

variable {d : Declared} (hd : d.Valid) {fields : List Field} {c : Char} (hc : c ∈ [':', ',', '\x7d']) (cs : List Char)

include hd hc

/-- A search for a key finds its value wherever the key stands among the fields. -/
theorem search?_fieldsText {α : Type} {key : Key} {f : List Char → Option α} {a : α} (hf : Opens key f)
    (hfound : ∀ before after rest, f (quoted key.name.toList ++ (spaces before ++ ':' :: (spaces after ++
      (d.valueText key ++ rest)))) = some a)
    (hkey : ∃ field ∈ fields, field.key = key) (opening : Char) (hopening : opening ≠ '\'') :
    search? f (d.fieldsText opening fields ++ c :: cs) = some a := by
  induction fields generalizing opening with
  | nil =>
    obtain ⟨field, hmem, -⟩ := hkey
    cases hmem
  | cons field fields ih =>
    have hskip : search? f (opening :: (d.fieldText field ++ (d.fieldsText ',' fields ++ c :: cs))) =
        search? f (d.fieldText field ++ (d.fieldsText ',' fields ++ c :: cs)) :=
      search?_cons hf (if_neg hopening.symm)
    rw [fieldsText, List.cons_append, List.append_assoc, hskip]
    -- the search ends at the first field with the key and passes over the others
    by_cases hfield : field.key = key
    · rw [fieldText, List.append_assoc, search?_append hf (quote_notMem_spaces _)]
      apply search?_of_eq_some
      rw [hfield]
      simp only [List.append_assoc, List.cons_append]
      exact hfound _ _ _
    · have hother : ∃ other ∈ fields, other.key = key := by
        obtain ⟨other, hmem, hother⟩ := hkey
        rcases List.mem_cons.mp hmem with rfl | hmem
        · exact absurd hother hfield
        · exact ⟨other, hmem, hother⟩
      have hrest : ∃ c' cs', d.fieldsText ',' fields ++ c :: cs = c' :: cs' ∧ c' ∈ [':', ',', '\x7d'] := by
        cases fields with
        | nil => exact ⟨c, cs, rfl, hc⟩
        | cons next fields => exact ⟨',', _, rfl, by simp⟩
      obtain ⟨c', cs', htext, hc'⟩ := hrest
      rw [htext, search?_fieldText hd hf hfield hc', ← htext]
      exact ih hother ',' (by simp)

/-- A header with every key says what it declares, in whatever order and with whatever spaces the keys
    stand in it and whatever follows them. -/
theorem ofText_fieldsText (hkeys : ∀ key, ∃ field ∈ fields, field.key = key) :
    Header.ofText (d.fieldsText '\x7b' fields ++ c :: cs) = .ok d.header := by
  have helement := search?_fieldsText hd hc cs opens_elementType? d.elementType?_text (hkeys .elementType)
    '\x7b' (by simp)
  have horder := search?_fieldsText hd hc cs opens_columnMajor? d.columnMajor?_text (hkeys .order)
    '\x7b' (by simp)
  have hshape := search?_fieldsText hd hc cs opens_shapeText?
    (fun before after rest => d.shapeText?_text before after rest hd) (hkeys .shape) '\x7b' (by simp)
  have hsize : ¬ d.element.size ∉ d.element.kind.sizes := not_not_intro hd.size_mem
  have hsizes := shape_sizesText hd.isSize
  rw [Header.ofText, helement]
  dsimp only
  rw [if_neg hsize, horder]
  dsimp only
  rw [hshape]
  dsimp only
  rw [hsizes]
  rfl

end Declared

end ArrayCalc.Npy
