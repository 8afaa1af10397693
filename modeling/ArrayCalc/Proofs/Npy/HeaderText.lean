import ArrayCalc.Npy.Header
import ArrayCalc.Proofs.Number.Compact
import ArrayCalc.Proofs.Text.Ascii
import ArrayCalc.Proofs.Text.Words

namespace ArrayCalc.Npy

/-- The keys of a header. -/
inductive Key where
  | elementType | order | shape
  deriving DecidableEq, Repr

def Key.name : Key → String
  | elementType => "descr"
  | order => "fortran_order"
  | shape => "shape"

/-- The marks for the byte order that may stand before the letter of an element type. -/
inductive ByteOrder where
  | unmarked | little | big | irrelevant | native
  deriving DecidableEq, Repr

namespace ByteOrder

def text : ByteOrder → List Char
  | unmarked => []
  | little => ['<']
  | big => ['>']
  | irrelevant => ['|']
  | native => ['=']

def littleEndian (order : ByteOrder) : Bool :=
  order != big

end ByteOrder

/-- A text that is read as a size. It holds no quotes, commas, blanks or parentheses. -/
structure IsSize (text : List Char) (d : Nat) : Prop where
  ne_nil : text ≠ []
  chars : ∀ c ∈ text, Number.isNumberChar c = true
  value : dimension text = .ok d

/-- What the values of a header declare, and how it writes sizes. -/
structure Declared where
  kind : Kind
  size : Nat
  order : ByteOrder
  columnMajor : Bool
  shape : Shape
  print : Nat → List Char

/-- A key of a header, with the counts of spaces around it and around its value. -/
structure Field where
  key : Key
  before : Nat
  beforeColon : Nat
  afterColon : Nat
  after : Nat
  deriving Repr

def spaces (count : Nat) : List Char :=
  List.replicate count ' '

def quoted (cs : List Char) : List Char :=
  '\'' :: (cs ++ ['\''])

namespace Declared

variable (d : Declared)

def element : ElementType :=
  ⟨d.kind, d.size, d.order.littleEndian⟩

def header : Header :=
  ⟨d.element, d.columnMajor, d.shape⟩

def valueText : Key → List Char
  | .elementType => quoted (d.order.text ++ d.kind.letter :: Number.digits d.size)
  | .order => if d.columnMajor then "True".toList else "False".toList
  | .shape => Shape.tupleText (d.shape.map d.print)

def fieldText (f : Field) : List Char :=
  spaces f.before ++ (quoted f.key.name.toList ++ (spaces f.beforeColon ++
    ':' :: (spaces f.afterColon ++ (d.valueText f.key ++ spaces f.after))))

/-- The fields of a header, the first after `opening` and the others after commas. -/
def fieldsText : (opening : Char) → List Field → List Char
  | _, [] => []
  | opening, f :: fs => opening :: (d.fieldText f ++ fieldsText ',' fs)

/-- The kind comes in the size, and the sizes of the shape are written so that they are read back. -/
structure Valid : Prop where
  size_mem : d.size ∈ d.kind.sizes
  isSize : ∀ n ∈ d.shape, IsSize (d.print n) n

end Declared

theorem dimension_of_ofText? {text : List Char} {n : Nat} {x : Float}
    (hchars : ∀ c ∈ text, Number.isNumberChar c = true) (htext : Number.ofText? text = some x)
    (hx : Number.toNat? x = some n) : dimension text = .ok n := by
  have hlast : text.getLast? ≠ some 'L' := by
    intro h
    have hchar := hchars 'L' (List.mem_of_getLast? h)
    simp [Number.isNumberChar] at hchar
  rw [dimension, if_neg hlast, htext, Option.bind_some, hx]

section

variable {n : Nat} (h : Number.Representable n)

include h

theorem isSize_digits : IsSize (Number.digits n) n := by
  have hchars := Number.isNumberChar_of_allDigits (Number.allDigits_digits n)
  exact ⟨Number.digits_ne_nil n, hchars,
    dimension_of_ofText? hchars (Number.ofText?_digits h) (Number.toNat?_ofNat h)⟩

theorem isSize_natText : IsSize (Number.natText n) n := by
  obtain ⟨hne, hchars, htext⟩ := Number.natText_of_representable h
  exact ⟨hne, hchars, dimension_of_ofText? hchars htext (Number.toNat?_ofNat h)⟩

end

theorem mem_spaces {count : Nat} {c : Char} (h : c ∈ spaces count) : c = ' ' :=
  List.eq_of_mem_replicate h

theorem quote_notMem_spaces (count : Nat) : '\'' ∉ spaces count := by
  intro h
  have hspace := mem_spaces h
  simp at hspace

/-- The text between the parentheses of a size tuple. -/
def sizesText : List (List Char) → List Char
  | [part] => part ++ [',']
  | parts => List.intercalate [',', ' '] parts

theorem tupleText_eq (parts : List (List Char)) : Shape.tupleText parts = '(' :: (sizesText parts ++ [')']) := by
  match parts with
  | [] => rfl
  | [part] => simp [Shape.tupleText, sizesText]
  | part :: next :: parts => rfl

/-- Between the parentheses only commas and spaces are added to the texts of the sizes. -/
theorem mem_sizesText {parts : List (List Char)} {c : Char} (h : c ∈ sizesText parts) :
    c ∈ [',', ' '] ∨ ∃ part ∈ parts, c ∈ part := by
  rw [sizesText.eq_def] at h
  split at h
  · rename_i part
    obtain h | h := List.mem_append.mp h
    · exact .inr ⟨part, List.mem_cons_self, h⟩
    · exact .inl (List.mem_cons.mpr (.inl (List.mem_singleton.mp h)))
  · exact Text.mem_intercalate h

theorem toNat_lt_of_isNumberChar {c : Char} (h : Number.isNumberChar c = true) : c.toNat < 0x80 := by
  rw [Number.isNumberChar, Bool.or_eq_true, decide_eq_true_eq] at h
  obtain hdigit | hmark := h
  · have hrange : 48 ≤ c.toNat ∧ c.toNat ≤ 57 := by
      simpa [Char.isDigit, UInt32.le_iff_toNat_le] using hdigit
    omega
  · have hmarks : ∀ mark ∈ ['.', 'e', 'E', '+', '-'], mark.toNat < 0x80 := by simp
    exact hmarks c hmark

theorem isAscii_spaces (count : Nat) : Text.IsAscii (spaces count) := by
  intro c hc
  simp [mem_spaces hc]

namespace Declared

variable {d : Declared} (hd : d.Valid)

theorem quote_notMem_elementType : '\'' ∉ d.order.text ++ d.kind.letter :: Number.digits d.size := by
  have horder : '\'' ∉ d.order.text := by
    cases d.order <;> simp [ByteOrder.text]
  have hletter : '\'' ≠ d.kind.letter := by
    cases d.kind <;> simp [Kind.letter]
  have hsize : '\'' ∉ Number.digits d.size := by
    intro h
    have hdigit := Number.allDigits_digits d.size _ h
    simp [Char.isDigit] at hdigit
  simp [horder, hletter, hsize]

include hd

/-- What holds of commas, of spaces and of the characters of numbers holds between the parentheses of a
    size tuple. -/
theorem forall_mem_shape {p : Char → Prop} (hmark : ∀ c ∈ [',', ' '], p c)
    (hchar : ∀ c, Number.isNumberChar c = true → p c) : ∀ c ∈ sizesText (d.shape.map d.print), p c := by
  intro c hc
  obtain hc | ⟨part, hpart, hc⟩ := mem_sizesText hc
  · exact hmark c hc
  · obtain ⟨n, hn, rfl⟩ := List.mem_map.mp hpart
    exact hchar c ((hd.isSize n hn).chars c hc)

/-- A mark that is no part of numbers does not stand between the parentheses. -/
theorem notMem_shape {c : Char} (hmark : c ∉ [',', ' ']) (hchar : Number.isNumberChar c = false) :
    c ∉ sizesText (d.shape.map d.print) := by
  intro hc
  refine forall_mem_shape hd (p := (· ≠ c)) ?_ ?_ c hc rfl
  · rintro c' hc' rfl
    exact hmark hc'
  · rintro c' hc' rfl
    rw [hchar] at hc'
    cases hc'

theorem quote_notMem_shape : '\'' ∉ Shape.tupleText (d.shape.map d.print) := by
  have hsizes : '\'' ∉ sizesText (d.shape.map d.print) := notMem_shape hd (by simp) (by simp [Number.isNumberChar])
  simp [tupleText_eq, hsizes]

theorem isAscii_valueText (key : Key) : Text.IsAscii (d.valueText key) := by
  cases key with
  | elementType =>
    have horder : Text.IsAscii d.order.text := by
      cases d.order <;> simp [ByteOrder.text]
    have hletter : d.kind.letter.toNat < 0x80 := by
      cases d.kind <;> simp [Kind.letter]
    have hsize : Text.IsAscii (Number.digits d.size) := fun c hc =>
      toNat_lt_of_isNumberChar (Number.isNumberChar_of_allDigits (Number.allDigits_digits d.size) c hc)
    simp [valueText, quoted, horder, hletter, hsize]
  | order =>
    rw [valueText]
    split <;> simp
  | shape =>
    have hsizes : Text.IsAscii (sizesText (d.shape.map d.print)) :=
      forall_mem_shape hd (by simp) fun c hc => toNat_lt_of_isNumberChar hc
    simp [valueText, tupleText_eq, hsizes]

theorem isAscii_fieldsText {opening : Char} (hopening : opening.toNat < 0x80) (fields : List Field) :
    Text.IsAscii (d.fieldsText opening fields) := by
  induction fields generalizing opening with
  | nil => simp [fieldsText]
  | cons field fields ih =>
    have hname : Text.IsAscii field.key.name.toList := by
      cases field.key <;> simp [Key.name]
    have htail := ih (show ','.toNat < 0x80 by simp)
    simp [fieldsText, fieldText, quoted, hopening, isAscii_spaces, hname, isAscii_valueText hd, htail]

end Declared

end ArrayCalc.Npy
