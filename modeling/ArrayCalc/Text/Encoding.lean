namespace ArrayCalc.Text

/-- The code points of the bytes `80` to `9F` in the single-byte western encoding; the five bytes
    that the encoding leaves open keep their control code. All other bytes are their own code point. -/
def westernHigh : List Nat :=
  [0x20AC, 0x81, 0x201A, 0x0192, 0x201E, 0x2026, 0x2020, 0x2021, 0x02C6, 0x2030, 0x0160, 0x2039, 0x0152, 0x8D,
   0x017D, 0x8F, 0x90, 0x2018, 0x2019, 0x201C, 0x201D, 0x2022, 0x2013, 0x2014, 0x02DC, 0x2122, 0x0161, 0x203A,
   0x0153, 0x9D, 0x017E, 0x0178]

def westernChar (b : UInt8) : Char :=
  Char.ofNat (if 0x80 ≤ b.toNat ∧ b.toNat ≤ 0x9F then westernHigh.getD (b.toNat - 0x80) b.toNat else b.toNat)

/-- Reads one character per byte. -/
def decodeWestern (bytes : List UInt8) : List Char :=
  bytes.map westernChar

theorem westernChar_of_lt {b : UInt8} (h : b.toNat < 0x80) : westernChar b = Char.ofNat b.toNat := by
  rw [westernChar, if_neg (by omega)]

/-- What the first byte of a multi-byte character announces: how many bytes follow, the bounds of
    the next byte (which exclude overlong forms, surrogates and values past the last code point), and
    its own share of the code point. -/
structure Lead where
  following : Nat
  low : Nat
  high : Nat
  bits : Nat

def Lead.ofByte? (b : Nat) : Option Lead :=
  if 0xC2 ≤ b ∧ b ≤ 0xDF then some ⟨1, 0x80, 0xBF, b - 0xC0⟩
  else if b = 0xE0 then some ⟨2, 0xA0, 0xBF, 0⟩
  else if b = 0xED then some ⟨2, 0x80, 0x9F, 0xD⟩
  else if 0xE1 ≤ b ∧ b ≤ 0xEF then some ⟨2, 0x80, 0xBF, b - 0xE0⟩
  else if b = 0xF0 then some ⟨3, 0x90, 0xBF, 0⟩
  else if b = 0xF4 then some ⟨3, 0x80, 0x8F, 4⟩
  else if 0xF1 ≤ b ∧ b ≤ 0xF3 then some ⟨3, 0x80, 0xBF, b - 0xF0⟩
  else none

/-- Begins a character with a byte: what is complete after it, and the character under way. -/
def startUnit (b : UInt8) : List (Option Char) × Option Lead :=
  if b.toNat < 0x80 then ([some (Char.ofNat b.toNat)], none)
  else
    match Lead.ofByte? b.toNat with
    | some lead => ([], some lead)
    | none => ([none], none)

/-- Takes in a byte after the character under way. A byte that cannot continue it is read anew. -/
def nextUnit (lead : Option Lead) (b : UInt8) : List (Option Char) × Option Lead :=
  match lead with
  | none => startUnit b
  | some l =>
    if l.low ≤ b.toNat ∧ b.toNat ≤ l.high then
      let bits := l.bits * 64 + (b.toNat - 0x80)
      if l.following ≤ 1 then ([some (Char.ofNat bits)], none)
      else ([], some ⟨l.following - 1, 0x80, 0xBF, bits⟩)
    else
      let (complete, next) := startUnit b
      (none :: complete, next)

/-- Reads UTF-8. A malformed sequence gives one `none` for its longest part that could begin a
    character. `lead` is the character under way. -/
def decodeUnits (lead : Option Lead) : List UInt8 → List (Option Char)
  | [] => if lead.isSome then [none] else []
  | b :: rest =>
    let (complete, next) := nextUnit lead b
    complete ++ decodeUnits next rest

/-- Drops one leading byte-order mark. -/
def dropMark (bytes : List UInt8) : List UInt8 :=
  match bytes with
  | 0xEF :: 0xBB :: 0xBF :: rest => rest
  | _ => bytes

/-- Reads UTF-8, or `none` where a sequence is malformed. -/
def decodeUtf8? (bytes : List UInt8) : Option (List Char) :=
  (decodeUnits none bytes).mapM id

/-- Reads UTF-8 and puts the replacement character for each malformed sequence. -/
def decodeUtf8Lossy (bytes : List UInt8) : List Char :=
  (decodeUnits none bytes).map (·.getD (Char.ofNat 0xFFFD))

def encodeUtf8 (cs : List Char) : List UInt8 :=
  cs.flatMap String.utf8EncodeChar

end ArrayCalc.Text
