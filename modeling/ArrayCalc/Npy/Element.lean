import ArrayCalc.Npy.Bytes
import ArrayCalc.Number.Binary

namespace ArrayCalc.Npy

/-- The kinds of numbers that an array file can hold. -/
inductive Kind where
  | float | signed | unsigned | boolean
  deriving DecidableEq, Repr

namespace Kind

def letter : Kind → Char
  | float => 'f'
  | signed => 'i'
  | unsigned => 'u'
  | boolean => 'b'

def ofLetter? (c : Char) : Option Kind :=
  [float, signed, unsigned, boolean].find? fun k => k.letter = c

/-- The sizes in bytes that an element of this kind can have. -/
def sizes : Kind → List Nat
  | float => [4, 8]
  | signed | unsigned => [1, 2, 4, 8]
  | boolean => [1]

end Kind

/-- How the elements of a file are stored. -/
structure ElementType where
  kind : Kind
  size : Nat
  littleEndian : Bool
  deriving DecidableEq, Repr

/-- The double with the value of a single-precision number, given by its bits. -/
def ofSingleBits (bits : Nat) : Float :=
  let negative := decide (2 ^ 31 ≤ bits)
  let biased := bits / 2 ^ 23 % 256
  let fraction := bits % 2 ^ 23
  if biased = 255 then Number.ofCode negative (Number.infiniteCode + if fraction = 0 then 0 else 1)
  else
    let mant := if biased = 0 then fraction else fraction + 2 ^ 23
    let (num, den) := Number.fraction mant ((max 1 biased : Nat) - 150)
    Number.ofCode negative (Number.nearestCode num den)

/-- The number that the bits of an element write; whole numbers past the exact range of doubles are
    rounded to the nearest. -/
def ElementType.ofBits (t : ElementType) (bits : Nat) : Float :=
  match t.kind with
  | .float => if t.size = 4 then ofSingleBits bits else Float.ofBits (UInt64.ofNat bits)
  | .boolean => if bits = 0 then 0 else 1
  | .unsigned => Number.ofNat bits
  | .signed =>
    if 2 * bits < 256 ^ t.size then Number.ofNat bits else Number.ofInt (bits - (256 ^ t.size : Nat))

/-- The number that the bytes of an element write. -/
def ElementType.read (t : ElementType) (bytes : List UInt8) : Float :=
  t.ofBits (ofLittleEndian (if t.littleEndian then bytes else bytes.reverse))

/-- The first `count` elements that a list of bytes holds. -/
def ElementType.readAll (t : ElementType) : (count : Nat) → List UInt8 → List Float
  | 0, _ => []
  | count + 1, bytes => t.read (bytes.take t.size) :: t.readAll count (bytes.drop t.size)

@[simp] theorem ElementType.length_readAll (t : ElementType) (count : Nat) (bytes : List UInt8) :
    (t.readAll count bytes).length = count := by
  induction count generalizing bytes with
  | zero => rfl
  | succ count ih => simp [readAll, ih]

end ArrayCalc.Npy
