import ArrayCalc.Npy.Element
import ArrayCalc.Proofs.Number.Rounding

namespace ArrayCalc.Npy

/-- What an element of an array file holds. -/
inductive Cell where
  | double (bits : UInt64)
  | single (bits : UInt32)
  | signed (n : Int)
  | unsigned (n : Nat)
  | boolean (byte : UInt8)
  deriving DecidableEq, Repr

/-- The value of single-precision bits: a sign, eight bits for the power of two and 23 bits after the leading
    one, which is implied unless the power is the lowest. -/
def IsSingle (bits : Nat) (x : Float) : Prop :=
  let negative : Bool := 2 ^ 31 ≤ bits
  let power := bits / 2 ^ 23 % 256
  let fraction := bits % 2 ^ 23
  if power = 255 then Number.read x = if fraction = 0 then .infinite negative else .nan
  else
    let count : Int := ((fraction + if power = 0 then 0 else 2 ^ 23) * 2 ^ (max 1 power + 924) : Nat)
    Number.hasSign x = negative ∧ Number.units? x = some (if negative then -count else count)

namespace Cell

/-- The element types that can hold a cell. -/
def Fits (kind : Kind) (size : Nat) : Cell → Prop
  | double _ => kind = .float ∧ size = 8
  | single _ => kind = .float ∧ size = 4
  | signed n => kind = .signed ∧ -(256 ^ size : Nat) ≤ 2 * n ∧ 2 * n < (256 ^ size : Nat)
  | unsigned n => kind = .unsigned ∧ n < 256 ^ size
  | boolean _ => kind = .boolean ∧ size = 1

instance (kind : Kind) (size : Nat) (cell : Cell) : Decidable (cell.Fits kind size) := by
  cases cell <;> exact instDecidableAnd

/-- The bits of a cell: negative numbers stand in two's complement. -/
def bits (size : Nat) : Cell → Nat
  | double bits => bits.toNat
  | single bits => bits.toNat
  | signed n => (n % (256 ^ size : Nat)).toNat
  | unsigned n => n
  | boolean byte => byte.toNat

def encode (size : Nat) (littleEndian : Bool) (cell : Cell) : List UInt8 :=
  let bytes := toLittleEndian size (cell.bits size)
  if littleEndian then bytes else bytes.reverse

def value : Cell → Float
  | double bits => Float.ofBits bits
  | single bits => ofSingleBits bits.toNat
  | signed n => Number.ofInt n
  | unsigned n => Number.ofNat n
  | boolean byte => if byte = 0 then 0 else 1

/-- What it means for a double to be the value of a cell: the same bits, for what is a number; the value of
    the single-precision bits; the nearest double to a whole number; zero or one. -/
def Denotes : Cell → Float → Prop
  | double bits, x =>
    if bits.toNat % 2 ^ 63 ≤ Number.infiniteCode then x.toBits = bits else Number.read x = .nan
  | single bits, x => IsSingle bits.toNat x
  | signed n, x => Number.IsNearest n x
  | unsigned n, x => Number.IsNearest n x
  | boolean byte, x => x = if byte = 0 then 0 else 1

@[simp] theorem length_encode (size : Nat) (littleEndian : Bool) (cell : Cell) :
    (cell.encode size littleEndian).length = size := by
  rw [encode]
  split <;> simp

end Cell

theorem isSingle_ofSingleBits (bits : Nat) : IsSingle bits (ofSingleBits bits) := by
  rw [IsSingle, ofSingleBits]
  dsimp only
  split
  · split
    · exact Number.read_infinite _
    · exact Number.read_ofCode_nan (Nat.lt_succ_self _) (by decide) _
  · have hmant : (bits % 2 ^ 23 + if bits / 2 ^ 23 % 256 = 0 then 0 else 2 ^ 23) < 2 ^ 53 := by
      split <;> omega
    have hmant' : (if bits / 2 ^ 23 % 256 = 0 then bits % 2 ^ 23 else bits % 2 ^ 23 + 2 ^ 23) =
        bits % 2 ^ 23 + if bits / 2 ^ 23 % 256 = 0 then 0 else 2 ^ 23 := by
      split <;> rfl
    have hpower : max 1 (bits / 2 ^ 23 % 256) ≤ 255 := by omega
    rw [hmant']
    generalize bits % 2 ^ 23 + (if bits / 2 ^ 23 % 256 = 0 then 0 else 2 ^ 23) = mant at *
    generalize max 1 (bits / 2 ^ 23 % 256) = power at *
    obtain ⟨code, hcode, hunits⟩ := Number.exists_units hmant (show 52 ≤ power + 924 by omega) (by omega)
    have hscale := Number.two_pow_scale (show (-1074 : Int) ≤ (power : Int) - 150 by omega)
    rw [show ((power : Int) - 150 + 1074).toNat = power + 924 by omega] at hscale
    have hnearest : Number.nearestCode (mant * 2 ^ ((power : Int) - 150).toNat) (2 ^ (-((power : Int) - 150)).toNat) =
        code := by
      refine Number.nearestCode_units (Nat.two_pow_pos _) hcode ?_
      rw [hunits, Nat.mul_assoc, hscale, Nat.mul_assoc]
    rw [Number.fraction, hnearest, Number.hasSign_ofCode (Nat.le_of_lt hcode), Number.units?_ofCode hcode, hunits]
    exact ⟨rfl, rfl⟩

namespace Cell

variable {kind : Kind} {size : Nat} {cell : Cell}

theorem bits_lt (h : cell.Fits kind size) : cell.bits size < 256 ^ size := by
  cases cell with
  | double bits =>
    obtain ⟨-, rfl⟩ := h
    exact bits.toNat_lt
  | single bits =>
    obtain ⟨-, rfl⟩ := h
    exact bits.toNat_lt
  | signed n =>
    have hpos : 0 < 256 ^ size := Nat.pow_pos (by omega)
    have hlt := Int.emod_lt_of_pos n (Int.natCast_pos.mpr hpos)
    have hnonneg := Int.emod_nonneg n (Int.natCast_ne_zero.mpr (Nat.ne_of_gt hpos))
    rw [bits]
    omega
  | unsigned n => exact h.2
  | boolean byte =>
    obtain ⟨-, rfl⟩ := h
    exact byte.toNat_lt

/-- The bits of a cell are read as its value. -/
theorem ofBits_bits (h : cell.Fits kind size) (littleEndian : Bool) :
    ElementType.ofBits ⟨kind, size, littleEndian⟩ (cell.bits size) = cell.value := by
  cases cell with
  | double bits =>
    obtain ⟨rfl, rfl⟩ := h
    rw [value, Cell.bits, ElementType.ofBits]
    dsimp only
    rw [if_neg (by decide), UInt64.ofNat_toNat]
  | single bits =>
    obtain ⟨rfl, rfl⟩ := h
    rw [value, Cell.bits, ElementType.ofBits]
    dsimp only
    rw [if_pos rfl]
  | signed n =>
    obtain ⟨rfl, hlow, hhigh⟩ := h
    rw [value, Cell.bits, ElementType.ofBits]
    dsimp only
    generalize hlimit : 256 ^ size = limit at *
    rcases Int.lt_or_le n 0 with hneg | hnonneg
    · have hmod : n % (limit : Int) = n + limit := by
        rw [← Int.add_emod_right, Int.emod_eq_of_lt (by omega) (by omega)]
      rw [hmod, if_neg (by omega)]
      congr 1
      omega
    · obtain ⟨k, rfl⟩ := Int.eq_ofNat_of_zero_le hnonneg
      rw [Int.emod_eq_of_lt hnonneg (by omega), Int.toNat_natCast, if_pos (by omega)]
      rfl
  | unsigned n =>
    obtain ⟨rfl, -⟩ := h
    rfl
  | boolean byte =>
    obtain ⟨rfl, rfl⟩ := h
    have hzero : byte.toNat = 0 ↔ byte = 0 := by
      rw [← UInt8.toNat_inj]
      rfl
    rw [value, Cell.bits, ElementType.ofBits]
    simp only [hzero]

/-- An element in either byte order is read as the value of its cell. -/
theorem read_encode (h : cell.Fits kind size) (littleEndian : Bool) :
    ElementType.read ⟨kind, size, littleEndian⟩ (cell.encode size littleEndian) = cell.value := by
  have hbytes : (if littleEndian then cell.encode size littleEndian else (cell.encode size littleEndian).reverse) =
      toLittleEndian size (cell.bits size) := by
    cases littleEndian <;> simp [encode]
  rw [ElementType.read, hbytes, ofLittleEndian_toLittleEndian (bits_lt h), ofBits_bits h]

/-- So is a run of elements, whatever bytes come after it. -/
theorem readAll_encode {cells : List Cell} (h : ∀ cell ∈ cells, cell.Fits kind size) (littleEndian : Bool)
    (rest : List UInt8) :
    ElementType.readAll ⟨kind, size, littleEndian⟩ cells.length
      (cells.flatMap (encode size littleEndian) ++ rest) = cells.map value := by
  induction cells with
  | nil => rfl
  | cons cell cells ih =>
    have htail := ih fun other hother => h other (List.mem_cons_of_mem cell hother)
    rw [List.length_cons, ElementType.readAll, List.flatMap_cons, List.append_assoc,
      List.take_left' (length_encode size littleEndian cell), List.drop_left' (length_encode size littleEndian cell),
      read_encode (h cell List.mem_cons_self), htail, List.map_cons]

/-- No element takes more than eight bytes. -/
theorem pow_size_le (hsize : size ∈ kind.sizes) : 256 ^ size ≤ 2 ^ 64 := by
  have hmost : ∀ k ∈ kind.sizes, k ≤ 8 := by
    cases kind <;> simp [Kind.sizes]
  exact Nat.pow_le_pow_right (n := 256) (by omega) (hmost size hsize)

/-- The value that is read for a cell is the one it stands for. -/
theorem denotes_value (h : cell.Fits kind size) (hsize : size ∈ kind.sizes) : cell.Denotes cell.value := by
  cases cell with
  | double bits =>
    rw [Denotes]
    split
    · rename_i hnumber
      exact Number.toBits_ofBits hnumber
    · rename_i hnan
      exact Number.read_ofBits_nan (Nat.lt_of_not_le hnan)
  | single bits => exact isSingle_ofSingleBits bits.toNat
  | signed n =>
    obtain ⟨-, hlow, hhigh⟩ := h
    have hlimit := pow_size_le hsize
    exact Number.isNearest_ofInt (by omega)
  | unsigned n =>
    have hlimit := pow_size_le hsize
    exact Number.isNearest_ofNat (Nat.le_of_lt (Nat.lt_of_lt_of_le h.2 hlimit))
  | boolean byte => rfl

end Cell

end ArrayCalc.Npy
