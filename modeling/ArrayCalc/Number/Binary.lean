-- Powers of numbers are the ones of the core library, also where proofs import an algebraic notion of them.
attribute [default_instance (20000), instance (20000)] instPowNat

namespace ArrayCalc.Number

/-- What a double stands for. A finite one is `mant * 2 ^ exp`, with a sign that zero has too. -/
inductive Reading where
  | nan
  | infinite (negative : Bool)
  | finite (negative : Bool) (mant : Nat) (exp : Int)
  deriving Repr, DecidableEq

/-- The code of infinity. The codes below it are those of the finite magnitudes, in their order. -/
def infiniteCode : Nat := 2047 * 2 ^ 52

/-- The bits of a double without its sign. -/
def magnitudeCode (x : Float) : Nat := x.toBits.toNat % 2 ^ 63

def hasSign (x : Float) : Bool := 2 ^ 63 ≤ x.toBits.toNat

/-- The double with a given sign and magnitude code. -/
def ofCode (negative : Bool) (code : Nat) : Float :=
  Float.ofBits (UInt64.ofNat (if negative then code + 2 ^ 63 else code))

/-- The significand of a finite magnitude: 53 bits, fewer below the normal range. -/
def mantissa (code : Nat) : Nat :=
  if code < 2 ^ 52 then code else code % 2 ^ 52 + 2 ^ 52

/-- The power of two that scales the significand of a finite magnitude. -/
def exponent (code : Nat) : Int :=
  (max 1 (code / 2 ^ 52) : Nat) - 1075

def read (x : Float) : Reading :=
  let code := magnitudeCode x
  if code < infiniteCode then .finite (hasSign x) (mantissa code) (exponent code)
  else if code = infiniteCode then .infinite (hasSign x)
  else .nan

/-- A code is its significand, moved up by one stretch of codes for each power of two. -/
theorem code_eq (code : Nat) : (exponent code + 1074).toNat * 2 ^ 52 + mantissa code = code := by
  simp only [exponent, mantissa]
  split <;> omega

/-- A quotient rounded to the nearest number, of two equally near ones the even one. -/
def roundHalfEven (num den : Nat) : Nat :=
  let quotient := num / den
  let rest := 2 * (num % den)
  if rest < den then quotient
  else if den < rest then quotient + 1
  else quotient + quotient % 2

/-- The power of two at or below a positive fraction. -/
def binaryOrder (num den : Nat) : Int :=
  if den ≤ num then ((num / den).log2 : Int)
  else -(((den - 1) / num).log2 + 1 : Int)

/-- The code of the double nearest to a fraction, of two equally near ones the one with the even
    code. Fractions past the largest double give infinity. -/
def nearestCode (num den : Nat) : Nat :=
  if num = 0 then 0
  else
    let exp : Int := max (binaryOrder num den - 52) (-1074)
    let mant := roundHalfEven (num * 2 ^ (-exp).toNat) (den * 2 ^ exp.toNat)
    min infiniteCode ((exp + 1074).toNat * 2 ^ 52 + mant)

/-- The double nearest to a whole number. -/
def ofNat (n : Nat) : Float :=
  ofCode false (nearestCode n 1)

def ofInt : Int → Float
  | .ofNat n => ofNat n
  | .negSucc n => ofCode true (nearestCode (n + 1) 1)

/-- A finite magnitude as a fraction. -/
def fraction (mant : Nat) (exp : Int) : Nat × Nat :=
  (mant * 2 ^ exp.toNat, 2 ^ (-exp).toNat)

/-- A double cut off toward zero to a whole number; only a finite one has it. -/
def truncated? (x : Float) : Option Int :=
  match read x with
  | .finite negative mant exp =>
    let (num, den) := fraction mant exp
    some (if negative then -((num / den : Nat) : Int) else (num / den : Nat))
  | _ => none

/-- The whole number that a double is, when it is one and not below zero. -/
def toNat? (x : Float) : Option Nat :=
  match read x with
  | .finite negative mant exp =>
    let (num, den) := fraction mant exp
    if num % den = 0 ∧ (negative = false ∨ num = 0) then some (num / den) else none
  | _ => none

end ArrayCalc.Number
