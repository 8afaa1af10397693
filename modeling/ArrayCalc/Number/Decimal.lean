import ArrayCalc.Number.Binary
import ArrayCalc.Number.Digits

namespace ArrayCalc.Number

/-- The non-negative decimal `coeff * 10 ^ exp`. -/
structure Decimal where
  coeff : Nat
  exp : Int
  deriving Repr, DecidableEq

/-- A quotient rounded to the nearest number, of two equally near ones the larger one. -/
def roundHalfUp (num den : Nat) : Nat :=
  (2 * num + den) / (2 * den)

/-- The power of ten at or below a positive fraction. -/
def decimalOrder (num den : Nat) : Int :=
  if den ≤ num then (digitCount (num / den) : Int) - 1
  else -(digitCount ((den - 1) / num) : Int)

/-- A fraction times a power of ten. -/
def scaleTen (num den : Nat) (power : Int) : Nat × Nat :=
  (num * 10 ^ power.toNat, den * 10 ^ (-power).toNat)

namespace Decimal

/-- A decimal as a fraction. -/
def fraction (d : Decimal) : Nat × Nat :=
  scaleTen d.coeff 1 d.exp

/-- The power of ten of the leading digit. -/
def order (d : Decimal) : Int :=
  d.exp + digitCount d.coeff - 1

/-- The code of the double nearest to a decimal. Orders far outside those of the doubles are decided
    without writing the power of ten out. -/
def nearestCode (d : Decimal) : Nat :=
  if d.coeff = 0 ∨ d.order < -400 then 0
  else if 400 < d.order then infiniteCode
  else Number.nearestCode d.fraction.1 d.fraction.2

def toFloat (negative : Bool) (d : Decimal) : Float :=
  ofCode negative d.nearestCode

/-- Moves trailing zeros of the coefficient into the exponent. -/
def normalize (d : Decimal) : Decimal :=
  if d.coeff ≠ 0 ∧ d.coeff % 10 = 0 then normalize ⟨d.coeff / 10, d.exp + 1⟩ else d
termination_by d.coeff
decreasing_by
  simp only [ne_eq] at *
  omega

end Decimal

/-- A finite magnitude rounded to `places` digits after the point, ties upward, as a multiple of the
    last place. -/
def roundPlaces (mant : Nat) (exp : Int) (places : Nat) : Nat :=
  let (num, den) := fraction mant exp
  roundHalfUp (num * 10 ^ places) den

/-- A finite magnitude rounded to `extra + 1` significant digits, ties upward. -/
def roundSignificant (mant : Nat) (exp : Int) (extra : Nat) : Decimal :=
  if mant = 0 then ⟨0, -extra⟩
  else
    let (num, den) := fraction mant exp
    let last := decimalOrder num den - extra
    let (num, den) := scaleTen num den (-last)
    let coeff := roundHalfUp num den
    if coeff = 10 ^ (extra + 1) then ⟨10 ^ extra, last + 1⟩ else ⟨coeff, last⟩

/-- The neighbours of a positive finite magnitude on the grid of `extra + 1` significant digits that
    read back as it, the nearer one first and of two equally near ones the even one. -/
def readingBack (code extra : Nat) : List Decimal :=
  let (num, den) := fraction (mantissa code) (exponent code)
  let last := decimalOrder num den - extra
  let (num, den) := scaleTen num den (-last)
  let below := num / den
  let rest := 2 * (num % den)
  let order := if rest < den ∨ (rest = den ∧ below % 2 = 0) then [below, below + 1] else [below + 1, below]
  (order.map fun coeff => Decimal.mk coeff last).filter fun d => d.nearestCode = code

/-- A finite magnitude written out in full. -/
def exactDecimal (mant : Nat) (exp : Int) : Decimal :=
  ⟨mant * 2 ^ exp.toNat * 5 ^ (-exp).toNat, min exp 0⟩

/-- The decimal with the fewest digits that reads back as a finite magnitude, and of those the
    nearest. Seventeen digits are enough; the exact decimal stands behind them. -/
def shortest (code : Nat) : Decimal :=
  if code = 0 then ⟨0, 0⟩
  else
    match (List.range 17).findSome? fun extra => (readingBack code extra).head? with
    | some d => d.normalize
    | none => (exactDecimal (mantissa code) (exponent code)).normalize

end ArrayCalc.Number
