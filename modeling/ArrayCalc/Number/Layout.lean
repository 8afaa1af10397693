import ArrayCalc.Number.Decimal

namespace ArrayCalc.Number

/-- The request for a count of digits that the layouts do not take. -/
inductive DigitRange where
  | fixed
  | exponential
  deriving Repr, DecidableEq

def DigitRange.message : DigitRange → String
  | .fixed => "toFixed() digits argument must be between 0 and 100"
  | .exponential => "toExponential() argument must be between 0 and 100"

/-- The largest count of digits after the point that a layout takes. -/
def maxPlaces : Nat := 100

/-- A count of digits after the point, cut off to a whole number. What is not a number asks for none;
    counts below 0 and above 100 are refused. -/
def places? (count : Float) : Option Nat :=
  match read count with
  | .nan => some 0
  | .infinite _ => none
  | .finite .. =>
    match truncated? count with
    | some (.ofNat n) => if n ≤ maxPlaces then some n else none
    | _ => none

def signText (negative : Bool) : List Char :=
  if negative then ['-'] else []

/-- An exponent with its sign and at least two digits. -/
def exponentText (exp : Int) : List Char :=
  'e' :: (if exp < 0 then '-' else '+') :: Text.padLeft 2 '0' (digits exp.natAbs)

/-- Digits with a point after the first; a single digit has no point. -/
def pointAfterFirst : List Char → List Char
  | [] => []
  | [d] => [d]
  | d :: ds => d :: '.' :: ds

/-- Drops the zeros at the end of a text that has a point, and then the point if it stands last. -/
def stripFraction (cs : List Char) : List Char :=
  if '.' ∈ cs then
    let kept := Text.stripRight '0' cs
    if kept.getLast? = some '.' then kept.dropLast else kept
  else cs

/-- The digits and the exponent of a decimal whose leading digit is the units digit of the
    significand. -/
def leading (d : Decimal) : List Char × Int :=
  (digits d.coeff, d.order)

/-- The fewest digits that read back, positional from `1e-6` to below `1e21` and with a bare exponent
    elsewhere. A negative zero loses its sign. -/
def compact (x : Float) : List Char :=
  match read x with
  | .nan => "NaN".toList
  | .infinite negative => signText negative ++ "Infinity".toList
  | .finite negative mant _ =>
    if mant = 0 then ['0']
    else
      let (ds, exp) := leading (shortest (magnitudeCode x))
      let count : Int := ds.length
      let body :=
        if exp < -6 ∨ 21 ≤ exp then
          pointAfterFirst ds ++ 'e' :: (if exp < 0 then '-' else '+') :: digits exp.natAbs
        else if exp < 0 then '0' :: '.' :: List.replicate (-exp - 1).toNat '0' ++ ds
        else if count ≤ exp + 1 then ds ++ List.replicate (exp + 1 - count).toNat '0'
        else ds.take (exp + 1).toNat ++ '.' :: ds.drop (exp + 1).toNat
      signText negative ++ body

/-- A magnitude with exactly `places` digits after the point, ties away from zero. Magnitudes of
    `1e21` and more are written compactly. -/
def fixed (x : Float) (mant : Nat) (exp : Int) (places : Nat) : List Char :=
  let (num, den) := fraction mant exp
  if den * 10 ^ 21 ≤ num then compact x.abs
  else
    let ds := Text.padLeft (places + 1) '0' (digits (roundPlaces mant exp places))
    if places = 0 then ds
    else ds.take (ds.length - places) ++ '.' :: ds.drop (ds.length - places)

/-- The `extra + 1` significant digits of a magnitude, ties away from zero, and their exponent. -/
def exponential (mant : Nat) (exp : Int) (extra : Nat) : List Char × Int :=
  if mant = 0 then (List.replicate (extra + 1) '0', 0)
  else leading (roundSignificant mant exp extra)

/-- How many significant digits a precision asks for: at least one. -/
inductive Significance where
  | undefined
  | unbounded
  | count (extra : Nat)

def Significance.ofFloat (precision : Float) : Significance :=
  match read precision with
  | .nan => .undefined
  | .infinite negative => if negative then .count 0 else .unbounded
  | .finite .. => .count (((truncated? precision).getD 1).toNat - 1)

/-- The texts of the numbers that are not finite. -/
def special? (x : Float) : Option (List Char) :=
  match read x with
  | .nan => some "nan".toList
  | .infinite negative => some (signText negative ++ "inf".toList)
  | .finite .. => none

/-- A number with a given count of significant digits and no zeros at the end of the fraction. The
    exponent of the rounded number decides: below -4, or from the count on, it is written out. -/
def general (x precision : Float) : Except DigitRange (List Char) :=
  match read x with
  | .nan => .ok "nan".toList
  | .infinite negative => .ok (signText negative ++ "inf".toList)
  | .finite negative mant exp =>
    match Significance.ofFloat precision with
    | .unbounded => .error .exponential
    | .undefined =>
      let (ds, order) := exponential mant exp 0
      if order < -4 then .ok (signText negative ++ ds ++ exponentText order)
      else .ok (signText negative ++ stripFraction (fixed x mant exp 0))
    | .count extra =>
      if maxPlaces < extra then .error .exponential
      else
        let (ds, order) := exponential mant exp extra
        if order < -4 ∨ (extra : Int) < order then
          .ok (signText negative ++ stripFraction (pointAfterFirst ds) ++ exponentText order)
        else
          let places := (extra - order).toNat
          if maxPlaces < places then .error .fixed
          else .ok (signText negative ++ stripFraction (fixed x mant exp places))

/-- The fewest digits that read back, always with a point or an exponent: positional from `1e-4` to
    below `1e16`. -/
def lossless (x : Float) : List Char :=
  match read x with
  | .nan => "nan".toList
  | .infinite negative => signText negative ++ "inf".toList
  | .finite negative _ _ =>
    let (ds, exp) := leading (shortest (magnitudeCode x))
    let count : Int := ds.length
    let body :=
      if exp < -4 ∨ 16 ≤ exp then pointAfterFirst ds ++ exponentText exp
      else if exp < 0 then '0' :: '.' :: List.replicate (-exp - 1).toNat '0' ++ ds
      else if count ≤ exp + 1 then ds ++ List.replicate (exp + 1 - count).toNat '0' ++ ['.', '0']
      else ds.take (exp + 1).toNat ++ '.' :: ds.drop (exp + 1).toNat
    signText negative ++ body

/-- A whole number as a double writes it: its digits below `2 ^ 53`, where it is exact, and the
    compact text of the nearest double from there on. -/
def natText (n : Nat) : List Char :=
  if n < 2 ^ 53 then digits n else compact (ofNat n)

end ArrayCalc.Number
