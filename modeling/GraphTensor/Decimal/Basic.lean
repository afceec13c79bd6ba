set_option autoImplicit false

/-! # Decimal numbers

A decimal number (`Decimal`) is a sign, its digits without a point and a power of ten. Here are the
double that a decimal stands for (`Decimal.toFloat?`, with `none` for what is beyond all finite
doubles) and the two ways in which a decimal is written out: `Decimal.scientificText` with one digit
before the point and a power of ten, and `Decimal.positionalText` without one. -/

namespace GraphTensor

/-- The decimal number `digits * 10 ^ exponent`, with its sign. -/
structure Decimal where
  /-- A minus sign is written. -/
  negative : Bool
  /-- The digits without a point. -/
  digits : Nat
  /-- The power of ten. -/
  exponent : Int
deriving DecidableEq, Repr

/-- The nearest double, a half going to the even neighbour; `none` if that is not finite. Decimals
    far outside the range of doubles are decided by their size alone. -/
def Decimal.toFloat? (d : Decimal) : Option Float :=
  let magnitude : Int := (toString d.digits).length + d.exponent
  if d.digits = 0 || magnitude < -400 then some (if d.negative then -0.0 else 0.0)
  else if 400 < magnitude then none
  else
    let x := Float.ofScientific d.digits (d.exponent < 0) d.exponent.natAbs
    if x.isInf then none else some (if d.negative then -x else x)

namespace Decimal

/-- The digits as characters. -/
def digitChars (d : Decimal) : List Char :=
  (toString d.digits).toList

/-- The power of ten of the first digit. -/
def leadingExponent (d : Decimal) : Int :=
  d.exponent + (d.digitChars.length - 1 : Nat)

/-- The minus sign, if there is one. -/
def signText (d : Decimal) : String :=
  if d.negative then "-" else ""

/-- Digits without the zeros at their end. -/
def withoutTrailingZeros (digits : List Char) : List Char :=
  (digits.reverse.dropWhile (· == '0')).reverse

/-- The text with one digit before the point and a power of ten. Zeros at the end are left out, and
    so is a point that nothing follows. -/
def scientificText (d : Decimal) : String :=
  match d.digitChars with
  | [] => ""
  | first :: rest =>
    let places := withoutTrailingZeros rest
    let tail := if places.isEmpty then "" else "." ++ String.ofList places
    s!"{d.signText}{first}{tail}e{d.leadingExponent}"

/-- The text with a point and without a power of ten; at least one digit stands on either side of
    the point. -/
def positionalText (d : Decimal) : String :=
  let zeros (n : Nat) : List Char := List.replicate n '0'
  let digits := d.digitChars ++ zeros d.exponent.toNat
  let places := (-d.exponent).toNat
  let padded := zeros (places + 1 - digits.length) ++ digits
  let whole := padded.take (padded.length - places)
  let fraction := padded.drop (padded.length - places)
  let fraction := if fraction.isEmpty then ['0'] else fraction
  d.signText ++ String.ofList whole ++ "." ++ String.ofList fraction

end Decimal

end GraphTensor
