import GraphTensor.Decimal.Basic
import GraphTensor.Decimal.Double
set_option autoImplicit false

/-! # The shortest decimal of a double

Among the decimals that read back as a double, the shortest one has the coarsest grid, and on one
grid the one nearest to the double is taken. A grid has a point in an interval around the double
only if one of the double's two neighbours on the grid is in it, so that only these are looked at
(`Double.digitsOn`), on one grid after the other (`Double.lastPowers`), the coarsest first
(`Double.shortest?`).

Whether a decimal reads back (`Double.readsBack`) is a comparison of integers: in quarters of the
significand's unit the midpoints are integers (`Double.lowerQuarters`, `Double.upperQuarters`).
`doubleText` chooses between the two ways of writing by the power of ten. -/

namespace GraphTensor

-- powers are those of numbers alone, whatever else has powers
attribute [local instance (high)] instPowNat

namespace Double

/-- Four times the significand, which makes midpoints integers. -/
def quarters (d : Double) : Nat :=
  4 * d.significand

/-- The quarters of the midpoint below. -/
def lowerQuarters (d : Double) : Nat :=
  if d.hasCloseLower then d.quarters - 1 else d.quarters - 2

/-- The quarters of the midpoint above. -/
def upperQuarters (d : Double) : Nat :=
  d.quarters + 2

/-- A quarter, in units of `10 ^ power`, as numerator and denominator. -/
def quarterOn (d : Double) (power : Int) : Nat × Nat :=
  let e := d.exponent - 2
  (2 ^ e.toNat * 10 ^ (-power).toNat, 2 ^ (-e).toNat * 10 ^ power.toNat)

/-- The decimal with the given digits in units of `10 ^ power` reads back as the double. Midpoints
    read back as the neighbour with the even significand. -/
def readsBack (d : Double) (power : Int) (digits : Nat) : Bool :=
  let (a, b) := d.quarterOn power
  if d.significand % 2 = 0 then d.lowerQuarters * a ≤ digits * b && digits * b ≤ d.upperQuarters * a
  else d.lowerQuarters * a < digits * b && digits * b < d.upperQuarters * a

/-- The digits in units of `10 ^ power` that read back and are nearest to the double; a tie goes
    up. -/
def digitsOn (d : Double) (power : Int) : Option Nat :=
  let (a, b) := d.quarterOn power
  let low := d.quarters * a / b
  -- of the two neighbours on the grid, the nearer one is tried first
  let candidates := if 2 * (d.quarters * a % b) < b then [low, low + 1] else [low + 1, low]
  candidates.find? (d.readsBack power)

/-- The powers of ten that the last digit of a double can have, greatest first. -/
def lastPowers : List Int :=
  (List.range 660).map fun k => 310 - Int.ofNat k

/-- The shortest decimal that reads back as a double other than zero. -/
def shortest? (d : Double) : Option Decimal :=
  if d.significand = 0 then none
  else
    lastPowers.findSome? fun power =>
      (d.digitsOn power).map fun digits => ⟨d.negative, digits, power⟩

end Double

/-- The text of a double: its shortest decimal, positional from `10 ^ -4` on and below `10 ^ 16`. -/
def doubleText (x : Float) : String :=
  if x.isNaN then "NaN"
  else if x.isInf then (if x < 0.0 then "-inf" else "inf")
  else
    let exact := Double.ofFloat x
    match exact.shortest? with
    | none => if exact.negative then "-0.0" else "0.0"
    | some d =>
      if -4 ≤ d.leadingExponent ∧ d.leadingExponent < 16 then d.positionalText
      else d.scientificText

end GraphTensor
