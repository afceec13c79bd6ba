import GraphTensor.Decimal.Basic
import GraphTensor.Decimal.Double
set_option autoImplicit false

/-! # Rounding to significant digits

A double is rounded to a number of significant decimal digits exactly (`Decimal.significant`): the
quotient that its value is on the grid of the last digit goes to the nearest integer, and a half to
the even neighbour (`roundDiv`). Where that grid lies follows from the power of ten of the first
digit (`Decimal.leadingPower`). -/

namespace GraphTensor

-- powers are those of numbers alone, whatever else has powers
attribute [local instance (high)] instPowNat

/-- The integer nearest to a quotient, a half going to the even neighbour. -/
def roundDiv (top bottom : Nat) : Nat :=
  let low := top / bottom
  let rest := 2 * (top % bottom)
  if rest < bottom ∨ (rest = bottom ∧ low % 2 = 0) then low else low + 1

namespace Decimal

/-- The power of ten of the first digit of a quotient between `10 ^ -350` and `10 ^ (350 : Nat)`. -/
def leadingPower (top bottom : Nat) : Int :=
  (toString (top * 10 ^ (350 : Nat) / bottom)).length - 351

/-- The value of a double other than zero, rounded to a number of significant digits. -/
def significant (digits : Nat) (x : Double) : Decimal :=
  let last := leadingPower x.top x.bottom + 1 - digits
  let rounded := roundDiv (x.top * 10 ^ (-last).toNat) (x.bottom * 10 ^ last.toNat)
  ⟨x.negative, rounded, last⟩

end Decimal

end GraphTensor
