set_option autoImplicit false

/-! # Doubles as exact numbers

A finite double is an integer times a power of two (`Double`, read off the bits by
`Double.ofFloat`), and its magnitude a quotient of two integers (`Double.top`, `Double.bottom`), so
that everything that is decided about it can be decided exactly.

The real numbers nearest to it lie between the midpoints to its two neighbours; the lower neighbour
is half as far away as the upper one where the double is a power of two (`Double.hasCloseLower`). -/

namespace GraphTensor

-- powers are those of numbers alone, whatever else has powers
attribute [local instance (high)] instPowNat

/-- The number `significand * 2 ^ exponent`, with its sign. -/
structure Double where
  /-- The number is negative. -/
  negative : Bool
  /-- The integer. -/
  significand : Nat
  /-- The power of two. -/
  exponent : Int
deriving DecidableEq, Repr

namespace Double

/-- The exact value of a finite double. -/
def ofFloat (x : Float) : Double :=
  let bits := x.toBits.toNat
  let fraction := bits % 2 ^ (52 : Nat)
  let biased := bits / 2 ^ (52 : Nat) % 2 ^ (11 : Nat)
  let significand := if biased = 0 then fraction else fraction + 2 ^ (52 : Nat)
  ⟨bits / 2 ^ (63 : Nat) == 1, significand, Int.ofNat (max biased 1) - 1075⟩

/-- The numerator of the magnitude. -/
def top (d : Double) : Nat :=
  d.significand * 2 ^ d.exponent.toNat

/-- The denominator of the magnitude. -/
def bottom (d : Double) : Nat :=
  2 ^ (-d.exponent).toNat

/-- The lower neighbour is half as far away as the upper one. -/
def hasCloseLower (d : Double) : Bool :=
  d.significand == 2 ^ (52 : Nat) && d.exponent != -1074

end Double

end GraphTensor
