set_option autoImplicit false

/-! # Numbers of a computation

Blocks, matrices and expressions are written over any type of numbers with the operations of
`Scalar`, and every operation is carried out exactly as written, from left to right (`Scalar.sum`,
`Scalar.maxAbs`). The comparisons are Boolean and may all fail, as they do on an undefined number. A
program runs over `Float`; laws that need associativity or exact quotients are stated over types
that have them, so that what is proved about a solver or a sum is about the definition that runs,
with exact numbers put in. -/

namespace GraphTensor

/-- The arithmetic and the comparisons that programs and solvers use. The comparisons are Boolean
    and may all fail, as they do on an undefined number. -/
class Scalar (α : Type) extends Add α, Sub α, Mul α, Div α, Neg α, Zero α, One α where
  /-- The number equals zero. -/
  isZero : α → Bool
  /-- The first number is below the second. -/
  less : α → α → Bool
  /-- The first number is at most the second. -/
  atMost : α → α → Bool
  /-- The magnitude. -/
  abs : α → α
  /-- The larger of two numbers; an undefined one gives way to the other. -/
  max : α → α → α

-- where a type has an arithmetic of its own, as every field has, that one is meant
attribute [instance (low)] Scalar.toAdd Scalar.toSub Scalar.toMul Scalar.toDiv Scalar.toNeg
  Scalar.toZero Scalar.toOne

instance : Scalar Float where
  zero := 0.0
  one := 1.0
  isZero x := x == 0.0
  less x y := x < y
  atMost x y := x ≤ y
  abs := Float.abs
  max x y := if x.isNaN then y else if y.isNaN then x else if x < y then y else x

namespace Scalar

variable {α : Type} [Scalar α]

/-- The sum of a list of numbers, added from the left onto zero. -/
def sum (xs : List α) : α :=
  xs.foldl (· + ·) 0

/-- The largest magnitude in a list, at least zero. -/
def maxAbs (xs : List α) : α :=
  xs.foldl (fun m x => Scalar.max m (Scalar.abs x)) 0

end Scalar

end GraphTensor
