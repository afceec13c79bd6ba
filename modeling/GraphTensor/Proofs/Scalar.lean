import GraphTensor.Scalar
import Mathlib.Algebra.Order.Field.Basic
set_option autoImplicit false

/-! # Exact numbers

Programs run on rounded numbers as well as on exact ones. What a statement about values needs of the
numbers is named here: that zero is neutral and absorbs products (`Scalar.ZeroLaws`), or that the
numbers form an ordered field, whose own operations and order are then the ones that programs and
solvers use (`Scalar.ofField`). -/

namespace GraphTensor

namespace Scalar

/-- Zero is neutral on the right of sums and absorbs products. -/
class ZeroLaws (α : Type) [Scalar α] : Prop where
  /-- Adding zero changes nothing. -/
  add_zero (x : α) : x + 0 = x
  /-- Zero times a number is zero. -/
  zero_mul (x : α) : 0 * x = 0
  /-- A number times zero is zero. -/
  mul_zero (x : α) : x * 0 = 0

theorem sum_eq_zero {α : Type} [Scalar α] [ZeroLaws α] {xs : List α} (h : ∀ x ∈ xs, x = 0) :
    sum xs = 0 := by
  unfold sum
  induction xs with
  | nil => rfl
  | cons x xs ih =>
      rw [List.foldl_cons, h x (List.mem_cons_self ..), ZeroLaws.add_zero]
      exact ih fun y hy => h y (List.mem_cons_of_mem _ hy)

/-! ## Ordered fields -/

variable {K : Type} [Field K] [LinearOrder K]

/-- The numbers of an ordered field. -/
instance ofField : Scalar K where
  isZero x := decide (x = 0)
  less x y := decide (x < y)
  atMost x y := decide (x ≤ y)
  abs x := Max.max x (-x)
  max := Max.max

instance : ZeroLaws K where
  add_zero := AddMonoid.add_zero
  zero_mul := MulZeroClass.zero_mul
  mul_zero := MulZeroClass.mul_zero

end Scalar

end GraphTensor
