import GraphTensor.Lowering.Error
import GraphTensor.Scalar
set_option autoImplicit false

/-! # Expansion into signed products

The body of an index expression is expanded into a sum of signed products (`Expr.terms`):
`a * (b - c)` becomes `a b` and `-(a c)`. A `Term` is a sign and a list of factors, and a `Factor`
is an operand with indices or a part without any, which is not taken apart. The factors of a product
keep their order, since blocks do not commute; a division appends the reciprocal of its divisor
(`Expr.reciprocal`), which must be free of indices.

The expansion is the only place where products are regrouped: in `a * (b * c)` the factors are
multiplied from the left all the same. -/

namespace GraphTensor

/-- A factor of a product. -/
inductive Factor (α : Type) where
  /-- A tensor with named indices. -/
  | tensor (operand : IndexedTensor)
  /-- An expression without indices. -/
  | scalar (value : Expr α)
deriving Repr

/-- A product with a sign. -/
structure Term (α : Type) where
  /-- The product counts negatively. -/
  negated : Bool
  /-- The factors from left to right. -/
  factors : List (Factor α)
deriving Repr

namespace Term

variable {α : Type}

/-- The tensors among the factors, each with its place. -/
def tensors (t : Term α) : List (Nat × IndexedTensor) :=
  t.factors.zipIdx.filterMap fun (factor, place) =>
    match factor with
    | .tensor operand => some (place, operand)
    | .scalar _ => none

/-- The product with the other sign. -/
def negate (t : Term α) : Term α :=
  { t with negated := !t.negated }

/-- The product of two products. -/
def mul (a b : Term α) : Term α :=
  ⟨a.negated ^^ b.negated, a.factors ++ b.factors⟩

/-- The product with one more factor at its end. -/
def append (t : Term α) (factor : Factor α) : Term α :=
  { t with factors := t.factors ++ [factor] }

end Term

variable {α : Type} [Scalar α]

/-- The reciprocal of an expression. -/
def Expr.reciprocal (e : Expr α) : Expr α :=
  .binary .div (.literal (.float 1)) e

/-- The signed products whose sum an expression is. An expression without indices is a single
    factor. -/
def Expr.terms (e : Expr α) : Except LowerError (List (Term α)) :=
  if e.hasIndexed then
    match e with
    | .indexed operand => .ok [⟨false, [.tensor operand]⟩]
    | .neg inner => do
      return (← inner.terms).map Term.negate
    | .binary .add lhs rhs => do
      let left ← lhs.terms
      let right ← rhs.terms
      return left ++ right
    | .binary .sub lhs rhs => do
      let left ← lhs.terms
      let right ← rhs.terms
      return left ++ right.map Term.negate
    | .binary .mul lhs rhs => do
      let left ← lhs.terms
      let right ← rhs.terms
      return left.flatMap fun l => right.map fun r => l.mul r
    | .binary .div lhs rhs =>
      if rhs.hasIndexed then .error (.unsupportedConstruct .divisionByIndexed)
      else do
        return (← lhs.terms).map fun t => t.append (.scalar rhs.reciprocal)
    | other => .error (.unsupportedConstruct (.indexedInside other.form))
  else .ok [⟨false, [.scalar e]⟩]
termination_by structural e

end GraphTensor
