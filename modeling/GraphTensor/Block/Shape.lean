import GraphTensor.Word
set_option autoImplicit false

/-! # Block shapes

A tensor stores one block for each tuple of indices. A block is a number, a column vector or a
row-major matrix (`BlockShape`); nothing of higher rank exists.

`BlockShape.length` counts the numbers of a block without a bound, and `BlockShape.length?` is the
same count where it is a word, which is what programs compute. Shapes combine in two ways:
`BlockShape.sum` asks for equal shapes, and `BlockShape.product` for one of the products below,
which is not commutative and, because a vector acts as a column on one side and as a row on the
other, not associative either. `BlockShape.text` is the name of a shape in messages. -/

namespace GraphTensor

/-- The shape of one block. -/
inductive BlockShape where
  /-- A single number. -/
  | scalar
  /-- A column vector of the given length. -/
  | vector (length : Nat)
  /-- A row-major matrix with the given rows and columns. -/
  | matrix (rows cols : Nat)
deriving DecidableEq, Repr, Inhabited

namespace BlockShape

/-- The number of rows a block takes up in a matrix of blocks. -/
def rows : BlockShape → Nat
  | scalar => 1
  | vector n => n
  | matrix r _ => r

/-- The number of columns a block takes up in a matrix of blocks. -/
def cols : BlockShape → Nat
  | scalar => 1
  | vector _ => 1
  | matrix _ c => c

/-- The number of numbers in a block. -/
def length : BlockShape → Nat
  | scalar => 1
  | vector n => n
  | matrix r c => r * c

/-- The number of numbers in a block, if it is a word. -/
def length? (s : BlockShape) : Option Nat :=
  Word.ofNat? s.length

/-- A block without numbers. -/
def isEmpty (s : BlockShape) : Bool :=
  s.length == 0

/-- The number of indices of a block. -/
def rank : BlockShape → Nat
  | scalar => 0
  | vector _ => 1
  | matrix _ _ => 2

/-- The shape of a product. A scalar scales anything, two vectors of one length contract to their
    inner product, a vector before a matrix acts as a row, and the remaining cases are those of
    linear algebra. -/
def product : BlockShape → BlockShape → Option BlockShape
  | scalar, other => some other
  | other, scalar => some other
  | vector a, vector b => if a = b then some scalar else none
  | matrix r k, vector n => if k = n then some (vector r) else none
  | vector n, matrix k c => if n = k then some (vector c) else none
  | matrix r k, matrix l c => if k = l then some (matrix r c) else none

/-- The shape of a sum; the two shapes have to agree. -/
def sum (a b : BlockShape) : Option BlockShape :=
  if a = b then some a else none

/-- The name of a shape in messages. -/
def text : BlockShape → String
  | scalar => "float"
  | vector n => s!"vector[{n}]"
  | matrix r c => s!"matrix[{r},{c}]"

theorem length_eq_rows_mul_cols (s : BlockShape) : s.length = s.rows * s.cols := by
  cases s <;> simp [length, rows, cols]

theorem product_scalar_left (s : BlockShape) : scalar.product s = some s := by
  simp [product]

theorem product_scalar_right (s : BlockShape) : s.product scalar = some s := by
  cases s <;> simp [product]

theorem sum_eq_some_iff {a b s : BlockShape} : a.sum b = some s ↔ a = b ∧ a = s := by
  by_cases h : a = b <;> simp [sum, h]

end BlockShape

end GraphTensor
