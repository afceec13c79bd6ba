import GraphTensor.Block.Shape
import GraphTensor.Matrix.Dense
set_option autoImplicit false

/-! # Blocks of numbers

A block (`BlockValue`) holds as many numbers as its shape has room for, a matrix row after row; the
field `size_data` carries the proof. Blocks are therefore built only where the count is right:
`BlockValue.ofArray?` checks it, and `BlockValue.zeros?` moreover asks that the count is a word.

Sums (`BlockValue.add?`, `BlockValue.sub?`) need equal shapes, and products (`BlockValue.mul?`)
follow `BlockShape.product`: a number scales, two vectors give their inner product, a vector before
a matrix acts as a row, and all else is the product of matrices. A quotient (`BlockValue.div?`) has
a number below. All of them answer `none` for shapes that do not go together, and none of them
changes the order in which numbers are multiplied and added. -/

namespace GraphTensor

/-- A block with its shape. -/
structure BlockValue (α : Type) where
  /-- The shape. -/
  shape : BlockShape
  /-- The numbers, row after row. -/
  data : Array α
  /-- The numbers fill the shape. -/
  size_data : data.size = shape.length
deriving DecidableEq, Repr

namespace BlockValue

variable {α : Type}

/-- The block of a shape with the given numbers, if they are as many as it takes. -/
def ofArray? (shape : BlockShape) (data : Array α) : Option (BlockValue α) :=
  if h : data.size = shape.length then some ⟨shape, data, h⟩ else none

/-- The block of one number. -/
def scalar (x : α) : BlockValue α :=
  ⟨.scalar, #[x], rfl⟩

/-- The number of a scalar block. -/
def asScalar? (b : BlockValue α) : Option α :=
  match b.shape with
  | .scalar => b.data[0]?
  | .vector _ => none
  | .matrix _ _ => none

/-- The block with a function applied to each number. -/
def map (f : α → α) (b : BlockValue α) : BlockValue α :=
  ⟨b.shape, b.data.map f, by rw [Array.size_map, b.size_data]⟩

/-- The block of two blocks' numbers taken together one by one, if their shapes agree. -/
def zipWith? (f : α → α → α) (a b : BlockValue α) : Option (BlockValue α) :=
  if h : a.shape = b.shape then
    some ⟨a.shape, a.data.zipWith f b.data, by
      rw [Array.size_zipWith, a.size_data, b.size_data, ← h, Nat.min_self]⟩
  else none

variable [Scalar α]

/-- The block of zeros. -/
def zeros (shape : BlockShape) : BlockValue α :=
  ⟨shape, Array.replicate shape.length 0, Array.size_replicate⟩

/-- The block of zeros, if it has room. -/
def zeros? (shape : BlockShape) : Option (BlockValue α) :=
  (Word.cells? shape.length 8).map fun _ => zeros shape

/-- The block with each number multiplied by a factor. -/
def scale (b : BlockValue α) (factor : α) : BlockValue α :=
  b.map (· * factor)

/-- The negative of a block. -/
def neg (b : BlockValue α) : BlockValue α :=
  b.scale (-1)

/-- The sum of two blocks of one shape. -/
def add? (a b : BlockValue α) : Option (BlockValue α) :=
  zipWith? (· + ·) a b

/-- The difference of two blocks of one shape. -/
def sub? (a b : BlockValue α) : Option (BlockValue α) :=
  zipWith? (· - ·) a b

/-- The block as a matrix, a vector being a column. -/
def toMatrix (b : BlockValue α) : DenseMatrix α :=
  ⟨b.shape.rows, b.shape.cols, b.data⟩

/-- The inner product of two lists of numbers. -/
def dot (xs ys : Array α) : α :=
  Scalar.sum (xs.zipWith (· * ·) ys).toList

/-- The product of two blocks whose shapes have one. -/
def mul? (a b : BlockValue α) : Option (BlockValue α) :=
  match a.shape.product b.shape with
  | none => none
  | some shape =>
    match a.shape, b.shape with
    | .scalar, _ => some (b.scale (a.data.getD 0 0))
    | _, .scalar => some (a.scale (b.data.getD 0 0))
    | .vector _, .vector _ => some (scalar (dot a.data b.data))
    | .vector _, .matrix _ _ => ofArray? shape (b.toMatrix.transpose.mul a.toMatrix).data
    | .matrix _ _, _ => ofArray? shape (a.toMatrix.mul b.toMatrix).data

/-- The block divided by a scalar block. -/
def div? (a b : BlockValue α) : Option (BlockValue α) :=
  b.asScalar?.map fun divisor => a.map (· / divisor)

end BlockValue

end GraphTensor
