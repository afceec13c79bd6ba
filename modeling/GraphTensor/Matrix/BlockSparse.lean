import GraphTensor.Block.Shape
import GraphTensor.Matrix.Dense
import GraphTensor.Pattern.Search
import GraphTensor.Solve.Error
set_option autoImplicit false

/-! # Block matrices over a pattern

A block matrix (`BlockMatrix`) has one block for each entry of a pattern, in the order of the
pattern, and each block holds its numbers row after row. Scalar matrices are those of scalar blocks.
It is made from values in the order of the pattern (`BlockMatrix.ofValues`), from a list of
`BlockMatrix.Triplet`, which add up where they coincide (`BlockMatrix.ofTriplets`), or from the
entries of a dense matrix other than zero (`BlockMatrix.ofDense?`).

Expanding a block matrix (`BlockMatrix.toDense?`) puts block `(i, j)` of shape `r × c` onto the
scalar rows from `i * r` and columns from `j * c` on, and needs room for rows times columns even if
no block is stored. -/

namespace GraphTensor

/-- A matrix of blocks. -/
structure BlockMatrix (α : Type) where
  /-- The places that are stored. -/
  pattern : Pattern
  /-- The numbers of the blocks, block after block. -/
  values : Array α
  /-- The shape of the blocks. -/
  block : BlockShape
deriving DecidableEq, Repr

namespace BlockMatrix

variable {α : Type} [Scalar α]

/-! ## Making block matrices -/

/-- The number of numbers of a block matrix, if it is a word. -/
def valueCount? (pattern : Pattern) (block : BlockShape) : Option Nat :=
  block.length?.bind (Word.mul? pattern.stored)

/-- The block matrix with the given values; the pattern has to be valid and the values as many as it
    takes. -/
def ofValues (pattern : Pattern) (values : Array α) (block : BlockShape) :
    Solved (BlockMatrix α) := do
  pattern.validate.mapError fun violation => .invalidMatrix (.pattern violation)
  let expected ← Outcome.orAbort (valueCount? pattern block)
  Solved.expectSize .matrixValues expected values.size
  return ⟨pattern, values, block⟩

/-- The block matrix of zeros, if its values have room. -/
def zeros? (pattern : Pattern) (block : BlockShape) : Option (BlockMatrix α) := do
  let count ← valueCount? pattern block
  let count ← Word.cells? count 8
  some ⟨pattern, Array.replicate count 0, block⟩

/-- An entry of a scalar matrix, given by its coordinate. -/
structure Triplet (α : Type) where
  /-- The row. -/
  row : Nat
  /-- The column. -/
  col : Nat
  /-- The number. -/
  value : α

/-- The values of a pattern with the number of a triplet added at its place. -/
def addTriplet (pattern : Pattern) (values : Array α) (t : Triplet α) : Array α :=
  match pattern.locate .binary t.row t.col with
  | some position => values.modify position (· + t.value)
  | none => values

/-- The scalar matrix that sums the triplets at each place, if all lie inside. -/
def ofTriplets (rows cols : Nat) (triplets : List (Triplet α)) : Solved (BlockMatrix α) :=
  match triplets.find? fun t => rows ≤ t.row || cols ≤ t.col with
  | some t => Outcome.fail (.invalidMatrix (.tripletOutside t.row t.col rows cols))
  | none => do
    let pattern ← Outcome.orAbort
      (Pattern.ofCoordinates? rows cols (triplets.map fun t => (t.row, t.col)))
    let zeros := Array.replicate pattern.stored 0
    return ⟨pattern, triplets.foldl (addTriplet pattern) zeros, .scalar⟩

/-- The entries of a dense matrix that are not zero, row after row. -/
def nonzeros (m : DenseMatrix α) : List (Triplet α) :=
  (List.range m.rows).flatMap fun i =>
    (List.range m.cols).filterMap fun j =>
      let x := m.get i j
      if Scalar.isZero x then none else some ⟨i, j, x⟩

/-- The scalar matrix with the entries of a dense matrix that are not zero, if it has room. -/
def ofDense? (m : DenseMatrix α) : Option (BlockMatrix α) := do
  let triplets := nonzeros m
  let pattern ← Pattern.ofCoordinates? m.rows m.cols (triplets.map fun t => (t.row, t.col))
  some ⟨pattern, (triplets.map Triplet.value).toArray, .scalar⟩

/-! ## Reading block matrices -/

/-- The number of scalar rows, if it is a word. -/
def scalarRows? (m : BlockMatrix α) : Option Nat :=
  Word.mul? m.pattern.rows m.block.rows

/-- The number of scalar columns, if it is a word. -/
def scalarCols? (m : BlockMatrix α) : Option Nat :=
  Word.mul? m.pattern.cols m.block.cols

/-- The block at a place, if it is stored. -/
def get? (m : BlockMatrix α) (row col : Nat) : Option (Array α) :=
  (m.pattern.locate .binary row col).map fun position =>
    m.values.extract (position * m.block.length) ((position + 1) * m.block.length)

/-- A dense matrix with the block at a position added onto place `(i, j)`. -/
def addBlock (m : BlockMatrix α) (dense : DenseMatrix α) (entry : Nat × Nat × Nat) :
    DenseMatrix α :=
  let (i, j, position) := entry
  (List.range m.block.rows).foldl (fun dense a =>
    (List.range m.block.cols).foldl (fun dense b =>
      dense.add (i * m.block.rows + a) (j * m.block.cols + b)
        (m.values.getD (position * m.block.length + a * m.block.cols + b) 0)) dense) dense

/-- The expanded matrix, if it has room. -/
def toDense? (m : BlockMatrix α) : Option (DenseMatrix α) := do
  let rows ← m.scalarRows?
  let cols ← m.scalarCols?
  let _ ← Word.cells? (rows * cols) 8
  some (m.pattern.entries.foldl m.addBlock (DenseMatrix.zeros rows cols))

end BlockMatrix

end GraphTensor
