import GraphTensor.Scalar
import GraphTensor.Word
set_option autoImplicit false

/-! # Dense matrices

A `DenseMatrix` holds its entries row after row, with the proof that there are rows times columns of
them; vectors are arrays. All sums run over the summed index upwards, one multiplication and one
addition at a time, starting from zero (`DenseMatrix.mul`, `DenseMatrix.mulVec`), so that a product
over rounded numbers is the one that a program computes.

`DenseMatrix.select` picks rows and columns, `DenseMatrix.ofFn` tabulates a function, and an entry
out of range reads as zero (`DenseMatrix.get`). -/

namespace GraphTensor

/-- A dense matrix. -/
structure DenseMatrix (α : Type) where
  /-- The number of rows. -/
  rows : Nat
  /-- The number of columns. -/
  cols : Nat
  /-- The entries, row after row. -/
  data : Array α
deriving DecidableEq, Repr

namespace DenseMatrix

variable {α : Type} [Scalar α]

/-- The matrix with the given entries. -/
def ofFn (rows cols : Nat) (entry : Nat → Nat → α) : DenseMatrix α :=
  ⟨rows, cols, (Array.range (rows * cols)).map fun k => entry (k / cols) (k % cols)⟩

/-- An entry; outside the matrix it is zero. -/
def get (m : DenseMatrix α) (i j : Nat) : α :=
  if i < m.rows ∧ j < m.cols then m.data.getD (i * m.cols + j) 0 else 0

/-- The matrix of zeros. -/
def zeros (rows cols : Nat) : DenseMatrix α :=
  ⟨rows, cols, Array.replicate (rows * cols) 0⟩

/-- The matrix with a number added to an entry. -/
def add (m : DenseMatrix α) (i j : Nat) (x : α) : DenseMatrix α :=
  { m with data := m.data.modify (i * m.cols + j) (· + x) }

/-- The entries of a row. -/
def row (m : DenseMatrix α) (i : Nat) : List α :=
  (List.range m.cols).map (m.get i)

/-- The entries of a column. -/
def col (m : DenseMatrix α) (j : Nat) : List α :=
  (List.range m.rows).map fun i => m.get i j

/-- The rows. -/
def toRows (m : DenseMatrix α) : List (List α) :=
  (List.range m.rows).map m.row

/-- The matrix with the given columns. -/
def ofCols (rows : Nat) (cols : List (Array α)) : DenseMatrix α :=
  let cols := cols.toArray
  ofFn rows cols.size fun i j => (cols.getD j #[]).getD i 0

/-- The matrix with rows and columns exchanged. -/
def transpose (m : DenseMatrix α) : DenseMatrix α :=
  ofFn m.cols m.rows fun i j => m.get j i

/-- The matrix that keeps the given rows and columns, in their order. -/
def select (m : DenseMatrix α) (rows cols : List Nat) : DenseMatrix α :=
  let rows := rows.toArray
  let cols := cols.toArray
  ofFn rows.size cols.size fun i j => m.get (rows.getD i 0) (cols.getD j 0)

/-- The product of two matrices. -/
def mul (a b : DenseMatrix α) : DenseMatrix α :=
  ofFn a.rows b.cols fun i j => Scalar.sum ((List.range a.cols).map fun k => a.get i k * b.get k j)

/-- The difference of two matrices. -/
def sub (a b : DenseMatrix α) : DenseMatrix α :=
  ofFn a.rows a.cols fun i j => a.get i j - b.get i j

/-- The product of a matrix and a vector. -/
def mulVec (m : DenseMatrix α) (x : Array α) : Array α :=
  (Array.range m.rows).map fun i =>
    Scalar.sum ((List.range m.cols).map fun k => m.get i k * x.getD k 0)

/-- The largest magnitude of an entry. -/
def maxAbs (m : DenseMatrix α) : α :=
  Scalar.maxAbs m.data.toList

end DenseMatrix

/-- The difference of two vectors. -/
def subVec {α : Type} [Scalar α] (x y : Array α) : Array α :=
  x.zipWith (· - ·) y

end GraphTensor
