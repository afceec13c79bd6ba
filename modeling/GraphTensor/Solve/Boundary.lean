import GraphTensor.Matrix.Dense
import GraphTensor.Solve.Error
set_option autoImplicit false

/-! # Fixed and free unknowns

The unknowns of a system are split into fixed ones, whose values are given, and free ones
(`Partition`). The split comes from a marker with one truth value for each block of unknowns
(`Partition.ofMarker?`); `Partition.allFree?` is the one without a marker.

Moving the fixed ones of `A x = b` to the right leaves `A_UU x_U = b_U - A_UF x_F` over the free
unknowns `U` (`Partition.reduce`), which has the same solution as the system in which each fixed row
demands the given value. `Partition.scatter` puts the values of the free unknowns and those of the
fixed ones back into their places. -/

namespace GraphTensor

/-- The fixed and the free unknowns, each ascending. -/
structure Partition where
  /-- The fixed unknowns. -/
  fixed : List Nat
  /-- The free unknowns. -/
  free : List Nat
deriving DecidableEq, Repr

namespace Partition

/-- The unknowns of the elements whose mark is the given one; each element has `width` unknowns. -/
def unknownsOf (marker : List Bool) (width : Nat) (mark : Bool) : List Nat :=
  marker.zipIdx.flatMap fun (m, element) =>
    if m = mark then (List.range width).map (element * width + ·) else []

/-- The partition in which the unknowns of marked elements are fixed, if the unknowns have room. -/
def ofMarker? (marker : List Bool) (width : Nat) : Option Partition :=
  (Word.cells? (marker.length * width) 8).map fun _ =>
    ⟨unknownsOf marker width true, unknownsOf marker width false⟩

/-- The partition without fixed unknowns, if the unknowns have room. -/
def allFree? (n : Nat) : Option Partition :=
  (Word.cells? n 8).map fun _ => ⟨[], List.range n⟩

/-- The number of unknowns. -/
def size (p : Partition) : Nat :=
  p.fixed.length + p.free.length

/-- Nothing is fixed. -/
def isTrivial (p : Partition) : Bool :=
  p.fixed.isEmpty

variable {α : Type} [Scalar α]

/-- The components of a vector at the given places. -/
def pick (x : Array α) (places : List Nat) : Array α :=
  (places.map fun k => x.getD k 0).toArray

/-- A vector with the given components written at the given places. -/
def place (x : Array α) (places : List Nat) (values : List α) : Array α :=
  (places.zip values).foldl (fun x (k, v) => x.setIfInBounds k v) x

/-- The system over the free unknowns; of the values, those of fixed unknowns are read. -/
def reduce (p : Partition) (matrix : DenseMatrix α) (rhs values : Array α) :
    Solved (DenseMatrix α × Array α) := do
  Solved.expectSize .boundaryRows p.size matrix.rows
  Solved.expectSize .boundaryColumns p.size matrix.cols
  Solved.expectSize .boundaryRightHandSide p.size rhs.size
  Solved.expectSize .boundaryValues p.size values.size
  let rest := pick rhs p.free
  let moved := if p.isTrivial then rest
    else subVec rest ((matrix.select p.free p.fixed).mulVec (pick values p.fixed))
  return (matrix.select p.free p.free, moved)

/-- The full solution from the free unknowns and the values of the fixed ones. -/
def scatter (p : Partition) (freeValues values : Array α) : Solved (Array α) := do
  Solved.expectSize .freeSolution p.free.length freeValues.size
  Solved.expectSize .boundaryValues p.size values.size
  let fixed := place (Array.replicate p.size 0) p.fixed (pick values p.fixed).toList
  return place fixed p.free freeValues.toList

end Partition

end GraphTensor
