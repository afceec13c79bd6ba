import GraphTensor.Matrix.BlockSparse
import GraphTensor.Solve.Boundary
import GraphTensor.Solve.Factorization
set_option autoImplicit false

/-! # Direct solves step by step

A session (`SolveSession`) takes one system from its assembled form through the elimination of fixed
unknowns (`SolveSession.applyBoundary`) and the factorization of what remains
(`SolveSession.factorize`) to the solution (`SolveSession.solve`). The `SolvePhase` it is in says
which step may come next (`SolveSession.expect`), and the reduced system and its factors are there
from the phase on that makes them. A step that comes out of order is refused and changes nothing; a
factorization that fails ends the session.

`BlockMatrix.solveDirect` goes through a whole session for a matrix of blocks, whose marker and
values are given block by block (`BlockMatrix.boundaryOf`). -/

namespace GraphTensor

/-- A direct solve under way. What each phase has produced is kept with the phase. -/
structure SolveSession (α : Type) where
  /-- The settings. -/
  config : SolverConfig α
  /-- Where the solve stands. -/
  phase : SolvePhase
  /-- The matrix. -/
  matrix : DenseMatrix α
  /-- The right-hand side. -/
  rhs : Array α
  /-- The fixed and the free unknowns. -/
  partition : Partition
  /-- The values of the unknowns, of which those of fixed ones count. -/
  values : Array α
  /-- The system over the free unknowns, once they are known. -/
  reduced : Option (DenseMatrix α × Array α)
  /-- The factors of the reduced matrix; there are none if nothing is free. -/
  factors : Option (Factors α)
deriving Repr

namespace SolveSession

variable {α : Type} [Scalar α]

/-- The session of a square system. -/
def start (matrix : BlockMatrix α) (rhs : Array α) (config : SolverConfig α) :
    Solved (SolveSession α) := do
  let n ← Outcome.orAbort matrix.scalarRows?
  let cols ← Outcome.orAbort matrix.scalarCols?
  Solved.expectSize .systemColumns n cols
  Solved.expectSize .rightHandSide n rhs.size
  let dense ← Outcome.orAbort matrix.toDense?
  let partition ← Outcome.orAbort (Partition.allFree? n)
  return ⟨config, .assembled, dense, rhs, partition, Array.replicate n 0, none, none⟩

/-- Refuses a step unless the session is in the phase that it needs. -/
def expect (s : SolveSession α) (phase : SolvePhase) : Solved Unit :=
  if s.phase = phase then .ok () else Outcome.fail (.phaseViolation phase s.phase)

/-- Eliminates the fixed unknowns. -/
def applyBoundary (s : SolveSession α) (partition : Partition) (values : Array α) :
    Solved (SolveSession α) := do
  s.expect .assembled
  let reduced ← partition.reduce s.matrix s.rhs values
  return { s with
    partition := partition, values := values, reduced := some reduced, phase := .boundaryApplied }

/-- The factors that a session needs: none for a system without free unknowns. -/
def factorsOf (s : SolveSession α) : Solved (Option (Factors α)) :=
  match s.reduced with
  | none => Outcome.fail (.phaseViolation .boundaryApplied s.phase)
  | some (matrix, _) =>
    if matrix.rows = 0 then .ok none
    else (matrix.factorize s.config).map some

/-- Factorizes the reduced system. The session comes back in any case: a failure is its last
    phase. -/
def factorize (s : SolveSession α) : SolveSession α × Solved Unit :=
  match s.expect .boundaryApplied with
  | .error fault => (s, .error fault)
  | .ok () =>
    match s.factorsOf with
    | .ok factors => ({ s with factors := factors, phase := .factorized }, .ok ())
    | .error (.error cause) => ({ s with phase := .failed }, Outcome.fail cause)
    | .error fault => (s, .error fault)

/-- The free unknowns. -/
def freeValues (s : SolveSession α) : Solved (Array α) :=
  match s.factors, s.reduced with
  | some factors, some (_, rhs) => factors.solve rhs
  | _, _ => .ok #[]

/-- Solves the factorized system and gives out all unknowns, the fixed ones included. -/
def solve (s : SolveSession α) : Solved (SolveSession α × Array α) := do
  s.expect .factorized
  let freeValues ← s.freeValues
  let full ← s.partition.scatter freeValues s.values
  return ({ s with phase := .solved }, full)

end SolveSession

/-- The unknowns that are fixed: a mark for each row of blocks, and a value for each unknown. -/
structure Boundary (α : Type) where
  /-- The marks. -/
  marker : List Bool
  /-- The values. -/
  values : Array α

variable {α : Type} [Scalar α]

/-- The partition and the values of a boundary; without one all unknowns are free. -/
def BlockMatrix.boundaryOf (matrix : BlockMatrix α) (n : Nat) (boundary : Option (Boundary α)) :
    Solved (Partition × Array α) :=
  match boundary with
  | some b => do
    Solved.expectSize .boundaryMarker matrix.pattern.rows b.marker.length
    let partition ← Outcome.orAbort (Partition.ofMarker? b.marker matrix.block.rows)
    return (partition, b.values)
  | none => do
    let partition ← Outcome.orAbort (Partition.allFree? n)
    return (partition, Array.replicate n 0)

/-- Solves a system in one go. -/
def BlockMatrix.solveDirect (matrix : BlockMatrix α) (rhs : Array α)
    (boundary : Option (Boundary α)) (config : SolverConfig α) : Solved (Array α) := do
  let session ← SolveSession.start matrix rhs config
  let (partition, values) ← matrix.boundaryOf session.rhs.size boundary
  let session ← session.applyBoundary partition values
  let (session, factorized) := session.factorize
  factorized
  let (_, solution) ← session.solve
  return solution

end GraphTensor
