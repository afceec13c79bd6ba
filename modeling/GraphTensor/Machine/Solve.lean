import GraphTensor.Machine.Memory
import GraphTensor.Solve.Schur
set_option autoImplicit false

/-! # Solves in a run

A solve takes its matrices and vectors from buffers and writes its solution into buffers
(`Memory.withSolution`). A sparse buffer is a matrix as it stands; a dense one becomes a matrix over
the full pattern of its two dimensions (`Machine.denseMatrix`, `Machine.systemMatrix`). Systems of
two blocks are expanded into dense matrices of numbers first (`Machine.expandedMatrix`).

Fixed unknowns are those that a field marks, as it is bound at entry (`Machine.boundary`); if the
field is not bound, nothing is fixed. What the solver itself answers is an outcome of its own, which
`Machine.ofSolved` makes one of the run. -/

namespace GraphTensor

/-- The pattern that stores every place. -/
def Pattern.full? (rows cols : Nat) : Option Pattern :=
  Pattern.ofCoordinates? rows cols
    ((List.range rows).flatMap fun i => (List.range cols).map fun j => (i, j))

namespace Memory

variable {α : Type}

/-- The numbers of a vector. -/
def vector (mem : Memory α) (var : VarName) : Ran (Array α) := do
  match ← mem.buffer var with
  | .dense _ values => return values
  | other => Ran.mismatch (.solveVector var) .dense other.kind

/-- The memory with a solution in the buffer of a vector, which has to be as long. -/
def withSolution (mem : Memory α) (var : VarName) (solution : Array α) : Ran (Memory α) := do
  match ← mem.buffer var with
  | .dense block values =>
    Outcome.failIf (values.size != solution.size)
      (.bindingMismatch (.solveResult var) values.size solution.size)
    return mem.withBuffer var (.dense block solution)
  | other => Ran.mismatch (.solveResult var) .dense other.kind

end Memory

namespace Machine

variable {α : Type}

/-- What a linear solve comes to, as a part of a run. -/
def ofSolved {β : Type} (s : Solved β) : Ran β :=
  s.mapError .solve

/-- The dimensions of a tensor; there are none if the variable is no tensor. -/
def dimensions (m : Machine α) (var : VarName) : List IndexDomain :=
  ((m.func.tensorType? var).map TensorType.dims).getD []

variable [Scalar α]

/-- The matrix of densely stored blocks. -/
def denseMatrix (m : Machine α) (var : VarName) (block : BlockShape) (values : Array α) :
    Ran (BlockMatrix α) :=
  match m.dimensions var with
  | [rows, cols] => do
    let rows ← m.resolution.extent rows
    let cols ← m.resolution.extent cols
    let pattern ← Outcome.orAbort (Pattern.full? rows cols)
    ofSolved (BlockMatrix.ofValues pattern values block)
  | dims => Ran.mismatch (.systemMatrix var) .rankTwo (.rank dims.length)

/-- The matrix of a solve. -/
def systemMatrix (m : Machine α) (mem : Memory α) (var : VarName) : Ran (BlockMatrix α) := do
  match ← mem.buffer var with
  | .sparse matrix => return matrix
  | .dense block values => m.denseMatrix var block values
  | .register value => Ran.mismatch (.systemMatrix var) .sparseOrDense (Buffer.register value).kind

/-- The matrix of a solve, expanded. -/
def expandedMatrix (m : Machine α) (mem : Memory α) (var : VarName) : Ran (DenseMatrix α) := do
  let matrix ← m.systemMatrix mem var
  Outcome.orAbort matrix.toDense?

/-- The fixed unknowns of a solve with their values, if the field that marks them is bound. -/
def boundary (m : Machine α) (mem : Memory α) (condition : BoundaryCondition) :
    Ran (Option (Boundary α)) := do
  let data ← m.bindings.set condition.set
  match data.fields.get? condition.marker with
  | none => return none
  | some (.bool marks) =>
    let values ← mem.vector condition.values
    return some ⟨marks, values⟩
  | some (.float _ _) => Ran.mismatch (.marker condition.set condition.marker) .bool .float

/-- Solves a system with one matrix. -/
def solveDirect (m : Machine α) (mem : Memory α) (task : DirectSolve) : Ran (Memory α) := do
  let matrix ← m.systemMatrix mem task.matrix
  let rhs ← mem.vector task.rhs
  let boundary ← match task.boundary with
    | none => pure none
    | some condition => m.boundary mem condition
  let solution ← ofSolved (matrix.solveDirect rhs boundary m.config)
  mem.withSolution task.result solution

/-- Solves a system of two blocks. -/
def solveSchur (m : Machine α) (mem : Memory α) (task : SchurSolve) : Ran (Memory α) := do
  let primary ← m.expandedMatrix mem task.primary
  let coupling ← m.expandedMatrix mem task.coupling
  let derived ← task.derived.mapM (m.expandedMatrix mem)
  let rhsPrimary ← mem.vector task.rhsPrimary
  let rhsDerived ← mem.vector task.rhsDerived
  let system : SchurSystem α := ⟨primary, coupling, derived, rhsPrimary, rhsDerived⟩
  let solution ← ofSolved (system.solve m.config)
  let mem ← mem.withSolution task.resultPrimary solution.primary
  mem.withSolution task.resultDerived solution.derived

/-- Solves a linear system. -/
def solve (m : Machine α) (mem : Memory α) : SolveTask → Ran (Memory α)
  | .direct task => m.solveDirect mem task
  | .schur task => m.solveSchur mem task

end Machine

end GraphTensor
