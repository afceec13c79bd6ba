import GraphTensor.Pattern.Basic
set_option autoImplicit false

/-! # Errors of linear solves

An operand may not be a matrix (`MatrixDefect`) or not fit the others (`Extent`), the system may
have no unique solution (`Singularity`) or not be positive definite (`Indefiniteness`), and the
steps of a solve may come in the wrong order (`SolvePhase`). `SolveError` has one constructor for
each and `SolveError.message` words it. `Solved` is what a solve comes to. -/

namespace GraphTensor

/-- Where a solve stands. -/
inductive SolvePhase where
  /-- The matrix and the right-hand side are there. -/
  | assembled
  /-- The fixed unknowns are eliminated. -/
  | boundaryApplied
  /-- The reduced system is factorized. -/
  | factorized
  /-- The solution has been given out. -/
  | solved
  /-- The factorization has failed, and nothing more can be done. -/
  | failed
deriving DecidableEq, Repr

/-- The name of a phase in messages. -/
def SolvePhase.text : SolvePhase → String
  | assembled => "Assembled"
  | boundaryApplied => "BoundaryApplied"
  | factorized => "Factorized"
  | solved => "Solved"
  | failed => "Failed"

/-- The size that does not fit. -/
inductive Extent where
  /-- The values of a matrix of blocks. -/
  | matrixValues
  /-- The columns of a matrix to be factorized. -/
  | factorizedColumns
  /-- A right-hand side. -/
  | rightHandSide
  /-- The columns of a system. -/
  | systemColumns
  /-- The rows of the matrix that a boundary reduces. -/
  | boundaryRows
  /-- The columns of the matrix that a boundary reduces. -/
  | boundaryColumns
  /-- The right-hand side that a boundary reduces. -/
  | boundaryRightHandSide
  /-- The values of the unknowns of a boundary. -/
  | boundaryValues
  /-- The marks of a boundary. -/
  | boundaryMarker
  /-- The values of the free unknowns. -/
  | freeSolution
  /-- The columns of the primary matrix. -/
  | primaryColumns
  /-- The columns of the coupling matrix. -/
  | couplingColumns
  /-- The right-hand side of the primary rows. -/
  | primaryRightHandSide
  /-- The right-hand side of the derived rows. -/
  | derivedRightHandSide
  /-- The rows of the derived matrix. -/
  | derivedRows
  /-- The columns of the derived matrix. -/
  | derivedColumns
deriving DecidableEq, Repr

/-- The name of a size in messages. -/
def Extent.text : Extent → String
  | matrixValues => "matrix values"
  | factorizedColumns => "factorized matrix columns"
  | rightHandSide => "right-hand side"
  | systemColumns => "system matrix columns"
  | boundaryRows => "boundary matrix rows"
  | boundaryColumns => "boundary matrix columns"
  | boundaryRightHandSide => "boundary right-hand side"
  | boundaryValues => "boundary values"
  | boundaryMarker => "boundary marker"
  | freeSolution => "free solution"
  | primaryColumns => "primary block columns"
  | couplingColumns => "coupling block columns"
  | primaryRightHandSide => "primary right-hand side"
  | derivedRightHandSide => "derived right-hand side"
  | derivedRows => "derived block rows"
  | derivedColumns => "derived block columns"

/-- What keeps data from being a matrix. -/
inductive MatrixDefect where
  /-- The pattern is not in compressed-row form. -/
  | pattern (violation : PatternError)
  /-- A triplet lies outside the matrix. -/
  | tripletOutside (row col rows cols : Nat)
deriving DecidableEq, Repr

/-- The wording of a defect. -/
def MatrixDefect.text : MatrixDefect → String
  | pattern violation => violation.message
  | tripletOutside row col rows cols =>
    s!"triplet ({row}, {col}) outside a {rows}x{cols} matrix"

/-- What shows that a system has no unique solution. -/
inductive Singularity where
  /-- A row without entries. -/
  | zeroRow (row : Nat)
  /-- A column without entries. -/
  | zeroColumn (col : Nat)
  /-- A pivot that counts as zero. -/
  | smallPivot (row : Nat)
  /-- A division by a zero pivot. -/
  | solveFailed
deriving DecidableEq, Repr

/-- The wording of a singularity. The last digits of a pivot are a matter of rounding, so that a
    star stands for it. -/
def Singularity.text : Singularity → String
  | zeroRow row => s!"row {row} is structurally zero"
  | zeroColumn col => s!"column {col} is structurally zero"
  | smallPivot row => s!"pivot * at row {row} is below tolerance"
  | solveFailed => "lu solve failed"

/-- What shows that a matrix is not symmetric positive definite. -/
inductive Indefiniteness where
  /-- Two entries across the diagonal differ. -/
  | asymmetric (row col : Nat)
  /-- A diagonal entry is not positive after elimination. -/
  | notPositive
deriving DecidableEq, Repr

/-- The wording of a lack of definiteness. -/
def Indefiniteness.text : Indefiniteness → String
  | asymmetric row col => s!"entries ({row}, {col}) and ({col}, {row}) differ"
  | notPositive => "cholesky factorization failed"

/-- An error of a linear solve. -/
inductive SolveError where
  /-- Data that are no matrix. -/
  | invalidMatrix (defect : MatrixDefect)
  /-- Operands whose sizes do not agree. -/
  | dimensionMismatch (extent : Extent) (expected found : Nat)
  /-- A system without a unique solution. -/
  | singular (detail : Singularity)
  /-- A matrix that is not symmetric positive definite. -/
  | notPositiveDefinite (detail : Indefiniteness)
  /-- A step out of order. -/
  | phaseViolation (expected found : SolvePhase)
deriving DecidableEq, Repr

/-- The message of an error. -/
def SolveError.message : SolveError → String
  | invalidMatrix defect => s!"invalid matrix: {defect.text}"
  | dimensionMismatch extent expected found =>
    s!"dimension mismatch in {extent.text}: expected {expected}, found {found}"
  | singular detail => s!"singular system: {detail.text}"
  | notPositiveDefinite detail => s!"matrix is not symmetric positive definite: {detail.text}"
  | phaseViolation expected found =>
    s!"solve session is {found.text}, expected {expected.text}"

/-- What a linear solve comes to. -/
abbrev Solved (β : Type) : Type :=
  Outcome SolveError β

/-- Nothing if two sizes agree, else the mismatch. -/
def Solved.expectSize (extent : Extent) (expected found : Nat) : Solved Unit :=
  if expected = found then .ok () else Outcome.fail (.dimensionMismatch extent expected found)

theorem Solved.expectSize_eq_ok_iff {extent : Extent} {expected found : Nat} :
    Solved.expectSize extent expected found = .ok () ↔ expected = found := by
  by_cases h : expected = found <;> simp [Solved.expectSize, h, Outcome.fail]

end GraphTensor
