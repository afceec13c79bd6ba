import GraphTensor.Matrix.Dense
import GraphTensor.Solve.Cholesky
import GraphTensor.Solve.Elimination
import GraphTensor.Solve.Error
set_option autoImplicit false

/-! # Direct factorization

The method of a solve is part of its settings (`SolverConfig`, with a `FactorMethod` and a
tolerance). A matrix with a row or a column of zeros is rejected before anything else
(`DenseMatrix.structuralZero?`). Elimination then rejects a pivot whose magnitude is at most the
tolerance, relative to the largest entry of the matrix but at least to one (`DenseMatrix.threshold`,
`checkPivots`), and Cholesky factorization rejects entries across the diagonal that differ by more
(`DenseMatrix.asymmetry?`), and matrices that are not positive definite.

`DenseMatrix.factorize` answers `Factors`, the record of either elimination, with which any number
of right-hand sides is solved (`Factors.solve`, `Factors.solveMatrix`). -/

namespace GraphTensor

/-- A method of factorization. -/
inductive FactorMethod where
  /-- Elimination with row exchanges, for any square matrix. -/
  | lu
  /-- Symmetric elimination, for positive definite matrices. -/
  | cholesky
deriving DecidableEq, Repr, Inhabited

/-- The name of a method. -/
def FactorMethod.text : FactorMethod → String
  | lu => "lu"
  | cholesky => "cholesky"

/-- The settings of a solve. -/
structure SolverConfig (α : Type) where
  /-- The method. -/
  method : FactorMethod
  /-- The relative magnitude up to which a pivot counts as zero. -/
  tolerance : α
deriving Repr

namespace SolverConfig

/-- The settings if none are given. -/
def standard : SolverConfig Float :=
  ⟨.lu, 1e-12⟩

/-- The same with Cholesky factorization. -/
def symmetric : SolverConfig Float :=
  { standard with method := .cholesky }

end SolverConfig

/-- A factorized matrix. -/
inductive Factors (α : Type) where
  /-- The steps of an elimination. -/
  | lu (steps : List (PivotStep α))
  /-- The steps of a symmetric elimination. -/
  | cholesky (steps : List (SymmetricStep α))
deriving Repr

variable {α : Type} [Scalar α]

namespace DenseMatrix

/-- All numbers of a list are zero. -/
def allZero (xs : List α) : Bool :=
  xs.all Scalar.isZero

/-- A row or a column of zeros, the first in the order of row 0, column 0, row 1 and so on. -/
def structuralZero? (m : DenseMatrix α) : Option Singularity :=
  (List.range m.rows).findSome? fun i =>
    if allZero (m.row i) then some (.zeroRow i)
    else if allZero (m.col i) then some (.zeroColumn i)
    else none

/-- The magnitude up to which a pivot of a matrix counts as zero. -/
def threshold (m : DenseMatrix α) (tolerance : α) : α :=
  tolerance * Scalar.max m.maxAbs 1

/-- Two entries across the diagonal that differ by more than a threshold, the first ones row after
    row. -/
def asymmetry? (m : DenseMatrix α) (threshold : α) : Option Indefiniteness :=
  (List.range m.rows).findSome? fun i =>
    (List.range m.rows).findSome? fun j =>
      if i < j && Scalar.less threshold (Scalar.abs (m.get i j - m.get j i)) then
        some (.asymmetric i j)
      else none

/-- The lower triangle, row after row. -/
def lowerTriangle (m : DenseMatrix α) : List (List α) :=
  (List.range m.rows).map fun i => (List.range (i + 1)).map (m.get i)

end DenseMatrix

/-- The steps of an elimination whose pivots all lie above a threshold. -/
def checkPivots (threshold : α) (steps : List (PivotStep α)) : Solved (Factors α) :=
  match steps.findIdx? fun s => Scalar.atMost (Scalar.abs s.diagonal) threshold with
  | some row => Outcome.fail (.singular (.smallPivot row))
  | none => .ok (.lu steps)

/-- Factorizes a matrix. -/
def DenseMatrix.factorize (m : DenseMatrix α) (config : SolverConfig α) : Solved (Factors α) := do
  Solved.expectSize .factorizedColumns m.rows m.cols
  match m.structuralZero? with
  | some zero => Outcome.fail (.singular zero)
  | none =>
    -- both methods measure against the matrix as it was given
    let threshold := m.threshold config.tolerance
    match config.method with
    | .lu => checkPivots threshold (eliminate m.rows m.toRows)
    | .cholesky =>
      match m.asymmetry? threshold with
      | some asymmetry => Outcome.fail (.notPositiveDefinite asymmetry)
      | none =>
        match symmetricSteps? m.rows m.lowerTriangle with
        | some steps => return .cholesky steps
        | none => Outcome.fail (.notPositiveDefinite .notPositive)

namespace Factors

/-- The number of unknowns. -/
def dim : Factors α → Nat
  | lu steps => steps.length
  | cholesky steps => steps.length

/-- The solution for a right-hand side of the right size. -/
def apply (f : Factors α) (rhs : List α) : Solved (Array α) :=
  match f with
  | lu steps => Outcome.orFail (.singular .solveFailed) ((solveSteps steps rhs).map List.toArray)
  | cholesky steps => .ok (solveSymmetric steps rhs).toArray

/-- Solves for one right-hand side. -/
def solve (f : Factors α) (rhs : Array α) : Solved (Array α) := do
  Solved.expectSize .rightHandSide f.dim rhs.size
  f.apply rhs.toList

/-- Solves for every column of a matrix. -/
def solveMatrix (f : Factors α) (rhs : DenseMatrix α) : Solved (DenseMatrix α) := do
  Solved.expectSize .rightHandSide f.dim rhs.rows
  let cols ← (List.range rhs.cols).mapM fun j => f.apply (rhs.col j)
  return DenseMatrix.ofCols f.dim cols

end Factors

end GraphTensor
