import GraphTensor.Solve.Factorization
set_option autoImplicit false

/-! # Systems of two blocks

The system `K x + Cᵀ y = f`, `C x + D y = g` (`SchurSystem`) has primary unknowns `x` and derived
ones `y`. With `D` given, the derived unknowns are eliminated and `(K - Cᵀ D⁻¹ C) x = f - Cᵀ D⁻¹ g`
is solved first (`SchurSystem.solveByDerived`). Without `D` the primary unknowns are eliminated and
`(C K⁻¹ Cᵀ) y = C K⁻¹ f - g` is solved first (`SchurSystem.solveByPrimary`). Either way both halves
come back as a `SchurSolution`, and no inverse is formed: each `D⁻¹` or `K⁻¹` is a solve with the
factors of the matrix. `SchurSystem.check` compares the sizes before. -/

namespace GraphTensor

/-- A system of two blocks. -/
structure SchurSystem (α : Type) where
  /-- The matrix `K` of the primary unknowns. -/
  primary : DenseMatrix α
  /-- The matrix `C`, with a row for each derived and a column for each primary unknown. -/
  coupling : DenseMatrix α
  /-- The matrix `D` of the derived unknowns. -/
  derived : Option (DenseMatrix α)
  /-- The right-hand side of the primary rows. -/
  rhsPrimary : Array α
  /-- The right-hand side of the derived rows. -/
  rhsDerived : Array α

/-- The solution of a system of two blocks. -/
structure SchurSolution (α : Type) where
  /-- The primary unknowns. -/
  primary : Array α
  /-- The derived unknowns. -/
  derived : Array α
deriving DecidableEq, Repr

namespace SchurSystem

variable {α : Type} [Scalar α]

/-- Checks that the sizes of the operands agree. -/
def check (s : SchurSystem α) : Solved Unit := do
  let n := s.primary.rows
  let m := s.coupling.rows
  Solved.expectSize .primaryColumns n s.primary.cols
  Solved.expectSize .couplingColumns n s.coupling.cols
  Solved.expectSize .primaryRightHandSide n s.rhsPrimary.size
  Solved.expectSize .derivedRightHandSide m s.rhsDerived.size
  match s.derived with
  | some d =>
    Solved.expectSize .derivedRows m d.rows
    Solved.expectSize .derivedColumns m d.cols
  | none => .ok ()

/-- Solves with the derived unknowns eliminated, their matrix being given. -/
def solveByDerived (s : SchurSystem α) (d : DenseMatrix α) (config : SolverConfig α) :
    Solved (SchurSolution α) := do
  let c := s.coupling
  let ct := c.transpose
  let factors ← d.factorize config
  let inverseC ← factors.solveMatrix c
  let inverseG ← factors.solve s.rhsDerived
  let complement ← (s.primary.sub (ct.mul inverseC)).factorize config
  let primary ← complement.solve (subVec s.rhsPrimary (ct.mulVec inverseG))
  let derived ← factors.solve (subVec s.rhsDerived (c.mulVec primary))
  return ⟨primary, derived⟩

/-- Solves with the primary unknowns eliminated. -/
def solveByPrimary (s : SchurSystem α) (config : SolverConfig α) : Solved (SchurSolution α) := do
  let c := s.coupling
  let ct := c.transpose
  let factors ← s.primary.factorize config
  let inverseCt ← factors.solveMatrix ct
  let inverseF ← factors.solve s.rhsPrimary
  let complement ← (c.mul inverseCt).factorize config
  let derived ← complement.solve (subVec (c.mulVec inverseF) s.rhsDerived)
  let primary ← factors.solve (subVec s.rhsPrimary (ct.mulVec derived))
  return ⟨primary, derived⟩

/-- Solves a system of two blocks. -/
def solve (s : SchurSystem α) (config : SolverConfig α) : Solved (SchurSolution α) := do
  s.check
  match s.derived with
  | some d => s.solveByDerived d config
  | none => s.solveByPrimary config

end SchurSystem

end GraphTensor
