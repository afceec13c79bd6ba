import GraphTensor.Proofs.Matrix.BlockSparse
import GraphTensor.Proofs.Solve.Boundary
import GraphTensor.Proofs.Solve.Factorization
import GraphTensor.Solve.Session
set_option autoImplicit false

/-! # Direct solves

A direct solve (`BlockMatrix.solveDirect`) expands its matrix, moves the fixed unknowns to the
right, factorizes what is left and puts the solution together. Where the factors solve the reduced
system exactly, the result satisfies every row of a free unknown, so that it solves the system in
which the row of each fixed unknown demands its value. Of the given values only those of fixed
unknowns count.

The session that the solve goes through is taken apart once: `BlockMatrix.solveDirect_eq` lists the
stages without it, and `DenseMatrix.solveReduced` is the stage that factorizes, with nothing to do
if nothing is free. -/

namespace GraphTensor

/-! ## The stages of a solve -/

section

variable {α : Type} [Scalar α]

/-- The solution of a reduced system. There is nothing to factorize if nothing is free. -/
def DenseMatrix.solveReduced (m : DenseMatrix α) (rhs : Array α) (config : SolverConfig α) :
    Solved (Array α) :=
  if m.rows = 0 then .ok #[]
  else do
    let factors ← m.factorize config
    factors.solve rhs

namespace SolveSession

variable {s : SolveSession α}

theorem start_eq_ok {matrix : BlockMatrix α} {rhs : Array α} {config : SolverConfig α}
    (h : start matrix rhs config = .ok s) :
    matrix.scalarRows? = some rhs.size ∧ matrix.scalarCols? = some rhs.size ∧
      ∃ dense p, matrix.toDense? = some dense ∧ Partition.allFree? rhs.size = some p ∧
      s = ⟨config, .assembled, dense, rhs, p, Array.replicate rhs.size 0, none, none⟩ := by
  obtain ⟨n, hn, h⟩ := Outcome.bind_eq_ok_iff.1 h
  obtain ⟨cols, hcols, h⟩ := Outcome.bind_eq_ok_iff.1 h
  obtain ⟨hsquare, h⟩ := Outcome.check_bind_eq_ok_iff.1 h
  obtain ⟨hrhs, h⟩ := Outcome.check_bind_eq_ok_iff.1 h
  obtain ⟨dense, hdense, h⟩ := Outcome.bind_eq_ok_iff.1 h
  obtain ⟨p, hp, h⟩ := Outcome.bind_eq_ok_iff.1 h
  obtain rfl := Except.ok.inj h
  obtain rfl := Solved.expectSize_eq_ok_iff.1 hrhs
  obtain rfl := Solved.expectSize_eq_ok_iff.1 hsquare
  exact ⟨Outcome.orAbort_eq_ok_iff.1 hn, Outcome.orAbort_eq_ok_iff.1 hcols, dense, p,
    Outcome.orAbort_eq_ok_iff.1 hdense, Outcome.orAbort_eq_ok_iff.1 hp, rfl⟩

/-- A session to which a boundary has been applied goes on to factorize and solve what is left. -/
theorem factorize_solve {reduced : DenseMatrix α} {moved : Array α}
    (hphase : s.phase = .boundaryApplied) (hreduced : s.reduced = some (reduced, moved)) :
    (do
      s.factorize.2
      let out ← s.factorize.1.solve
      return out.2) = (do
      let y ← reduced.solveReduced moved s.config
      s.partition.scatter y s.values) := by
  have hexpect : s.expect .boundaryApplied = .ok () := if_pos hphase
  have hfactors : s.factorsOf =
      if reduced.rows = 0 then .ok none else (reduced.factorize s.config).map some := by
    rw [factorsOf, hreduced]
  rw [DenseMatrix.solveReduced, factorize, hexpect]
  simp only [hfactors]
  by_cases hrows : reduced.rows = 0
  · -- nothing is free
    simp only [hrows, if_true, solve, expect, freeValues]
    cases hfull : s.partition.scatter #[] s.values <;>
      simp [bind, Except.bind, pure, Except.pure, hfull]
  · simp only [hrows, if_false]
    cases reduced.factorize s.config with
    | error fault => cases fault <;> rfl
    | ok factors =>
        simp only [Except.map, solve, expect, freeValues, hreduced, if_true]
        cases hy : factors.solve moved with
        | error fault => simp [bind, Except.bind, hy]
        | ok y =>
            cases hfull : s.partition.scatter y s.values <;>
              simp [bind, Except.bind, pure, Except.pure, hy, hfull]

end SolveSession

end

namespace BlockMatrix

/-- **The stages of a direct solve**: expanding, splitting the unknowns, moving the fixed ones to the
    right, solving what is left and putting the solution together. -/
theorem solveDirect_eq {α : Type} [Scalar α] (matrix : BlockMatrix α) (rhs : Array α)
    (boundary : Option (Boundary α)) (config : SolverConfig α) :
    matrix.solveDirect rhs boundary config = (do
      let session ← SolveSession.start matrix rhs config
      let bound ← matrix.boundaryOf rhs.size boundary
      let reduced ← bound.1.reduce session.matrix rhs bound.2
      let y ← reduced.1.solveReduced reduced.2 config
      bound.1.scatter y bound.2) := by
  rw [solveDirect]
  cases hsession : SolveSession.start matrix rhs config with
  | error fault => rfl
  | ok session =>
      obtain ⟨_, _, dense, p, _, _, rfl⟩ := SolveSession.start_eq_ok hsession
      change (matrix.boundaryOf rhs.size boundary >>= _) =
        (matrix.boundaryOf rhs.size boundary >>= _)
      cases matrix.boundaryOf rhs.size boundary with
      | error fault => rfl
      | ok bound =>
          change (bound.1.reduce dense rhs bound.2 >>= _) >>= _ =
            (bound.1.reduce dense rhs bound.2 >>= _)
          cases bound.1.reduce dense rhs bound.2 with
          | error fault => rfl
          | ok reduced =>
              exact @SolveSession.factorize_solve α _
                ⟨config, .boundaryApplied, dense, rhs, bound.1, bound.2, some reduced, none⟩
                reduced.1 reduced.2 rfl rfl

/-- A direct solve that succeeds has gone through its stages. -/
theorem stages_of_solveDirect {α : Type} [Scalar α] {matrix : BlockMatrix α} {rhs x : Array α}
    {boundary : Option (Boundary α)} {config : SolverConfig α}
    (h : matrix.solveDirect rhs boundary config = .ok x) :
    ∃ dense bound reduced y, matrix.toDense? = some dense ∧
      matrix.boundaryOf rhs.size boundary = .ok bound ∧
      bound.1.reduce dense rhs bound.2 = .ok reduced ∧
      reduced.1.solveReduced reduced.2 config = .ok y ∧ bound.1.scatter y bound.2 = .ok x := by
  rw [solveDirect_eq] at h
  obtain ⟨session, hsession, h⟩ := Outcome.bind_eq_ok_iff.1 h
  obtain ⟨bound, hbound, h⟩ := Outcome.bind_eq_ok_iff.1 h
  obtain ⟨reduced, hreduce, h⟩ := Outcome.bind_eq_ok_iff.1 h
  obtain ⟨y, hy, hscatter⟩ := Outcome.bind_eq_ok_iff.1 h
  obtain ⟨_, _, dense, _, hdense, _, rfl⟩ := SolveSession.start_eq_ok hsession
  exact ⟨dense, bound, reduced, y, hdense, hbound, hreduce, hy, hscatter⟩

/-! ## Exact solves -/

variable {K : Type} [Field K] [LinearOrder K] {matrix : BlockMatrix K} {rhs values x : Array K}
  {boundary : Option (Boundary K)} {config : SolverConfig K} {dense : DenseMatrix K} {p : Partition}

theorem splits_of_boundaryOf {n : Nat} (h : matrix.boundaryOf n boundary = .ok (p, values)) :
    p.Splits p.size := by
  have hsplits : ∃ n, p.Splits n := by
    cases boundary with
    | none =>
        obtain ⟨q, hq, h⟩ := Outcome.bind_eq_ok_iff.1 h
        obtain ⟨rfl, _⟩ := Prod.mk.inj (Except.ok.inj h)
        exact ⟨_, Partition.splits_of_allFree? (Outcome.orAbort_eq_ok_iff.1 hq)⟩
    | some b =>
        obtain ⟨_, _, h⟩ := Outcome.bind_eq_ok_iff.1 h
        obtain ⟨q, hq, h⟩ := Outcome.bind_eq_ok_iff.1 h
        obtain ⟨rfl, _⟩ := Prod.mk.inj (Except.ok.inj h)
        exact ⟨_, Partition.splits_of_ofMarker? (Outcome.orAbort_eq_ok_iff.1 hq)⟩
  obtain ⟨n, hn⟩ := hsplits
  rwa [hn.size_eq]

/-- A reduced system is solved if its factors solve it exactly. -/
theorem mulVec_of_solveReduced {reduced : DenseMatrix K} {moved y : Array K}
    (hexact : reduced.SolvedExactly config) (hmoved : moved.size = reduced.rows)
    (h : reduced.solveReduced moved config = .ok y) : reduced.mulVec y = moved := by
  unfold DenseMatrix.solveReduced at h
  split at h
  · next hrows =>
      -- without free unknowns there is nothing to solve
      rw [Array.eq_empty_of_size_eq_zero (hmoved.trans hrows)]
      exact Array.eq_empty_of_size_eq_zero (by simp [DenseMatrix.mulVec, hrows])
  · obtain ⟨factors, hfactors, h⟩ := Outcome.bind_eq_ok_iff.1 h
    exact hexact factors moved y hfactors h

/-- **A direct solve** gives the fixed unknowns their values and satisfies the rows of the others. -/
theorem solves_of_solveDirect
    (hboundary : matrix.boundaryOf rhs.size boundary = .ok (p, values))
    (hexact : ∀ dense, matrix.toDense? = some dense →
      (dense.select p.free p.free).SolvedExactly config)
    (h : matrix.solveDirect rhs boundary config = .ok x) :
    ∃ dense, matrix.toDense? = some dense ∧ dense.rows = p.size ∧ dense.cols = p.size ∧
      rhs.size = p.size ∧ x.size = p.size ∧ (∀ k ∈ p.fixed, x.getD k 0 = values.getD k 0) ∧
      ∀ k ∈ p.free, (dense.mulVec x).getD k 0 = rhs.getD k 0 := by
  obtain ⟨dense, _, ⟨_, moved⟩, y, hdense, hbound, hreduce, hy, hscatter⟩ :=
    stages_of_solveDirect h
  obtain rfl := Except.ok.inj (hboundary.symm.trans hbound)
  obtain ⟨hrows, hcols, hsize, rfl, hmoved, _⟩ := Partition.reduce_spec hreduce
  have hsolved := mulVec_of_solveReduced (hexact dense hdense)
    (hmoved.trans (by simp [DenseMatrix.select, DenseMatrix.ofFn])) hy
  obtain ⟨hx, hfixed, hfree⟩ :=
    Partition.scatter_solves (splits_of_boundaryOf hboundary) hreduce hsolved hscatter
  exact ⟨dense, hdense, hrows, hcols, hsize, hx, hfixed, hfree⟩

end BlockMatrix

end GraphTensor
