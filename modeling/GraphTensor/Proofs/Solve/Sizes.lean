import GraphTensor.Proofs.Matrix.Dense
import GraphTensor.Proofs.Outcome
import GraphTensor.Proofs.Solve.Elimination
import GraphTensor.Solve.Factorization
set_option autoImplicit false

/-! # Sizes of factors and solutions

A factorization has a step for each row of its matrix, whatever the numbers, and a solution has a
component for each step. Solving for a matrix is solving for each of its columns
(`Factors.solveMatrix_spec`). Nothing here asks for exact numbers: these are the facts that let
sizes be checked before a solve, and not after each of its steps. -/

namespace GraphTensor

variable {α : Type} [Scalar α]

/-! ## Steps -/

theorem length_clearColumn (diagonal : α) (upper : List α) (below : List (List α)) :
    (clearColumn diagonal upper below).2.length = below.length := by
  rw [clearColumn]
  split <;> simp [heads]

theorem length_eliminate {n : Nat} {rows : List (List α)} (h : rows.length = n) :
    (eliminate n rows).length = n := by
  induction n generalizing rows with
  | zero => rfl
  | succ n ih =>
      obtain ⟨top, below, hexchange, hlength, _⟩ :=
        exists_exchange_eq_cons h (largest (heads rows))
      rw [eliminate]
      simp only [hexchange, List.length_cons]
      exact congrArg (· + 1) (ih ((length_clearColumn ..).trans hlength))

theorem length_symmetricSteps? {n : Nat} {rows : List (List α)} {steps : List (SymmetricStep α)}
    (hrows : rows.length = n) (h : symmetricSteps? n rows = some steps) : steps.length = n := by
  induction n generalizing rows steps with
  | zero =>
      obtain rfl := Option.some.inj h
      rfl
  | succ n ih =>
      obtain ⟨top, below, rfl⟩ := List.exists_cons_of_length_eq_add_one hrows
      rw [symmetricSteps?] at h
      split at h
      · obtain ⟨rest, hrest, h⟩ := Option.bind_eq_some_iff.1 h
        obtain rfl := Option.some.inj h
        refine congrArg (· + 1) (ih ?_ hrest)
        simpa [remainder, leading] using hrows
      · cases h

/-! ## Solutions -/

theorem length_solveSteps {steps : List (PivotStep α)} {rhs x : List α}
    (h : solveSteps steps rhs = some x) : x.length = steps.length := by
  induction steps generalizing rhs x with
  | nil =>
      obtain rfl := Option.some.inj h
      rfl
  | cons step rest ih =>
      obtain ⟨solved, hsolved, h⟩ := Option.bind_eq_some_iff.1 h
      split at h
      · cases h
      · obtain rfl := Option.some.inj h
        exact congrArg (· + 1) (ih hsolved)

theorem length_solveSymmetric (steps : List (SymmetricStep α)) (rhs : List α) :
    (solveSymmetric steps rhs).length = steps.length := by
  induction steps generalizing rhs with
  | nil => rfl
  | cons step rest ih => exact congrArg (· + 1) (ih _)

namespace DenseMatrix

theorem length_toRows (m : DenseMatrix α) : m.toRows.length = m.rows := by
  simp [toRows]

/-- Only square matrices are factorized, with a step for each row. -/
theorem dim_of_factorize {m : DenseMatrix α} {config : SolverConfig α} {factors : Factors α}
    (h : m.factorize config = .ok factors) : m.cols = m.rows ∧ factors.dim = m.rows := by
  obtain ⟨⟨⟩, hsquare, h⟩ := Outcome.bind_eq_ok_iff.1 h
  refine ⟨(Solved.expectSize_eq_ok_iff.1 hsquare).symm, ?_⟩
  split at h
  · cases h
  dsimp only at h
  split at h
  · -- elimination with exchanges
    rw [checkPivots] at h
    split at h
    · cases h
    · obtain rfl := Except.ok.inj h
      exact length_eliminate m.length_toRows
  · split at h
    · cases h
    split at h
    · next steps hsteps =>
        obtain rfl := Except.ok.inj h
        exact length_symmetricSteps? (by simp [lowerTriangle]) hsteps
    · cases h

end DenseMatrix

namespace Factors

variable {f : Factors α}

theorem size_of_apply {rhs : List α} {x : Array α} (h : f.apply rhs = .ok x) : x.size = f.dim := by
  cases f with
  | lu steps =>
      obtain ⟨solution, hsolution, rfl⟩ :=
        Option.map_eq_some_iff.1 (Outcome.orFail_eq_ok_iff.1 h)
      exact length_solveSteps hsolution
  | cholesky steps =>
      obtain rfl := Except.ok.inj h
      exact length_solveSymmetric ..

theorem size_of_solve {rhs x : Array α} (h : f.solve rhs = .ok x) :
    rhs.size = f.dim ∧ x.size = f.dim := by
  obtain ⟨⟨⟩, hsize, h⟩ := Outcome.bind_eq_ok_iff.1 h
  exact ⟨(Solved.expectSize_eq_ok_iff.1 hsize).symm, size_of_apply h⟩

/-- The columns of a solution are the solutions for the columns. -/
theorem solveMatrix_spec {b x : DenseMatrix α} (h : f.solveMatrix b = .ok x) :
    b.rows = f.dim ∧ x.rows = f.dim ∧ x.cols = b.cols ∧
      ∀ j < b.cols, ∃ y, f.solve (b.col j).toArray = .ok y ∧ ∀ i, x.get i j = y.getD i 0 := by
  obtain ⟨⟨⟩, hrows, h⟩ := Outcome.bind_eq_ok_iff.1 h
  obtain ⟨cols, hcols, h⟩ := Outcome.bind_eq_ok_iff.1 h
  obtain rfl := Except.ok.inj h
  have hrows := Solved.expectSize_eq_ok_iff.1 hrows
  obtain ⟨hlength, hcol⟩ := Except.mapM_eq_ok hcols
  rw [List.length_range] at hlength
  refine ⟨hrows.symm, rfl, hlength, fun j hj => ?_⟩
  obtain ⟨y, hy, happly⟩ := hcol j j (by simp [hj])
  refine ⟨y, ?_, fun i => ?_⟩
  · have hsize : f.dim = (b.col j).toArray.size := by
      simp [DenseMatrix.col, hrows]
    rw [solve, Solved.expectSize_eq_ok_iff.2 hsize]
    exact happly
  · obtain ⟨hj', hy⟩ := List.getElem?_eq_some_iff.1 hy
    have hget : (cols.toArray.getD j #[]).getD i 0 = y.getD i 0 := by
      simp [hj', hy]
    rw [DenseMatrix.ofCols, DenseMatrix.get_ofFn]
    by_cases hi : i < f.dim
    · rw [if_pos ⟨hi, hj'⟩]
      exact hget
    · rw [if_neg fun hij => hi hij.1, Array.getD_eq_getD_getElem?,
        Array.getElem?_eq_none (by rw [size_of_apply happly]; exact Nat.le_of_not_lt hi)]
      rfl

end Factors

end GraphTensor
