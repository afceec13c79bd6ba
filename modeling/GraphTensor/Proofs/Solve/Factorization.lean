import GraphTensor.Proofs.Solve.Sizes
set_option autoImplicit false

/-! # Exact factorizations

The factors of a matrix solve it exactly if what they give for a right-hand side is a solution
(`DenseMatrix.SolvedExactly`), and invert it if that solution is the only one
(`DenseMatrix.InvertedExactly`). Elimination with row exchanges does both for every matrix, whatever
the tolerance for pivots (`DenseMatrix.invertedExactly_lu`). Symmetric elimination reads only one
triangle, and so does it at most for matrices that are symmetric; the statements about solves name
what they need. -/

namespace GraphTensor

variable {K : Type} [Field K] [LinearOrder K]

namespace DenseMatrix

/-- What the factors of a matrix give as a solution is one. -/
def SolvedExactly (m : DenseMatrix K) (config : SolverConfig K) : Prop :=
  ∀ factors rhs x, m.factorize config = .ok factors → factors.solve rhs = .ok x → m.mulVec x = rhs

/-- What the factors of a matrix give as a solution is the product of the inverse matrix and the
    right-hand side: the one vector whose product with the matrix is the right-hand side. -/
def InvertedExactly (m : DenseMatrix K) (config : SolverConfig K) : Prop :=
  ∀ factors rhs x, m.factorize config = .ok factors → factors.solve rhs = .ok x →
    x.size = m.cols ∧ ∀ y, y.size = m.cols → (m.mulVec y = rhs ↔ y = x)

theorem InvertedExactly.solvedExactly {m : DenseMatrix K} {config : SolverConfig K}
    (h : m.InvertedExactly config) : m.SolvedExactly config := by
  intro factors rhs x hfactors hsolve
  obtain ⟨hsize, hiff⟩ := h factors rhs x hfactors hsolve
  exact (hiff x hsize).2 rfl

theorem length_of_mem_toRows {m : DenseMatrix K} {row : List K} (h : row ∈ m.toRows) :
    row.length = m.cols := by
  obtain ⟨i, _, rfl⟩ := List.mem_map.1 h
  simp [row]

theorem dot_row (m : DenseMatrix K) (i : Nat) {y : Array K} (hy : y.size = m.cols) :
    dot (m.row i) y.toList =
      Scalar.sum ((List.range m.cols).map fun k => m.get i k * y.getD k 0) := by
  rw [Scalar.sum_eq_sum, dot, row]
  refine congrArg List.sum (List.ext_getElem (by simp [hy]) fun k hk hk' => ?_)
  have hlt : k < y.size := by
    rw [hy]
    simpa using hk'
  simp [hlt]

theorem map_dot_toRows (m : DenseMatrix K) {y : Array K} (hy : y.size = m.cols) :
    m.toRows.map (dot · y.toList) = (m.mulVec y).toList := by
  rw [toRows, List.map_map, mulVec, Array.toList_map, Array.toList_range]
  exact List.map_congr_left fun i _ => m.dot_row i hy

/-- Factors by elimination are the steps that eliminate the rows of a square matrix. -/
theorem factorize_lu {m : DenseMatrix K} {config : SolverConfig K} {factors : Factors K}
    (hmethod : config.method = .lu) (h : m.factorize config = .ok factors) :
    m.rows = m.cols ∧ factors = .lu (eliminate m.rows m.toRows) := by
  obtain ⟨⟨⟩, hsquare, h⟩ := Outcome.bind_eq_ok_iff.1 h
  refine ⟨Solved.expectSize_eq_ok_iff.1 hsquare, ?_⟩
  split at h
  · cases h
  · rw [hmethod] at h
    simp only [checkPivots] at h
    split at h
    · cases h
    · exact (Except.ok.inj h).symm

/-- **Elimination inverts** every matrix that it factorizes. -/
theorem invertedExactly_lu (m : DenseMatrix K) {config : SolverConfig K}
    (hmethod : config.method = .lu) : m.InvertedExactly config := by
  intro factors rhs x hfactors hsolve
  obtain ⟨hsquare, rfl⟩ := factorize_lu hmethod hfactors
  obtain ⟨⟨⟩, hdim, hsolve⟩ := Outcome.bind_eq_ok_iff.1 hsolve
  have hrhs : rhs.size = m.rows := by
    rw [← Solved.expectSize_eq_ok_iff.1 hdim]
    exact length_eliminate m.length_toRows
  obtain ⟨solution, hsolution, rfl⟩ :=
    Option.map_eq_some_iff.1 (Outcome.orFail_eq_ok_iff.1 hsolve)
  obtain ⟨hsize, hiff⟩ := solveSteps_eliminate m.length_toRows
    (fun row hrow => (length_of_mem_toRows hrow).trans hsquare.symm) hrhs hsolution
  refine ⟨hsize.trans hsquare, fun y hy => ?_⟩
  have hy' := hiff y.toList (hy.trans hsquare.symm)
  rw [map_dot_toRows m hy, Array.toList_inj] at hy'
  rw [hy']
  exact ⟨fun h => Array.toList_inj.1 h, fun h => h ▸ rfl⟩

end DenseMatrix

end GraphTensor
