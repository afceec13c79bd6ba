import GraphTensor.Proofs.Matrix.BlockSparse
import GraphTensor.Proofs.Solve.Decomposition
import GraphTensor.Proofs.Solve.Factorization
import Mathlib.Algebra.Field.Rat
import Mathlib.Algebra.Order.Ring.Rat
set_option autoImplicit false

/-! # Matrices found singular

A matrix without a row or a column of zeros (`DenseMatrix.HasZeroLine`) is found singular
(`DenseMatrix.FoundSingular`) where a pivot is small (`DenseMatrix.HasPivotAtMost`), measured
against the largest entry. The pivots of a positive multiple (`DenseMatrix.scale`) are that multiple
of the pivots, and so is its largest entry. The measure is never below one, though: among entries
that are all smaller, a pivot counts as zero that a multiple of the matrix has as a proper one. -/

namespace GraphTensor

variable {K : Type} [Field K] [LinearOrder K]

namespace Scalar

/-! ## The largest magnitude -/

/-- The largest magnitude so far is kept, or exceeded by one that is attained. -/
theorem exists_foldl_max (best : K) (xs : List K) :
    ∃ r, xs.foldl (fun m x => Scalar.max m (Scalar.abs x)) best = r ∧ best ≤ r ∧
      (∀ x ∈ xs, |x| ≤ r) ∧ (r = best ∨ ∃ x ∈ xs, |x| = r) := by
  induction xs generalizing best with
  | nil => exact ⟨best, rfl, le_rfl, nofun, .inl rfl⟩
  | cons x xs ih =>
      obtain ⟨r, hr, hbest, hle, hattained⟩ := ih (Max.max best |x|)
      refine ⟨r, hr, (le_max_left ..).trans hbest,
        List.forall_mem_cons.2 ⟨(le_max_right ..).trans hbest, hle⟩, ?_⟩
      obtain heq | ⟨y, hy, heq⟩ := hattained
      · obtain hmax | hmax := max_choice best |x|
        · exact .inl (heq.trans hmax)
        · exact .inr ⟨x, List.mem_cons_self .., (heq.trans hmax).symm⟩
      · exact .inr ⟨y, List.mem_cons_of_mem _ hy, heq⟩

theorem abs_le_maxAbs {xs : List K} {x : K} (h : x ∈ xs) : |x| ≤ maxAbs xs := by
  obtain ⟨r, hr, _, hle, _⟩ := exists_foldl_max 0 xs
  exact (hle x h).trans_eq hr.symm

variable [IsStrictOrderedRing K]

theorem exists_abs_eq_maxAbs {xs : List K} (h : xs ≠ []) : ∃ x ∈ xs, |x| = maxAbs xs := by
  obtain ⟨r, hr, _, hle, hzero | ⟨x, hx, habs⟩⟩ := exists_foldl_max (0 : K) xs
  · obtain ⟨x, hx⟩ := List.exists_mem_of_ne_nil xs h
    exact ⟨x, hx, (le_antisymm (hle x hx) (hzero.trans_le (abs_nonneg x))).trans hr.symm⟩
  · exact ⟨x, hx, habs.trans hr.symm⟩

theorem maxAbs_scale {c : K} (hc : 0 < c) (xs : List K) :
    maxAbs (xs.map (c * ·)) = c * maxAbs xs := by
  have hfold : ∀ best, (xs.map (c * ·)).foldl (fun m x => Scalar.max m (Scalar.abs x)) (c * best) =
      c * xs.foldl (fun m x => Scalar.max m (Scalar.abs x)) best := by
    intro best
    induction xs generalizing best with
    | nil => rfl
    | cons x xs ih =>
        have hmax : Scalar.max (c * best) (Scalar.abs (c * x)) =
            c * Scalar.max best (Scalar.abs x) := by
          rw [abs_scale hc]
          exact (mul_max_of_nonneg _ _ hc.le).symm
        rw [List.map_cons, List.foldl_cons, hmax, ih, List.foldl_cons]
  rw [maxAbs, maxAbs, ← hfold, mul_zero]

end Scalar

namespace DenseMatrix

/-! ## Square matrices and their multiples -/

/-- The entries of a square matrix. -/
def square (m : DenseMatrix K) : Matrix (Fin m.rows) (Fin m.rows) K :=
  Matrix.of fun i j => m.get i j

/-- A multiple of a matrix. -/
def scale (c : K) (m : DenseMatrix K) : DenseMatrix K :=
  { m with data := m.data.map (c * ·) }

/-- The factors that elimination finds. -/
def pivotedFactors (m : DenseMatrix K) : PivotedFactors m.rows K :=
  .ofSteps m.rows (eliminate m.rows m.toRows)

theorem ofRows_toRows {m : DenseMatrix K} (hsquare : m.rows = m.cols) :
    ofRows m.rows m.toRows = m.square := by
  ext i j
  have hj : (j : Nat) < m.cols := hsquare ▸ j.isLt
  simp [ofRows, toRows, row, square, hj]

theorem get_scale (c : K) (m : DenseMatrix K) (i j : Nat) :
    (m.scale c).get i j = c * m.get i j := by
  by_cases h : i < m.rows ∧ j < m.cols
  · by_cases hk : i * m.cols + j < m.data.size <;> simp [get, scale, h, hk]
  · rw [get_of_not_lt h, get_of_not_lt (m := m.scale c) h]
    exact (mul_zero c).symm

theorem toRows_scale (c : K) (m : DenseMatrix K) :
    (m.scale c).toRows = m.toRows.map (List.map (c * ·)) := by
  rw [toRows, toRows, List.map_map]
  refine List.map_congr_left fun i _ => ?_
  rw [Function.comp, row, row, List.map_map]
  exact List.map_congr_left fun j _ => get_scale ..

theorem square_scale (c : K) (m : DenseMatrix K) : (m.scale c).square = c • m.square :=
  Matrix.ext fun _ _ => get_scale ..

/-! ## What is found singular -/

/-- A row or a column has only zeros. -/
def HasZeroLine (m : DenseMatrix K) : Prop :=
  (∃ i, ∀ j, m.square i j = 0) ∨ ∃ j, ∀ i, m.square i j = 0

/-- The magnitude of a pivot is at most a bound. -/
def HasPivotAtMost (m : DenseMatrix K) (bound : K) : Prop :=
  ∃ i, |m.pivotedFactors.upper i i| ≤ bound

instance (m : DenseMatrix K) : Decidable m.HasZeroLine :=
  inferInstanceAs (Decidable ((∃ i : Fin m.rows, ∀ j : Fin m.rows, m.get i j = 0) ∨
    ∃ j : Fin m.rows, ∀ i : Fin m.rows, m.get i j = 0))

instance (m : DenseMatrix K) (bound : K) : Decidable (m.HasPivotAtMost bound) :=
  inferInstanceAs (Decidable (∃ i, |m.pivotedFactors.upper i i| ≤ bound))

/-- Factorization finds the matrix singular. -/
def FoundSingular (m : DenseMatrix K) (config : SolverConfig K) : Prop :=
  ∃ detail, m.factorize config = Outcome.fail (.singular detail)

theorem allZero_iff {xs : List K} : allZero xs = true ↔ ∀ x ∈ xs, x = 0 := by
  simp [allZero, Scalar.isZero]

theorem structuralZero?_eq_none_iff {m : DenseMatrix K} (hsquare : m.rows = m.cols) :
    m.structuralZero? = none ↔ ¬ m.HasZeroLine := by
  have hrow : ∀ i : Fin m.rows, allZero (m.row i) = true ↔ ∀ j, m.square i j = 0 := fun i => by
    simp [allZero_iff, row, square, ← hsquare, Fin.forall_iff]
  have hcol : ∀ j : Fin m.rows, allZero (m.col j) = true ↔ ∀ i, m.square i j = 0 := fun j => by
    simp [allZero_iff, col, square, Fin.forall_iff]
  rw [structuralZero?, List.findSome?_eq_none_iff, HasZeroLine, not_or, not_exists, not_exists,
    ← forall_and]
  constructor
  · intro h i
    have hi := h i (List.mem_range.2 i.isLt)
    rw [← hrow, ← hcol]
    split_ifs at hi with hr hc
    exact ⟨hr, hc⟩
  · intro h i hi
    have hi := h ⟨i, List.mem_range.1 hi⟩
    rw [← hrow, ← hcol] at hi
    rw [if_neg hi.1, if_neg hi.2]

theorem checkPivots_singular_iff {threshold : K} {steps : List (PivotStep K)} :
    (∃ detail, checkPivots threshold steps = Outcome.fail (.singular detail)) ↔
      ∃ s ∈ steps, |s.diagonal| ≤ threshold := by
  rw [checkPivots]
  cases hsmall : steps.findIdx? fun s => Scalar.atMost (Scalar.abs s.diagonal) threshold with
  | some row =>
      obtain ⟨h, hle, _⟩ := List.findIdx?_eq_some_iff_getElem.1 hsmall
      exact iff_of_true ⟨_, rfl⟩ ⟨_, List.getElem_mem h, of_decide_eq_true hle⟩
  | none =>
      refine iff_of_false ?_ ?_
      · rintro ⟨detail, h⟩
        cases h
      · rintro ⟨s, hs, hle⟩
        exact of_decide_eq_false (List.findIdx?_eq_none_iff.1 hsmall s hs) hle

theorem hasPivotAtMost_iff {m : DenseMatrix K} {bound : K} :
    m.HasPivotAtMost bound ↔ ∃ s ∈ eliminate m.rows m.toRows, |s.diagonal| ≤ bound := by
  have hlength := length_eliminate m.length_toRows
  have hupper := PivotedFactors.upper_ofSteps_self hlength
  constructor
  · rintro ⟨i, hi⟩
    rw [pivotedFactors, hupper] at hi
    exact ⟨_, List.getElem_mem _, hi⟩
  · rintro ⟨s, hs, hle⟩
    obtain ⟨i, hi, rfl⟩ := List.mem_iff_getElem.1 hs
    refine ⟨⟨i, hlength ▸ hi⟩, ?_⟩
    rw [pivotedFactors, hupper]
    exact hle

theorem HasPivotAtMost.mono {m : DenseMatrix K} {bound bound' : K} (h : m.HasPivotAtMost bound)
    (hle : bound ≤ bound') : m.HasPivotAtMost bound' :=
  h.imp fun _ hi => hi.trans hle

theorem factorize_lu_eq {m : DenseMatrix K} {config : SolverConfig K}
    (hmethod : config.method = .lu) (hsquare : m.rows = m.cols) :
    m.factorize config = match m.structuralZero? with
      | some zero => Outcome.fail (.singular zero)
      | none => checkPivots (m.threshold config.tolerance) (eliminate m.rows m.toRows) := by
  rw [factorize, Solved.expectSize_eq_ok_iff.2 hsquare, hmethod]
  rfl

/-- A matrix is found singular just if it has a row or a column of zeros or a small pivot. -/
theorem foundSingular_iff {m : DenseMatrix K} {config : SolverConfig K}
    (hmethod : config.method = .lu) (hsquare : m.rows = m.cols) :
    m.FoundSingular config ↔
      m.HasZeroLine ∨ m.HasPivotAtMost (config.tolerance * max m.maxAbs 1) := by
  rw [FoundSingular, factorize_lu_eq hmethod hsquare]
  cases hzero : m.structuralZero? with
  | some zero =>
      refine iff_of_true ⟨zero, rfl⟩ (.inl (not_not.1 fun h => ?_))
      rw [(structuralZero?_eq_none_iff hsquare).2 h] at hzero
      cases hzero
  | none =>
      rw [or_iff_right ((structuralZero?_eq_none_iff hsquare).1 hzero), hasPivotAtMost_iff]
      exact checkPivots_singular_iff

theorem hasZeroLine_scale_iff {c : K} (hc : c ≠ 0) {m : DenseMatrix K} :
    (m.scale c).HasZeroLine ↔ m.HasZeroLine := by
  have hentry : ∀ i j : Fin m.rows, (m.scale c).square i j = 0 ↔ m.square i j = 0 := fun i j => by
    rw [square_scale]
    exact smul_eq_zero_iff_right hc
  exact or_congr (exists_congr fun i => forall_congr' fun j => hentry i j)
    (exists_congr fun j => forall_congr' fun i => hentry i j)

/-! ## Multiples -/

variable [IsStrictOrderedRing K]

theorem isGreatest_maxAbs {m : DenseMatrix K} (hsquare : m.rows = m.cols)
    (hfull : m.Full) (hpos : 0 < m.rows) :
    IsGreatest (Set.range fun p : Fin m.rows × Fin m.rows => |m.square p.1 p.2|) m.maxAbs := by
  have hsize : m.data.size = m.rows * m.rows := by
    rw [hfull, ← hsquare]
  have hget : ∀ i j : Fin m.rows, ∃ h : i * m.rows + j < m.data.size,
      m.square i j = m.data[i * m.rows + j] := by
    intro i j
    have hplace := hsize ▸ place_lt i.isLt j.isLt
    exact ⟨hplace, by simp [square, get, ← hsquare, hplace]⟩
  constructor
  · have hne : m.data.toList ≠ [] := by
      rw [Ne, ← List.length_eq_zero_iff, Array.length_toList, hsize]
      exact (Nat.mul_pos hpos hpos).ne'
    obtain ⟨x, hx, habs⟩ := Scalar.exists_abs_eq_maxAbs hne
    obtain ⟨k, hk, rfl⟩ := Array.mem_iff_getElem.1 (Array.mem_toList_iff.1 hx)
    have hk' : k < m.rows * m.rows := hsize ▸ hk
    let i : Fin m.rows := ⟨k / m.rows, Nat.div_lt_of_lt_mul hk'⟩
    let j : Fin m.rows := ⟨k % m.rows, Nat.mod_lt _ hpos⟩
    obtain ⟨_, hentry⟩ := hget i j
    refine ⟨(i, j), ?_⟩
    have hplace : (i : Nat) * m.rows + j = k := Nat.div_add_mod' k m.rows
    simp only [hentry, hplace]
    exact habs
  · rintro _ ⟨⟨i, j⟩, rfl⟩
    obtain ⟨hplace, hentry⟩ := hget i j
    simp only [hentry]
    exact Scalar.abs_le_maxAbs (Array.mem_toList_iff.2 (Array.getElem_mem hplace))

theorem maxAbs_scale {c : K} (hc : 0 < c) (m : DenseMatrix K) :
    (m.scale c).maxAbs = c * m.maxAbs := by
  rw [maxAbs, scale, Array.toList_map, Scalar.maxAbs_scale hc, maxAbs]

theorem decomposes_pivotedFactors {m : DenseMatrix K} (hsquare : m.rows = m.cols) :
    m.pivotedFactors.Decomposes m.square := by
  rw [← ofRows_toRows hsquare]
  exact decomposes_ofSteps_eliminate m.length_toRows fun row hrow =>
    (length_of_mem_toRows hrow).trans hsquare.symm

theorem pivotedFactors_scale {c : K} (hc : 0 < c) {m : DenseMatrix K}
    (hsquare : m.rows = m.cols) :
    (m.scale c).pivotedFactors = m.pivotedFactors.scale c := by
  rw [pivotedFactors, pivotedFactors, ← PivotedFactors.ofSteps_scale, toRows_scale]
  exact congrArg (PivotedFactors.ofSteps m.rows) (eliminate_scale hc m.length_toRows fun row hrow =>
    (length_of_mem_toRows hrow).trans hsquare.symm)

theorem hasPivotAtMost_scale_iff {c : K} (hc : 0 < c) {m : DenseMatrix K}
    (hsquare : m.rows = m.cols) {bound : K} :
    (m.scale c).HasPivotAtMost (c * bound) ↔ m.HasPivotAtMost bound := by
  refine exists_congr fun i => ?_
  rw [pivotedFactors_scale hc hsquare]
  show |c * m.pivotedFactors.upper i i| ≤ c * bound ↔ _
  rw [abs_mul, abs_of_pos hc, mul_le_mul_iff_right₀ hc]

/-- **Where singularity is relative to the matrix.** Elimination decomposes a square matrix with
    partial pivoting. It finds the matrix singular just if a row or a column has only zeros or the
    magnitude of a diagonal entry of the upper factor is at most the tolerance times the larger of
    one and the largest magnitude of an entry. Where that magnitude is at least one, or the tolerance
    is zero, it alone counts. A positive multiple of the matrix has that multiple of the upper
    factor; where both have an entry of at least one, or the tolerance is zero, both are found
    singular or neither is. Whatever the entries, a multiple by one or more is found singular only if
    the matrix itself is. -/
theorem foundSingular_relative {m : DenseMatrix K} {config : SolverConfig K}
    (hmethod : config.method = .lu) (hsquare : m.rows = m.cols) (hfull : m.Full) :
    m.pivotedFactors.Decomposes m.square ∧
      (0 < m.rows → IsGreatest (Set.range fun p : Fin m.rows × Fin m.rows => |m.square p.1 p.2|)
        m.maxAbs) ∧
      (m.FoundSingular config ↔
        m.HasZeroLine ∨ m.HasPivotAtMost (config.tolerance * max m.maxAbs 1)) ∧
      (1 ≤ m.maxAbs ∨ config.tolerance = 0 →
        (m.FoundSingular config ↔
          m.HasZeroLine ∨ m.HasPivotAtMost (config.tolerance * m.maxAbs))) ∧
      ∀ c, 0 < c →
        (m.scale c).square = c • m.square ∧
        (m.scale c).pivotedFactors = m.pivotedFactors.scale c ∧
        (1 ≤ m.maxAbs ∧ 1 ≤ c * m.maxAbs ∨ config.tolerance = 0 →
          ((m.scale c).FoundSingular config ↔ m.FoundSingular config)) ∧
        (1 ≤ c → 0 ≤ config.tolerance →
          (m.scale c).FoundSingular config → m.FoundSingular config) := by
  have hfound := foundSingular_iff hmethod hsquare
  refine ⟨decomposes_pivotedFactors hsquare, isGreatest_maxAbs hsquare hfull, hfound, ?_,
    fun c hc => ⟨square_scale c m, pivotedFactors_scale hc hsquare, ?_, ?_⟩⟩
  · rintro (hone | hzero)
    · rw [hfound, max_eq_left hone]
    · rw [hfound, hzero, zero_mul, zero_mul]
  · intro h
    have hbound : config.tolerance * max (c * m.maxAbs) 1 =
        c * (config.tolerance * max m.maxAbs 1) := by
      obtain ⟨hone, hone'⟩ | hzero := h
      · rw [max_eq_left hone, max_eq_left hone', mul_left_comm]
      · rw [hzero, zero_mul, zero_mul, mul_zero]
    rw [foundSingular_iff (m := m.scale c) hmethod hsquare, hfound, maxAbs_scale hc, hbound,
      hasPivotAtMost_scale_iff hc hsquare, hasZeroLine_scale_iff hc.ne']
  · intro hone htolerance
    have hbound : config.tolerance * max (c * m.maxAbs) 1 ≤
        c * (config.tolerance * max m.maxAbs 1) := by
      rw [mul_left_comm, mul_max_of_nonneg _ _ hc.le, mul_one]
      exact mul_le_mul_of_nonneg_left (max_le_max le_rfl hone) htolerance
    rw [foundSingular_iff (m := m.scale c) hmethod hsquare, hfound, maxAbs_scale hc,
      hasZeroLine_scale_iff hc.ne', ← hasPivotAtMost_scale_iff hc hsquare]
    exact Or.imp_right fun h => h.mono hbound

end DenseMatrix

/-- Elimination over exact numbers with the usual tolerance. -/
def exactElimination : SolverConfig ℚ :=
  ⟨.lu, 1 / 10 ^ 12⟩

/-- A matrix whose rows are multiples of each other. -/
def parallelRows : DenseMatrix ℚ :=
  ⟨2, 2, #[1, 2, 2, 4]⟩

/-- A matrix with parallel rows is found singular, and so is the half of it. -/
theorem parallelRows_found_singular :
    exactElimination.method = .lu ∧ parallelRows.rows = parallelRows.cols ∧ parallelRows.Full ∧
      1 ≤ parallelRows.maxAbs ∧ 1 ≤ 1 / 2 * parallelRows.maxAbs ∧
      parallelRows.FoundSingular exactElimination ∧
      (parallelRows.scale (1 / 2)).FoundSingular exactElimination := by
  have hone : 1 ≤ parallelRows.maxAbs := by decide +kernel
  have hhalf : 1 ≤ 1 / 2 * parallelRows.maxAbs := by decide +kernel
  have hmethod : exactElimination.method = .lu := rfl
  obtain ⟨_, _, _, hfound, hscale⟩ :=
    DenseMatrix.foundSingular_relative (m := parallelRows) hmethod rfl rfl
  have hsingular : parallelRows.FoundSingular exactElimination :=
    (hfound (.inl hone)).2 (by decide +kernel)
  exact ⟨rfl, rfl, rfl, hone, hhalf, hsingular,
    ((hscale (1 / 2) (by decide +kernel)).2.2.1 (.inl ⟨hone, hhalf⟩)).2 hsingular⟩

/-- A matrix with one entry, which is below the tolerance. -/
def smallEntry : DenseMatrix ℚ :=
  ⟨1, 1, #[1 / 10 ^ 13]⟩

/-- **Singularity is not relative to a matrix of small entries**: a matrix whose one pivot is its
    largest entry is found singular, and a multiple of it is not. -/
theorem smallEntry_found_singular :
    exactElimination.method = .lu ∧ 0 ≤ exactElimination.tolerance ∧
      smallEntry.rows = smallEntry.cols ∧ smallEntry.Full ∧
      smallEntry.FoundSingular exactElimination ∧
      ¬ (smallEntry.HasZeroLine ∨
        smallEntry.HasPivotAtMost (exactElimination.tolerance * smallEntry.maxAbs)) ∧
      ¬ (smallEntry.scale (10 ^ 13)).FoundSingular exactElimination := by
  refine ⟨rfl, by decide +kernel, rfl, rfl, ?_, by decide +kernel, ?_⟩
  · exact (DenseMatrix.foundSingular_iff rfl rfl).2 (by decide +kernel)
  · rw [DenseMatrix.foundSingular_iff rfl rfl]
    decide +kernel

end GraphTensor
