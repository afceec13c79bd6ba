import GraphTensor.Proofs.Solve.Sizes
import Mathlib.Algebra.Order.Field.Basic
import Mathlib.Data.List.GetD
import Mathlib.GroupTheory.Perm.Fin
import Mathlib.LinearAlgebra.Matrix.Block
set_option autoImplicit false

/-! # Elimination as a decomposition

The steps of an elimination are the columns of a lower triangular factor and the rows of an upper
triangular one (`PivotedFactors.ofSteps`), whose product is the matrix with its rows in the order in
which they came to the top. The pivots stand on the diagonal of the upper factor. Since each pivot
has the largest magnitude in what remains of its column, no entry of the lower factor exceeds one.
`PivotedFactors.Decomposes` says all of this, and one step before a decomposition of what the step
leaves makes another decomposition (`PivotedFactors.Decomposes.extend`), entry by entry of the
product.

A positive multiple of a matrix has the same order and the same lower factor, and that multiple of
the upper one (`PivotedFactors.scale`), because neither the place of the largest magnitude nor the
quotients change. -/

namespace GraphTensor

variable {K : Type} [Field K]

/-! ## Triangular factors -/

/-- Two factors of a square matrix and an order of its rows. -/
structure PivotedFactors (n : Nat) (K : Type) where
  /-- The row of the matrix that each row of the product is. -/
  order : Equiv.Perm (Fin n)
  /-- The left factor. -/
  lower : Matrix (Fin n) (Fin n) K
  /-- The right factor. -/
  upper : Matrix (Fin n) (Fin n) K

namespace PivotedFactors

/-- The factors decompose a matrix with partial pivoting: they are triangular, the left one has ones
    on its diagonal and nothing larger below, and their product is the matrix with its rows in
    order. -/
structure Decomposes [LinearOrder K] {n : Nat} (f : PivotedFactors n K)
    (a : Matrix (Fin n) (Fin n) K) : Prop where
  /-- The left factor is zero above the diagonal. -/
  lower_triangular : f.lower.IsLowerTriangular
  /-- Each of its diagonal entries is one. -/
  lower_diagonal : ∀ i, f.lower i i = 1
  /-- None of its entries exceeds one, as each pivot is the largest in its column. -/
  lower_le_one : ∀ i j, |f.lower i j| ≤ 1
  /-- The right factor is zero below the diagonal. -/
  upper_triangular : f.upper.IsUpperTriangular
  /-- The product is the matrix with its rows in order. -/
  product : a.submatrix f.order id = f.lower * f.upper

/-- The factors with a step of elimination before them. -/
def extend {n : Nat} (f : PivotedFactors n K) (step : PivotStep K) : PivotedFactors (n + 1) K where
  order := Equiv.Perm.decomposeFin.symm (Fin.ofNat (n + 1) step.pivot, f.order)
  lower := Matrix.of <| Matrix.vecCons (Matrix.vecCons 1 0) fun i =>
    Matrix.vecCons (step.lower.getD (f.order i) 0) (f.lower i)
  upper := Matrix.of <| Matrix.vecCons (Matrix.vecCons step.diagonal fun j => step.upper.getD j 0)
    fun i => Matrix.vecCons 0 (f.upper i)

/-- The factors that the steps of an elimination amount to. -/
def ofSteps : (n : Nat) → List (PivotStep K) → PivotedFactors n K
  | 0, _ => ⟨1, 1, 0⟩
  | _ + 1, [] => ⟨1, 1, 0⟩
  | n + 1, step :: rest => (ofSteps n rest).extend step

theorem upper_ofSteps_self {n : Nat} {steps : List (PivotStep K)} (h : steps.length = n)
    (i : Fin n) : (ofSteps n steps).upper i i = (steps.get (Fin.cast h.symm i)).diagonal := by
  induction n generalizing steps with
  | zero => exact i.elim0
  | succ n ih =>
      obtain ⟨step, rest, rfl⟩ := List.exists_cons_of_length_eq_add_one h
      cases i using Fin.cases with
      | zero => rfl
      | succ i => exact ih (Nat.succ.inj h) i

section

variable {n : Nat} (f : PivotedFactors n K) (step : PivotStep K)

theorem mul_extend_zero (j : Fin (n + 1)) :
    ((f.extend step).lower * (f.extend step).upper) 0 j = (f.extend step).upper 0 j := by
  have hzero : ∑ k : Fin n, (f.extend step).lower 0 k.succ * (f.extend step).upper k.succ j = 0 :=
    Finset.sum_eq_zero fun k _ => zero_mul _
  rw [Matrix.mul_apply, Fin.sum_univ_succ, hzero, add_zero]
  exact one_mul _

theorem mul_extend_succ_zero (i : Fin n) :
    ((f.extend step).lower * (f.extend step).upper) i.succ 0 =
      step.lower.getD (f.order i) 0 * step.diagonal := by
  have hzero : ∑ k : Fin n,
      (f.extend step).lower i.succ k.succ * (f.extend step).upper k.succ 0 = 0 :=
    Finset.sum_eq_zero fun k _ => mul_zero _
  rw [Matrix.mul_apply, Fin.sum_univ_succ, hzero, add_zero]
  rfl

theorem mul_extend_succ_succ (i j : Fin n) :
    ((f.extend step).lower * (f.extend step).upper) i.succ j.succ =
      step.lower.getD (f.order i) 0 * step.upper.getD j 0 + (f.lower * f.upper) i j := by
  rw [Matrix.mul_apply, Fin.sum_univ_succ]
  rfl

end

/-- A step before a decomposition of what it leaves, if it takes the pivot row to the top and
    subtracts multiples of it from the rows below. -/
theorem Decomposes.extend [LinearOrder K] [IsStrictOrderedRing K] {n : Nat}
    {f : PivotedFactors n K} {step : PivotStep K} {rest : Matrix (Fin n) (Fin n) K}
    {a b : Matrix (Fin (n + 1)) (Fin (n + 1)) K} (h : f.Decomposes rest)
    (hexchange : b = a.submatrix (Equiv.swap 0 (Fin.ofNat (n + 1) step.pivot)) id)
    (hdiagonal : b 0 0 = step.diagonal)
    (hupper : ∀ j : Fin n, b 0 j.succ = step.upper.getD j 0)
    (hlower : ∀ i : Fin n, b i.succ 0 = step.lower.getD i 0 * step.diagonal)
    (hle : ∀ i : Fin n, |step.lower.getD i 0| ≤ 1)
    (hrest : ∀ i j : Fin n,
      b i.succ j.succ = rest i j + step.lower.getD i 0 * step.upper.getD j 0) :
    (f.extend step).Decomposes a where
  lower_triangular i j hij := by
    cases i using Fin.cases with
    | zero =>
        cases j using Fin.cases with
        | zero => exact absurd hij (lt_irrefl _)
        | succ j => rfl
    | succ i =>
        cases j using Fin.cases with
        | zero => exact absurd hij (Fin.not_lt_zero _)
        | succ j => exact h.lower_triangular (Fin.succ_lt_succ_iff.1 hij)
  lower_diagonal i := by
    cases i using Fin.cases with
    | zero => rfl
    | succ i => exact h.lower_diagonal i
  lower_le_one i j := by
    cases i using Fin.cases with
    | zero =>
        cases j using Fin.cases with
        | zero => exact abs_one.le
        | succ j => exact abs_zero.trans_le zero_le_one
    | succ i =>
        cases j using Fin.cases with
        | zero => exact hle (f.order i)
        | succ j => exact h.lower_le_one i j
  upper_triangular i j hij := by
    cases i using Fin.cases with
    | zero => exact absurd hij (Fin.not_lt_zero _)
    | succ i =>
        cases j using Fin.cases with
        | zero => rfl
        | succ j => exact h.upper_triangular (Fin.succ_lt_succ_iff.1 hij)
  product := by
    have hplace : ∀ i j, a (Equiv.swap 0 (Fin.ofNat (n + 1) step.pivot) i) j = b i j := by
      rw [hexchange]
      exact fun _ _ => rfl
    ext i j
    rw [Matrix.submatrix_apply, id_eq]
    cases i using Fin.cases with
    | zero =>
        have htop : a ((f.extend step).order 0) j = b 0 j := by
          rw [← hplace, Equiv.swap_apply_left]
          exact congrArg (a · j) (Equiv.Perm.decomposeFin_symm_apply_zero ..)
        rw [htop, mul_extend_zero]
        cases j using Fin.cases with
        | zero => exact hdiagonal
        | succ j => exact hupper j
    | succ i =>
        have hrow : a ((f.extend step).order i.succ) j = b (f.order i).succ j := by
          rw [← hplace]
          exact congrArg (a · j) (Equiv.Perm.decomposeFin_symm_apply_succ ..)
        rw [hrow]
        cases j using Fin.cases with
        | zero => rw [hlower, mul_extend_succ_zero]
        | succ j => rw [hrest, mul_extend_succ_succ, ← h.product, add_comm]; rfl

end PivotedFactors

/-! ## Multiples of factors -/

/-- A step for a multiple of the matrix. -/
def PivotStep.scale (c : K) (step : PivotStep K) : PivotStep K :=
  { step with diagonal := c * step.diagonal, upper := step.upper.map (c * ·) }

/-- The factors of a multiple of the matrix. -/
def PivotedFactors.scale {n : Nat} (c : K) (f : PivotedFactors n K) : PivotedFactors n K :=
  { f with upper := c • f.upper }

theorem PivotedFactors.ofSteps_scale (c : K) (n : Nat) (steps : List (PivotStep K)) :
    ofSteps n (steps.map (PivotStep.scale c)) = (ofSteps n steps).scale c := by
  induction n generalizing steps with
  | zero => exact congrArg (mk 1 1) (smul_zero c).symm
  | succ n ih =>
      cases steps with
      | nil => exact congrArg (mk 1 1) (smul_zero c).symm
      | cons step rest =>
          rw [List.map_cons, ofSteps, ih, ofSteps]
          refine congrArg (mk _ _) (Matrix.ext fun i j => ?_)
          cases i using Fin.cases with
          | zero =>
              cases j using Fin.cases with
              | zero => rfl
              | succ j =>
                  show (step.upper.map (c * ·)).getD j 0 = c * step.upper.getD j 0
                  rw [← mul_zero c, List.getD_map, mul_zero]
          | succ i =>
              cases j using Fin.cases with
              | zero => exact (mul_zero c).symm
              | succ j => rfl

/-! ## The rows of a step -/

/-- The square matrix with the given rows. -/
def ofRows (n : Nat) (rows : List (List K)) : Matrix (Fin n) (Fin n) K :=
  Matrix.of fun i j => (rows.getD i []).getD j 0

theorem ofRows_exchange {n k : Nat} {rows : List (List K)} (hrows : rows.length = n + 1)
    (hk : k < n + 1) :
    ofRows (n + 1) (exchange rows k) =
      (ofRows (n + 1) rows).submatrix (Equiv.swap 0 (Fin.ofNat (n + 1) k)) id := by
  ext i j
  have hplace : ((Equiv.swap 0 (Fin.ofNat (n + 1) k) i : Fin (n + 1)) : Nat) =
      if (i : Nat) = 0 then k else if (i : Nat) = k then 0 else i := by
    rw [Equiv.swap_apply_def]
    simp only [Fin.ext_iff, Fin.val_zero, Fin.val_ofNat, Nat.mod_eq_of_lt hk]
    split_ifs <;> simp [Nat.mod_eq_of_lt hk]
  simp only [ofRows, Matrix.of_apply, Matrix.submatrix_apply, id_eq, hplace,
    List.getD_eq_getElem?_getD, getElem?_exchange (hrows.symm ▸ hk)]

variable [LinearOrder K]

theorem heads_scale (c : K) (rows : List (List K)) :
    heads (rows.map (List.map (c * ·))) = (heads rows).map (c * ·) := by
  rw [heads, heads, List.map_map, List.map_map]
  refine List.map_congr_left fun row _ => ?_
  cases row with
  | nil => exact (mul_zero c).symm
  | cons x xs => rfl

theorem Pivoted.length_of_mem_clearColumn {n : Nat} {rows below : List (List K)} {diagonal : K}
    {upper : List K} (h : Pivoted n rows diagonal upper below) :
    ∀ row ∈ (clearColumn diagonal upper below).2, row.length = n := by
  by_cases hdiagonal : diagonal = 0
  · rw [hdiagonal, clearColumn_zero]
    intro row hrow
    obtain ⟨old, hold, rfl⟩ := List.mem_map.1 hrow
    rw [List.length_tail, h.row_length old hold, Nat.add_sub_cancel]
  · rw [clearColumn_eq hdiagonal]
    exact length_of_mem_cleared h.upper_length h.row_length

variable [IsStrictOrderedRing K]

/-- Each row below the pivot row is a multiple of that row and what is left once its first entry is
    cleared. No multiple exceeds one, and where the pivot is zero there is nothing to clear. -/
theorem Pivoted.clearColumn_spec {n : Nat} {rows below : List (List K)} {diagonal : K}
    {upper : List K} (h : Pivoted n rows diagonal upper below) (i : Fin n) :
    let l := (clearColumn diagonal upper below).1.getD i 0
    let rest := (clearColumn diagonal upper below).2.getD i []
    |l| ≤ 1 ∧ (below.getD i []).getD 0 0 = l * diagonal ∧
      ∀ j : Fin n, (below.getD i []).getD (j + 1) 0 = rest.getD j 0 + l * upper.getD j 0 := by
  have hi : (i : Nat) < below.length := h.below_length.symm ▸ i.isLt
  have hmem := List.getElem_mem hi
  obtain ⟨head, tail, hrow⟩ := List.exists_cons_of_length_eq_add_one (h.row_length _ hmem)
  have htail : tail.length = n := by
    have hlength := h.row_length _ hmem
    rw [hrow] at hlength
    exact Nat.succ.inj hlength
  have hhead := h.head_le _ hmem
  rw [hrow] at hhead
  rw [List.getD_eq_getElem _ _ hi, hrow]
  by_cases hdiagonal : diagonal = 0
  · subst hdiagonal
    obtain rfl : head = 0 := abs_nonpos_iff.1 (hhead.trans_eq abs_zero)
    simp [clearColumn_zero, heads, hi, hrow]
  · have hl : (multiples diagonal below).getD i 0 = head * (1 / diagonal) := by
      simp [multiples, heads, hi, hrow]
    have hrest : (cleared diagonal upper below).getD i [] =
        tail.zipWith (fun x u => -u * (head * (1 / diagonal)) + x) upper := by
      simp [cleared, multiples, heads, hi, hrow]
    rw [clearColumn_eq hdiagonal]
    dsimp only
    rw [hl, hrest]
    refine ⟨?_, ?_, fun j => ?_⟩
    · rw [mul_one_div, abs_div]
      exact div_le_one_of_le₀ hhead (abs_nonneg _)
    · rw [mul_assoc, one_div_mul_cancel hdiagonal, mul_one]
      rfl
    · have hj : (j : Nat) < tail.length := htail.symm ▸ j.isLt
      have hju : (j : Nat) < upper.length := h.upper_length.symm ▸ j.isLt
      rw [List.getD_cons_succ, List.getD_eq_getElem _ _ hj, List.getD_eq_getElem _ _ hju,
        List.getD_eq_getElem _ _ (by simp [hj, hju]), List.getElem_zipWith]
      ring

/-! ## All columns -/

/-- **Elimination decomposes**: the factors that its steps amount to are triangular factors of the
    matrix, with its rows in order and no entry of the left factor above one. -/
theorem decomposes_ofSteps_eliminate {n : Nat} {rows : List (List K)} (hrows : rows.length = n)
    (hcols : ∀ row ∈ rows, row.length = n) :
    (PivotedFactors.ofSteps n (eliminate n rows)).Decomposes (ofRows n rows) := by
  induction n generalizing rows with
  | zero => exact ⟨nofun, nofun, nofun, nofun, Matrix.ext nofun⟩
  | succ n ih =>
      obtain ⟨diagonal, upper, below, hpivoted⟩ := exists_pivoted hrows hcols
      have hrest := ih ((length_clearColumn diagonal upper below).trans hpivoted.below_length)
        hpivoted.length_of_mem_clearColumn
      have hexchange := ofRows_exchange hrows hpivoted.place
      rw [hpivoted.exchanged] at hexchange
      rw [eliminate_of_exchange hpivoted.exchanged]
      exact hrest.extend hexchange rfl (fun j => rfl) (fun i => (hpivoted.clearColumn_spec i).2.1)
        (fun i => (hpivoted.clearColumn_spec i).1) fun i => (hpivoted.clearColumn_spec i).2.2

/-! ## Multiples -/

theorem Scalar.abs_scale {c : K} (hc : 0 < c) (x : K) :
    Scalar.abs (c * x) = c * Scalar.abs x := by
  change |c * x| = c * |x|
  rw [abs_mul, abs_of_pos hc]

theorem largestFrom_scale {c : K} (hc : 0 < c) (best : K) (bestPlace place : Nat) (xs : List K) :
    largestFrom (c * best) bestPlace place (xs.map (c * ·)) =
      largestFrom best bestPlace place xs := by
  induction xs generalizing best bestPlace place with
  | nil => rfl
  | cons x rest ih =>
      have hless : Scalar.less (c * best) (c * Scalar.abs x) = Scalar.less best (Scalar.abs x) :=
        decide_eq_decide.2 (mul_lt_mul_iff_right₀ hc)
      rw [List.map_cons, largestFrom, largestFrom, Scalar.abs_scale hc, hless, ih, ih]

/-- A positive multiple of a list has its largest magnitude at the same place. -/
theorem largest_scale {c : K} (hc : 0 < c) (xs : List K) :
    largest (xs.map (c * ·)) = largest xs := by
  cases xs with
  | nil => rfl
  | cons x rest =>
      rw [List.map_cons, largest, largest, Scalar.abs_scale hc, largestFrom_scale hc]

/-- A multiple of the column is cleared by the same multiples of the pivot row. -/
theorem Pivoted.clearColumn_scale {c : K} (hc : c ≠ 0) {n : Nat} {rows below : List (List K)}
    {diagonal : K} {upper : List K} (h : Pivoted n rows diagonal upper below) :
    clearColumn (c * diagonal) (upper.map (c * ·)) (below.map (List.map (c * ·))) =
      ((clearColumn diagonal upper below).1,
        (clearColumn diagonal upper below).2.map (List.map (c * ·))) := by
  by_cases hdiagonal : diagonal = 0
  · subst hdiagonal
    -- nothing exceeds a zero pivot, so that there are only zeros to multiply
    have hheads : (heads below).map (c * ·) = heads below := by
      refine (List.map_congr_left fun x hx => ?_).trans (List.map_id _)
      obtain ⟨row, hrow, rfl⟩ := List.mem_map.1 hx
      rw [abs_nonpos_iff.1 ((h.head_le row hrow).trans_eq abs_zero)]
      exact mul_zero c
    rw [mul_zero, clearColumn_zero, clearColumn_zero, heads_scale, hheads, List.map_map,
      List.map_map]
    exact congrArg (Prod.mk _) (List.map_congr_left fun row _ => List.map_tail.symm)
  · rw [clearColumn_eq hdiagonal, clearColumn_eq (mul_ne_zero hc hdiagonal)]
    have hmultiples : multiples (c * diagonal) (below.map (List.map (c * ·))) =
        multiples diagonal below := by
      rw [multiples, multiples, heads_scale, List.map_map]
      refine List.map_congr_left fun x _ => ?_
      show c * x * (1 / (c * diagonal)) = x * (1 / diagonal)
      rw [mul_one_div, mul_one_div, mul_div_mul_left _ _ hc]
    rw [hmultiples, cleared, cleared, hmultiples, List.zipWith_map_left, List.map_zipWith]
    refine congrArg (Prod.mk _) (congrArg (List.zipWith · below _) (funext₂ fun row l => ?_))
    rw [← List.map_tail, List.zipWith_map, List.map_zipWith]
    refine congrArg (List.zipWith · row.tail upper) (funext₂ fun x u => ?_)
    ring

/-- **Elimination is homogeneous**: a positive multiple of a matrix has the same steps, with that
    multiple of their pivot rows. -/
theorem eliminate_scale {c : K} (hc : 0 < c) {n : Nat} {rows : List (List K)}
    (hrows : rows.length = n) (hcols : ∀ row ∈ rows, row.length = n) :
    eliminate n (rows.map (List.map (c * ·))) = (eliminate n rows).map (PivotStep.scale c) := by
  induction n generalizing rows with
  | zero => rfl
  | succ n ih =>
      obtain ⟨diagonal, upper, below, hpivoted⟩ := exists_pivoted hrows hcols
      have hrest := ih ((length_clearColumn diagonal upper below).trans hpivoted.below_length)
        hpivoted.length_of_mem_clearColumn
      have hexchange : exchange (rows.map (List.map (c * ·)))
          (largest (heads (rows.map (List.map (c * ·))))) =
          (c * diagonal :: upper.map (c * ·)) :: below.map (List.map (c * ·)) := by
        rw [heads_scale, largest_scale hc, exchange_map, hpivoted.exchanged]
        rfl
      rw [eliminate_of_exchange hexchange, eliminate_of_exchange hpivoted.exchanged,
        hpivoted.clearColumn_scale hc.ne', hrest, heads_scale, largest_scale hc]
      rfl

end GraphTensor
