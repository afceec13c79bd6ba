import GraphTensor.Matrix.Dense
import GraphTensor.Proofs.Scalar
import Mathlib.Algebra.BigOperators.Group.Finset.Sigma
import Mathlib.Algebra.BigOperators.Ring.Finset
set_option autoImplicit false

/-! # Entries of dense matrices

The numbers of a `DenseMatrix` stand row after row, and their places are quotients and remainders by
the number of columns. What an operation makes of them is said here of its entries
(`DenseMatrix.get`), which are zero outside of the matrix, so that most equations need no bounds;
matrices whose data fill them are told by their entries (`DenseMatrix.ext_get`).

A sum from the left is a sum in whatever order where numbers are exact (`Scalar.sum_eq_sum`), which
turns products into sums over ranges. -/

namespace GraphTensor

/-! ## Sums -/

namespace Scalar

variable {K : Type} [Field K] [LinearOrder K]

theorem sum_eq_sum (xs : List K) : Scalar.sum xs = xs.sum :=
  List.sum_eq_foldl.symm

theorem sum_map_range (n : Nat) (f : Nat → K) :
    Scalar.sum ((List.range n).map f) = ∑ k ∈ Finset.range n, f k := by
  rw [sum_eq_sum]
  induction n with
  | zero => rfl
  | succ n ih => simp [List.range_succ, Finset.sum_range_succ, ih]

end Scalar

/-! ## Vectors -/

section

variable {α : Type} [Scalar α]

/-- Vectors of one size with the same components are the same. -/
theorem ext_getD {x y : Array α} (hsize : x.size = y.size)
    (h : ∀ i, x.getD i 0 = y.getD i 0) : x = y := by
  refine Array.ext hsize fun i hx hy => ?_
  have hi := h i
  rwa [Array.getD_eq_getD_getElem?, Array.getD_eq_getD_getElem?, Array.getElem?_eq_getElem hx,
    Array.getElem?_eq_getElem hy] at hi

theorem size_subVec {x y : Array α} (h : y.size = x.size) : (subVec x y).size = x.size := by
  simp [subVec, h]

end

theorem getD_subVec {K : Type} [Field K] [LinearOrder K] {x y : Array K} (h : y.size = x.size)
    (i : Nat) : (subVec x y).getD i 0 = x.getD i 0 - y.getD i 0 := by
  by_cases hi : i < x.size
  · simp [subVec, hi, h]
  · simp [subVec, hi, h]

/-! ## Entries -/

namespace DenseMatrix

variable {α : Type} [Scalar α]

theorem place_lt {rows cols i j : Nat} (hi : i < rows) (hj : j < cols) :
    i * cols + j < rows * cols :=
  calc i * cols + j < i * cols + cols := Nat.add_lt_add_left hj _
    _ = (i + 1) * cols := (Nat.succ_mul i cols).symm
    _ ≤ rows * cols := Nat.mul_le_mul_right cols hi

theorem place_div {cols i j : Nat} (hj : j < cols) : (i * cols + j) / cols = i := by
  rw [Nat.mul_comm, Nat.mul_add_div (Nat.zero_lt_of_lt hj), Nat.div_eq_of_lt hj, Nat.add_zero]

theorem place_mod {cols i j : Nat} (hj : j < cols) : (i * cols + j) % cols = j := by
  rw [Nat.mul_comm, Nat.mul_add_mod, Nat.mod_eq_of_lt hj]

@[simp]
theorem get_ofFn (rows cols : Nat) (f : Nat → Nat → α) (i j : Nat) :
    (ofFn rows cols f).get i j = if i < rows ∧ j < cols then f i j else 0 := by
  by_cases h : i < rows ∧ j < cols
  · have hplace := place_lt h.1 h.2
    simp [get, ofFn, h, hplace, place_div h.2, place_mod h.2]
  · simp [get, ofFn, h]

omit [Scalar α] in
/-- Only the places inside a matrix count. -/
theorem ofFn_congr {rows cols : Nat} {f g : Nat → Nat → α}
    (h : ∀ i < rows, ∀ j < cols, f i j = g i j) : ofFn rows cols f = ofFn rows cols g := by
  have hdata : (Array.range (rows * cols)).map (fun k => f (k / cols) (k % cols)) =
      (Array.range (rows * cols)).map fun k => g (k / cols) (k % cols) := by
    refine Array.map_congr_left fun k hk => ?_
    have hlt : k < cols * rows := Nat.mul_comm rows cols ▸ Array.mem_range.1 hk
    have hcols : 0 < cols := Nat.pos_of_mul_pos_right (Nat.zero_lt_of_lt hlt)
    exact h _ (Nat.div_lt_of_lt_mul hlt) _ (Nat.mod_lt _ hcols)
  rw [ofFn, hdata, ← ofFn]

/-- A selection reads the entries that it selects. -/
theorem select_congr {m m' : DenseMatrix α} {rows cols : List Nat}
    (h : ∀ i ∈ rows, ∀ j ∈ cols, m.get i j = m'.get i j) :
    m.select rows cols = m'.select rows cols := by
  unfold select
  refine ofFn_congr fun i hi j hj => ?_
  have hrow : rows.toArray.getD i 0 ∈ rows := by
    have hi : i < rows.length := by simpa using hi
    simp [hi]
  have hcol : cols.toArray.getD j 0 ∈ cols := by
    have hj : j < cols.length := by simpa using hj
    simp [hj]
  exact h _ hrow _ hcol

/-- Matrices whose data fill them are told by their entries. -/
theorem ext_get {m m' : DenseMatrix α} (hsize : m.data.size = m.rows * m.cols)
    (hsize' : m'.data.size = m'.rows * m'.cols) (hrows : m.rows = m'.rows) (hcols : m.cols = m'.cols)
    (h : ∀ i < m.rows, ∀ j < m.cols, m.get i j = m'.get i j) : m = m' := by
  obtain ⟨rows, cols, data⟩ := m
  obtain ⟨_, _, data'⟩ := m'
  obtain ⟨rfl, rfl⟩ : rows = _ ∧ cols = _ := ⟨hrows, hcols⟩
  have hdata : data = data' := by
    refine Array.ext (hsize.trans hsize'.symm) fun k hk hk' => ?_
    have hplace : k < rows * cols := hsize ▸ hk
    have hpos : 0 < cols := Nat.pos_of_mul_pos_left (Nat.zero_lt_of_lt hplace)
    have hi : k / cols < rows := Nat.div_lt_of_lt_mul (Nat.mul_comm .. ▸ hplace)
    have hj : k % cols < cols := Nat.mod_lt k hpos
    have hsame : k / cols * cols + k % cols = k := Nat.div_add_mod' k cols
    have hentry := h (k / cols) hi (k % cols) hj
    simpa [get, hi, hj, hsame, hk, hk'] using hentry
  rw [hdata]

theorem get_of_not_lt {m : DenseMatrix α} {i j : Nat} (h : ¬ (i < m.rows ∧ j < m.cols)) :
    m.get i j = 0 :=
  if_neg h

@[simp]
theorem get_zeros (rows cols i j : Nat) : (zeros rows cols : DenseMatrix α).get i j = 0 := by
  unfold get
  split
  · simp only [zeros, Array.getD_eq_getD_getElem?, Array.getElem?_replicate]
    split <;> rfl
  · rfl

@[simp]
theorem get_transpose (m : DenseMatrix α) (i j : Nat) : m.transpose.get i j = m.get j i := by
  rw [transpose, get_ofFn]
  split
  · rfl
  · next h => exact (get_of_not_lt fun hji => h ⟨hji.2, hji.1⟩).symm

variable {K : Type} [Field K] [LinearOrder K]

theorem get_mul (a b : DenseMatrix K) (i j : Nat) :
    (a.mul b).get i j = ∑ k ∈ Finset.range a.cols, a.get i k * b.get k j := by
  rw [mul, get_ofFn]
  split
  · exact Scalar.sum_map_range _ _
  · next h =>
      refine (Finset.sum_eq_zero fun k _ => ?_).symm
      by_cases hi : i < a.rows
      · rw [get_of_not_lt (m := b) fun hkj => h ⟨hi, hkj.2⟩]
        exact mul_zero _
      · rw [get_of_not_lt (m := a) fun hik => hi hik.1]
        exact zero_mul _

theorem get_sub {a b : DenseMatrix K} (hrows : b.rows = a.rows) (hcols : b.cols = a.cols)
    (i j : Nat) : (a.sub b).get i j = a.get i j - b.get i j := by
  rw [sub, get_ofFn]
  split
  · rfl
  · next h =>
      rw [get_of_not_lt h, get_of_not_lt (by rwa [hrows, hcols])]
      exact (sub_zero 0).symm

/-! ## Products with vectors -/

/-- The components of a product, zero outside of it. -/
theorem getD_mulVec (m : DenseMatrix K) (x : Array K) (i : Nat) :
    (m.mulVec x).getD i 0 = ∑ k ∈ Finset.range m.cols, m.get i k * x.getD k 0 := by
  by_cases hi : i < m.rows
  · simp [mulVec, hi, Scalar.sum_map_range]
  · rw [Finset.sum_eq_zero fun k _ => by rw [get_of_not_lt fun h => hi h.1]; exact zero_mul _]
    simp [mulVec, hi]

theorem getD_mulVec_eq_sum (m : DenseMatrix K) (x : Array K) (i : Nat) :
    (m.mulVec x).getD i 0 = ((List.range m.cols).map fun k => m.get i k * x.getD k 0).sum := by
  rw [getD_mulVec, ← Scalar.sum_map_range, Scalar.sum_eq_sum]

theorem size_mulVec (m : DenseMatrix α) (x : Array α) : (m.mulVec x).size = m.rows := by
  simp [mulVec]

theorem mulVec_mul (a b : DenseMatrix K) (x : Array K) :
    (a.mul b).mulVec x = a.mulVec (b.mulVec x) := by
  refine ext_getD (by rw [size_mulVec, size_mulVec]; rfl) fun i => ?_
  simp only [getD_mulVec, get_mul, Finset.sum_mul, Finset.mul_sum, mul_assoc]
  exact Finset.sum_comm

theorem mulVec_sub {a b : DenseMatrix K} (hrows : b.rows = a.rows) (hcols : b.cols = a.cols)
    (x : Array K) : (a.sub b).mulVec x = subVec (a.mulVec x) (b.mulVec x) := by
  have hsize : (b.mulVec x).size = (a.mulVec x).size := by
    rw [size_mulVec, size_mulVec, hrows]
  refine ext_getD (by rw [size_subVec hsize, size_mulVec, size_mulVec]; rfl) fun i => ?_
  have hcols' : (a.sub b).cols = a.cols := rfl
  simp only [getD_subVec hsize, getD_mulVec, get_sub hrows hcols, hcols, hcols', sub_mul,
    Finset.sum_sub_distrib]

theorem mulVec_subVec (m : DenseMatrix K) {x y : Array K} (h : y.size = x.size) :
    m.mulVec (subVec x y) = subVec (m.mulVec x) (m.mulVec y) := by
  have hsize : (m.mulVec y).size = (m.mulVec x).size := by
    rw [size_mulVec, size_mulVec]
  refine ext_getD (by rw [size_subVec hsize, size_mulVec, size_mulVec]) fun i => ?_
  simp only [getD_subVec hsize, getD_mulVec, getD_subVec h, mul_sub, Finset.sum_sub_distrib]

end DenseMatrix

end GraphTensor
