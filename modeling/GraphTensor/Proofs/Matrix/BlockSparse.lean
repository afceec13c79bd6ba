import GraphTensor.Matrix.BlockSparse
import GraphTensor.Proofs.Matrix.Dense
import GraphTensor.Proofs.Pattern.Coordinates
import Mathlib.Algebra.BigOperators.Group.Finset.Basic
set_option autoImplicit false

/-! # Expanded block matrices

An expanded matrix (`BlockMatrix.toDense?`) has, at a place inside a stored block, the number of the
block at that place, and zeros elsewhere (`BlockMatrix.entry`). Each block is added number by
number, and since a valid pattern stores no place twice, at most one number meets each entry.

Additions are followed through the folds by `DenseMatrix.Adds`: one matrix comes from another one by
adding, at each entry, the sum of a function over what has been added so far. In the end that sum
has one summand, and the grid of blocks says which (`sum_block_eq`). -/

namespace GraphTensor

variable {K : Type} [Field K] [LinearOrder K]

/-! ## Additions to a matrix -/

namespace DenseMatrix

/-- The data fill the matrix. -/
def Full (m : DenseMatrix K) : Prop :=
  m.data.size = m.rows * m.cols

theorem place_inj {cols i j i' j' : Nat} (hj : j < cols) (hj' : j' < cols)
    (h : i * cols + j = i' * cols + j') : i = i' ∧ j = j' := by
  have hrow : i = i' := by rw [← place_div (i := i) hj, h, place_div hj']
  subst hrow
  exact ⟨rfl, Nat.add_left_cancel h⟩

/-- A matrix comes from another one by additions at its entries. -/
structure Adds (m m' : DenseMatrix K) (g : Nat → Nat → K) : Prop where
  /-- The size stays. -/
  rows : m'.rows = m.rows
  /-- The size stays. -/
  cols : m'.cols = m.cols
  /-- The data fill the matrix. -/
  full : m'.Full
  /-- What is added. -/
  get : ∀ i j, m'.get i j = m.get i j + g i j

theorem adds_add {m : DenseMatrix K} (hm : m.Full) {i j : Nat} (hi : i < m.rows) (hj : j < m.cols)
    (x : K) : m.Adds (m.add i j x) fun i' j' => if i' = i ∧ j' = j then x else 0 where
  rows := rfl
  cols := rfl
  full := by
    unfold Full add
    rw [Array.size_modify]
    exact hm
  get := fun i' j' => by
    by_cases hin : i' < m.rows ∧ j' < m.cols
    · have hplace : i' * m.cols + j' < m.data.size := by
        rw [hm]
        exact place_lt hin.1 hin.2
      by_cases hat : i' = i ∧ j' = j
      · obtain ⟨rfl, rfl⟩ := hat
        simp [get, add, hin, hplace, Array.getElem_modify]
      · have hapart : i * m.cols + j ≠ i' * m.cols + j' :=
          fun h => hat ((place_inj hj hin.2 h).imp Eq.symm Eq.symm)
        simp [get, add, hin, hplace, Array.getElem_modify, hat, hapart]
    · have hat : ¬ (i' = i ∧ j' = j) := by
        rintro ⟨rfl, rfl⟩
        exact hin ⟨hi, hj⟩
      rw [get_of_not_lt hin, if_neg hat, add_zero]
      exact get_of_not_lt (m := m.add i j x) hin

theorem adds_foldl {ι : Type} {f : DenseMatrix K → ι → DenseMatrix K} {g : ι → Nat → Nat → K}
    {l : List ι} {rows cols : Nat}
    (hf : ∀ m : DenseMatrix K, m.Full → m.rows = rows → m.cols = cols → ∀ x ∈ l,
      m.Adds (f m x) (g x)) {m : DenseMatrix K} (hm : m.Full) (hrows : m.rows = rows)
    (hcols : m.cols = cols) :
    m.Adds (l.foldl f m) fun i j => (l.map fun x => g x i j).sum := by
  induction l generalizing m with
  | nil => exact ⟨rfl, rfl, hm, fun i j => by simp⟩
  | cons x xs ih =>
      have hx := hf m hm hrows hcols x (List.mem_cons_self ..)
      have hxs := ih (fun m hm hrows hcols y hy => hf m hm hrows hcols y
        (List.mem_cons_of_mem _ hy)) hx.full (hx.rows.trans hrows) (hx.cols.trans hcols)
      refine ⟨hxs.rows.trans hx.rows, hxs.cols.trans hx.cols, hxs.full, fun i j => ?_⟩
      rw [List.foldl_cons, hxs.get, hx.get, List.map_cons, List.sum_cons, add_assoc]

end DenseMatrix

omit [LinearOrder K] in
theorem sum_map_eq_of_unique {ι : Type} {xs : List ι} {x : ι} {g : ι → K} (hnodup : xs.Nodup)
    (hx : x ∈ xs) (h : ∀ y ∈ xs, y ≠ x → g y = 0) : (xs.map g).sum = g x := by
  have hzero : ∀ ys : List ι, (∀ y ∈ ys, g y = 0) → (ys.map g).sum = 0 := fun ys hys =>
    List.sum_eq_zero (List.forall_mem_map.2 hys)
  obtain ⟨earlier, later, rfl⟩ := List.append_of_mem hx
  obtain ⟨_, hlater, hapart⟩ := List.nodup_append.1 hnodup
  have hbefore := hzero earlier fun y hy =>
    h y (List.mem_append_left _ hy) (hapart y hy x (List.mem_cons_self ..))
  have hafter := hzero later fun y hy =>
    h y (List.mem_append_right _ (List.mem_cons_of_mem _ hy))
      fun heq => (List.nodup_cons.1 hlater).1 (heq ▸ hy)
  rw [List.map_append, List.sum_append, List.map_cons, List.sum_cons, hbefore, hafter, zero_add,
    add_zero]

omit [LinearOrder K] in
/-- In a grid of blocks only one number of one block stands at a place. -/
theorem sum_block_eq {rows cols : Nat} (f : Nat → Nat → K) {i j i' j' : Nat} (hrows : 0 < rows)
    (hcols : 0 < cols) :
    ((List.range rows).map fun a => ((List.range cols).map fun b =>
        if i' = i * rows + a ∧ j' = j * cols + b then f a b else 0).sum).sum =
      if i' / rows = i ∧ j' / cols = j then f (i' % rows) (j' % cols) else 0 := by
  split
  · next hat =>
      obtain ⟨rfl, rfl⟩ := hat
      have hi : i' % rows ∈ List.range rows := List.mem_range.2 (Nat.mod_lt _ hrows)
      have hj : j' % cols ∈ List.range cols := List.mem_range.2 (Nat.mod_lt _ hcols)
      rw [sum_map_eq_of_unique List.nodup_range hi fun a ha hne => ?_,
        sum_map_eq_of_unique List.nodup_range hj fun b hb hne => ?_]
      · exact if_pos ⟨(Nat.div_add_mod' i' rows).symm, (Nat.div_add_mod' j' cols).symm⟩
      · refine if_neg fun h => hne ?_
        rw [h.2, DenseMatrix.place_mod (List.mem_range.1 hb)]
      · refine List.sum_eq_zero (List.forall_mem_map.2 fun b _ => if_neg fun h => hne ?_)
        rw [h.1, DenseMatrix.place_mod (List.mem_range.1 ha)]
  · next hapart =>
      refine List.sum_eq_zero (List.forall_mem_map.2 fun a ha => List.sum_eq_zero
        (List.forall_mem_map.2 fun b hb => if_neg fun h => hapart ?_))
      rw [h.1, h.2, DenseMatrix.place_div (List.mem_range.1 ha),
        DenseMatrix.place_div (List.mem_range.1 hb)]
      exact ⟨rfl, rfl⟩

/-! ## Expansion -/

namespace BlockMatrix

variable {m : BlockMatrix K}

theorem adds_addBlock {dense : DenseMatrix K} {entry : Nat × Nat × Nat} (hfull : dense.Full)
    (hrows : dense.rows = m.pattern.rows * m.block.rows)
    (hcols : dense.cols = m.pattern.cols * m.block.cols) (hrow : entry.1 < m.pattern.rows)
    (hcol : entry.2.1 < m.pattern.cols) :
    dense.Adds (m.addBlock dense entry) fun i j =>
      ((List.range m.block.rows).map fun a => ((List.range m.block.cols).map fun b =>
        if i = entry.1 * m.block.rows + a ∧ j = entry.2.1 * m.block.cols + b then
          m.values.getD (entry.2.2 * m.block.length + a * m.block.cols + b) 0 else 0).sum).sum := by
  obtain ⟨row, col, position⟩ := entry
  refine DenseMatrix.adds_foldl (fun d hd hdrows hdcols a ha => ?_) hfull hrows hcols
  refine DenseMatrix.adds_foldl (fun d hd hdrows hdcols b hb => ?_) hd hdrows hdcols
  refine DenseMatrix.adds_add hd ?_ ?_ _
  · rw [hdrows]
    exact DenseMatrix.place_lt hrow (List.mem_range.1 ha)
  · rw [hdcols]
    exact DenseMatrix.place_lt hcol (List.mem_range.1 hb)

/-- The blocks of all entries, added onto a matrix of zeros. -/
theorem adds_entries (hvalid : m.pattern.Valid) {rows cols : Nat}
    (hrows : rows = m.pattern.rows * m.block.rows) (hcols : cols = m.pattern.cols * m.block.cols) :
    (DenseMatrix.zeros rows cols).Adds
      (m.pattern.entries.foldl m.addBlock (DenseMatrix.zeros rows cols)) fun i j =>
        (m.pattern.entries.map fun entry =>
          ((List.range m.block.rows).map fun a => ((List.range m.block.cols).map fun b =>
            if i = entry.1 * m.block.rows + a ∧ j = entry.2.1 * m.block.cols + b then
              m.values.getD (entry.2.2 * m.block.length + a * m.block.cols + b) 0 else 0).sum).sum).sum := by
  have hfull : (DenseMatrix.zeros rows cols : DenseMatrix K).Full := Array.size_replicate
  exact DenseMatrix.adds_foldl (f := m.addBlock) (l := m.pattern.entries)
    (fun d hd hdrows hdcols e he => adds_addBlock hd (hdrows.trans hrows) (hdcols.trans hcols)
      (Pattern.row_lt he) (hvalid.col_lt he)) hfull rfl rfl

/-- The number of a block matrix at a place of the expanded one. -/
def entry (m : BlockMatrix K) (i j : Nat) : K :=
  match m.pattern.locate .linear (i / m.block.rows) (j / m.block.cols) with
  | some position => m.values.getD
      (position * m.block.length + i % m.block.rows * m.block.cols + j % m.block.cols) 0
  | none => 0

/-- **The expanded matrix** has the numbers of the blocks at their places, and zeros elsewhere. -/
theorem toDense?_spec {dense : DenseMatrix K} (hvalid : m.pattern.Valid)
    (h : m.toDense? = some dense) :
    dense.rows = m.pattern.rows * m.block.rows ∧ dense.cols = m.pattern.cols * m.block.cols ∧
      ∀ i < dense.rows, ∀ j < dense.cols, dense.get i j = m.entry i j := by
  obtain ⟨rows, hrows, h⟩ := Option.bind_eq_some_iff.1 h
  obtain ⟨cols, hcols, h⟩ := Option.bind_eq_some_iff.1 h
  obtain ⟨_, _, h⟩ := Option.bind_eq_some_iff.1 h
  obtain rfl := Option.some.inj h
  have hrows : rows = m.pattern.rows * m.block.rows := (Word.ofNat?_eq_some_iff.1 hrows).2.symm
  have hcols : cols = m.pattern.cols * m.block.cols := (Word.ofNat?_eq_some_iff.1 hcols).2.symm
  have hadds := adds_entries hvalid hrows hcols
  refine ⟨hadds.rows.trans hrows, hadds.cols.trans hcols, fun i hi j hj => ?_⟩
  rw [hadds.rows] at hi
  rw [hadds.cols] at hj
  have hblockRows : 0 < m.block.rows := Nat.pos_of_mul_pos_left (hrows ▸ Nat.zero_lt_of_lt hi)
  have hblockCols : 0 < m.block.cols := Nat.pos_of_mul_pos_left (hcols ▸ Nat.zero_lt_of_lt hj)
  rw [hadds.get, DenseMatrix.get_zeros, zero_add]
  simp only [sum_block_eq _ hblockRows hblockCols]
  unfold entry
  split
  · next position hposition =>
      have hmem := (hvalid.locate_eq_some_iff .linear).1 hposition
      refine (sum_map_eq_of_unique hvalid.nodup_entries hmem fun e he hne => ?_).trans
        (if_pos ⟨rfl, rfl⟩)
      refine if_neg fun hat => hne ?_
      obtain ⟨row, col, position'⟩ := e
      obtain ⟨hrow, hcol⟩ := hat
      dsimp only at hrow hcol
      subst hrow hcol
      rw [hvalid.position_of_place he hmem]
  · next hnone =>
      refine List.sum_eq_zero (List.forall_mem_map.2 fun e he => if_neg fun hat => ?_)
      refine (hvalid.locate_eq_none_iff .linear).1 hnone (Pattern.mem_coordinates_iff.2 ?_)
      obtain ⟨row, col, position⟩ := e
      obtain ⟨hrow, hcol⟩ := hat
      dsimp only at hrow hcol
      subst hrow hcol
      exact ⟨position, he⟩

end BlockMatrix

end GraphTensor
