import GraphTensor.Proofs.Solve.Direct
import Mathlib.Algebra.Order.Ring.Rat
set_option autoImplicit false

/-! # Eliminating unknowns and pinning rows

Moving the fixed unknowns to the right comes to the same as keeping them and replacing their rows by
rows of the identity, with the given values on the right (`Boundary.pin`, `Boundary.pinRhs`). A
vector solves the pinned system if it has the values of fixed unknowns and satisfies the other rows,
which is what a direct solve has been shown to give.

Only the values of fixed unknowns count, and marks that fix nothing are like no marks at all. Both
are congruences through the stages of a solve: picking, reducing and scattering look at no other
value. -/

namespace GraphTensor

/-! ## Marks -/

namespace Partition

theorem mem_unknownsOf_iff {marker : List Bool} {width k : Nat} {mark : Bool} :
    k ∈ unknownsOf marker width mark ↔ 0 < width ∧ marker[k / width]? = some mark := by
  rw [mem_unknownsOf]
  constructor
  · rintro ⟨element, helement, a, ha, rfl⟩
    have hwidth : 0 < width := Nat.zero_lt_of_lt ha
    refine ⟨hwidth, ?_⟩
    rwa [Nat.mul_comm, Nat.mul_add_div hwidth, Nat.div_eq_of_lt ha, Nat.add_zero]
  · rintro ⟨hwidth, hmark⟩
    exact ⟨k / width, hmark, k % width, Nat.mod_lt _ hwidth, (Nat.div_add_mod' k width).symm⟩

/-- Where nothing is marked no unknown is fixed, and the free ones are all in their order. -/
theorem unknownsFrom_of_unmarked {marker : List Bool} (h : ∀ m ∈ marker, m = false)
    (width start : Nat) :
    unknownsFrom width start marker true = [] ∧
      unknownsFrom width start marker false =
        List.range' (start * width) (marker.length * width) := by
  induction marker generalizing start with
  | nil =>
      rw [List.length_nil, Nat.zero_mul]
      exact ⟨rfl, rfl⟩
  | cons m rest ih =>
      obtain rfl := h m (List.mem_cons_self ..)
      obtain ⟨hfixed, hfree⟩ := ih (fun m hm => h m (List.mem_cons_of_mem _ hm)) (start + 1)
      unfold unknownsFrom at hfixed hfree ⊢
      rw [List.zipIdx_cons, List.flatMap_cons, List.flatMap_cons, hfixed, hfree, List.length_cons,
        Nat.succ_mul, Nat.succ_mul, Nat.add_comm (rest.length * width), ← List.range'_append_1]
      simp [List.range'_eq_map_range]

theorem mem_of_ofMarker? {marker : List Bool} {width k : Nat} {p : Partition}
    (hp : ofMarker? marker width = some p) (hk : k < p.size) :
    (marker.getD (k / width) false = true → k ∈ p.fixed) ∧
      (marker.getD (k / width) false = false → k ∈ p.free) := by
  have hsplits := splits_of_ofMarker? hp
  obtain ⟨_, _, rfl⟩ := Option.map_eq_some_iff.1 hp
  rw [hsplits.size_eq] at hk
  have hwidth : 0 < width := Nat.pos_of_mul_pos_left (Nat.zero_lt_of_lt hk)
  have helement : k / width < marker.length := Nat.div_lt_of_lt_mul (by rwa [Nat.mul_comm])
  rw [List.getD_eq_getElem?_getD, List.getElem?_eq_getElem helement]
  exact ⟨fun h => mem_unknownsOf_iff.2 ⟨hwidth, (List.getElem?_eq_getElem helement).trans
      (congrArg some h)⟩,
    fun h => mem_unknownsOf_iff.2 ⟨hwidth, (List.getElem?_eq_getElem helement).trans
      (congrArg some h)⟩⟩

theorem unknownsOf_of_unmarked {marker : List Bool} (h : ∀ m ∈ marker, m = false) (width : Nat) :
    unknownsOf marker width true = [] ∧
      unknownsOf marker width false = List.range (marker.length * width) := by
  obtain ⟨hfixed, hfree⟩ := unknownsFrom_of_unmarked h width 0
  rw [Nat.zero_mul, ← List.range_eq_range'] at hfree
  exact ⟨hfixed, hfree⟩

/-! ## Values that count -/

variable {α : Type} [Scalar α]

theorem pick_congr {values values' : Array α} {places : List Nat}
    (h : ∀ k ∈ places, values'.getD k 0 = values.getD k 0) :
    pick values' places = pick values places :=
  congrArg List.toArray (List.map_congr_left h)

theorem reduce_congr {p : Partition} (matrix : DenseMatrix α) (rhs : Array α)
    {values values' : Array α} (hsize : values'.size = values.size)
    (h : ∀ k ∈ p.fixed, values'.getD k 0 = values.getD k 0) :
    p.reduce matrix rhs values' = p.reduce matrix rhs values := by
  rw [reduce, reduce, hsize, pick_congr h]

theorem scatter_congr {p : Partition} (freeValues : Array α) {values values' : Array α}
    (hsize : values'.size = values.size)
    (h : ∀ k ∈ p.fixed, values'.getD k 0 = values.getD k 0) :
    p.scatter freeValues values' = p.scatter freeValues values := by
  rw [scatter, scatter, hsize, pick_congr h]

end Partition

/-! ## Pinned rows -/

namespace Boundary

variable {α : Type} [Scalar α]

/-- A boundary fixes an unknown, each element having `width` of them. -/
def fixes (b : Boundary α) (width k : Nat) : Bool :=
  b.marker.getD (k / width) false

/-- A matrix with the rows of the identity in place of those of fixed unknowns. -/
def pin (b : Boundary α) (width : Nat) (m : DenseMatrix α) : DenseMatrix α :=
  DenseMatrix.ofFn m.rows m.cols fun i j =>
    if b.fixes width i then (if j = i then 1 else 0) else m.get i j

/-- A right-hand side with the values of fixed unknowns in their rows. -/
def pinRhs (b : Boundary α) (width : Nat) (rhs : Array α) : Array α :=
  (Array.range rhs.size).map fun k =>
    if b.fixes width k then b.values.getD k 0 else rhs.getD k 0

/-- A vector solves the pinned system if it has the values of fixed unknowns and satisfies the other
    rows. -/
theorem mulVec_pin {K : Type} [Field K] [LinearOrder K] {b : Boundary K} {width : Nat}
    {m : DenseMatrix K} {rhs x : Array K} (hrows : m.rows = rhs.size) (hcols : m.cols = rhs.size)
    (hfixed : ∀ k < rhs.size, b.fixes width k = true → x.getD k 0 = b.values.getD k 0)
    (hfree : ∀ k < rhs.size, b.fixes width k = false →
      (m.mulVec x).getD k 0 = rhs.getD k 0) :
    (b.pin width m).mulVec x = b.pinRhs width rhs := by
  have hsize : (b.pin width m).rows = rhs.size := hrows
  refine Array.ext (by simp [DenseMatrix.mulVec, pinRhs, hsize]) fun k hk hk' => ?_
  have hlt : k < rhs.size := by simpa [pinRhs] using hk'
  have hrow : ((b.pin width m).mulVec x)[k] =
      ∑ j ∈ Finset.range m.cols, (b.pin width m).get k j * x.getD j 0 := by
    simp only [DenseMatrix.mulVec, Array.getElem_map, Array.getElem_range]
    exact Scalar.sum_map_range _ _
  rw [hrow]
  have hentry : ∀ j ∈ Finset.range m.cols, (b.pin width m).get k j =
      if b.fixes width k then (if j = k then 1 else 0) else m.get k j := by
    intro j hj
    rw [pin, DenseMatrix.get_ofFn, if_pos ⟨hrows ▸ hlt, Finset.mem_range.1 hj⟩]
  rw [Finset.sum_congr rfl fun j hj => congrArg (· * x.getD j 0) (hentry j hj)]
  simp only [pinRhs, Array.getElem_map, Array.getElem_range]
  cases hmark : b.fixes width k with
  | true =>
      simp only [if_true, ite_mul, one_mul, zero_mul]
      rw [Finset.sum_ite_eq', if_pos (Finset.mem_range.2 (hcols ▸ hlt))]
      exact hfixed k hlt hmark
  | false =>
      simp only [Bool.false_eq_true, if_false]
      rw [← hfree k hlt hmark, DenseMatrix.getD_mulVec]

end Boundary

/-! ## The values that count -/

namespace BlockMatrix

section

variable {α : Type} [Scalar α]

/-- What is left of a solve once its unknowns are split depends on the values of fixed ones alone. -/
theorem solveDirect_congr {matrix : BlockMatrix α} {rhs : Array α}
    {boundary boundary' : Option (Boundary α)} (config : SolverConfig α)
    (h : matrix.scalarRows? = some rhs.size →
      matrix.boundaryOf rhs.size boundary' = matrix.boundaryOf rhs.size boundary ∨
        ∃ p values values', matrix.boundaryOf rhs.size boundary = .ok (p, values) ∧
          matrix.boundaryOf rhs.size boundary' = .ok (p, values') ∧
          values'.size = values.size ∧ ∀ k ∈ p.fixed, values'.getD k 0 = values.getD k 0) :
    matrix.solveDirect rhs boundary' config = matrix.solveDirect rhs boundary config := by
  rw [solveDirect_eq, solveDirect_eq]
  cases hsession : SolveSession.start matrix rhs config with
  | error fault => rfl
  | ok session =>
      rcases h (SolveSession.start_eq_ok hsession).1 with
        heq | ⟨p, values, values', hboundary, hboundary', hsize, hfixed⟩
      · rw [heq]
      · rw [hboundary, hboundary']
        change (p.reduce session.matrix rhs values' >>= fun reduced =>
            reduced.1.solveReduced reduced.2 config >>= fun y => p.scatter y values') =
          (p.reduce session.matrix rhs values >>= fun reduced =>
            reduced.1.solveReduced reduced.2 config >>= fun y => p.scatter y values)
        rw [Partition.reduce_congr _ _ hsize hfixed]
        simp only [Partition.scatter_congr _ hsize hfixed]

theorem boundaryOf_some (matrix : BlockMatrix α) (n : Nat) (b : Boundary α) :
    matrix.boundaryOf n (some b) = (do
      Solved.expectSize .boundaryMarker matrix.pattern.rows b.marker.length
      let p ← Outcome.orAbort (Partition.ofMarker? b.marker matrix.block.rows)
      return (p, b.values)) :=
  rfl

theorem boundaryOf_none (matrix : BlockMatrix α) (n : Nat) :
    matrix.boundaryOf n none = (do
      let p ← Outcome.orAbort (Partition.allFree? n)
      return (p, Array.replicate n 0)) :=
  rfl

theorem solveDirect_of_values {matrix : BlockMatrix α} {marker : List Bool}
    {values values' : Array α} (hsize : values'.size = values.size)
    (h : ∀ k, marker.getD (k / matrix.block.rows) false = true →
      values'.getD k 0 = values.getD k 0) (rhs : Array α) (config : SolverConfig α) :
    matrix.solveDirect rhs (some ⟨marker, values'⟩) config =
      matrix.solveDirect rhs (some ⟨marker, values⟩) config := by
  refine solveDirect_congr config fun _ => ?_
  rw [boundaryOf_some, boundaryOf_some]
  cases Solved.expectSize .boundaryMarker matrix.pattern.rows marker.length with
  | error fault => exact .inl rfl
  | ok _ =>
      cases hp : Partition.ofMarker? marker matrix.block.rows with
      | none => exact .inl rfl
      | some p =>
          refine .inr ⟨p, values, values', rfl, rfl, hsize, fun k hk => h k ?_⟩
          obtain ⟨_, _, rfl⟩ := Option.map_eq_some_iff.1 hp
          obtain ⟨_, hmark⟩ := Partition.mem_unknownsOf_iff.1 hk
          rw [List.getD_eq_getElem?_getD, hmark]
          rfl

/-- Marks that fix nothing are like no marks at all. -/
theorem solveDirect_of_unmarked {matrix : BlockMatrix α} {marker : List Bool} {values rhs : Array α}
    (hmarker : marker.length = matrix.pattern.rows) (hvalues : values.size = rhs.size)
    (h : ∀ m ∈ marker, m = false) (config : SolverConfig α) :
    matrix.solveDirect rhs (some ⟨marker, values⟩) config =
      matrix.solveDirect rhs none config := by
  refine solveDirect_congr config fun hrows => ?_
  have hsize : rhs.size = marker.length * matrix.block.rows := by
    rw [hmarker]
    exact (Word.ofNat?_eq_some_iff.1 hrows).2.symm
  obtain ⟨hfixed, hfree⟩ := Partition.unknownsOf_of_unmarked h matrix.block.rows
  have hpartition : Partition.ofMarker? marker matrix.block.rows =
      Partition.allFree? rhs.size := by
    rw [Partition.ofMarker?, Partition.allFree?, hfixed, hfree, hsize]
  rw [boundaryOf_some, boundaryOf_none, hpartition, Solved.expectSize_eq_ok_iff.2 hmarker.symm]
  cases hp : Partition.allFree? rhs.size with
  | none => exact .inl rfl
  | some p =>
      refine .inr ⟨p, Array.replicate rhs.size 0, values, rfl, rfl, ?_, fun k hk => ?_⟩
      · rw [Array.size_replicate, hvalues]
      · obtain ⟨_, _, rfl⟩ := Option.map_eq_some_iff.1 hp
        cases hk

end

/-- **Elimination and pinning.** Where the factors solve the reduced system exactly, what a direct
    solve returns has the values of fixed unknowns and satisfies the rows of free ones, so that it
    solves the system whose fixed rows are pinned. The values of free unknowns do not influence it,
    and with nothing fixed it is that of a solve without a boundary. -/
theorem solveDirect_pins {K : Type} [Field K] [LinearOrder K] (matrix : BlockMatrix K)
    (rhs : Array K) (b : Boundary K) (config : SolverConfig K)
    (hexact : ∀ dense p, matrix.toDense? = some dense →
      Partition.ofMarker? b.marker matrix.block.rows = some p →
      (dense.select p.free p.free).SolvedExactly config) :
    (∀ x, matrix.solveDirect rhs (some b) config = .ok x →
      ∃ dense, matrix.toDense? = some dense ∧ dense.rows = rhs.size ∧ dense.cols = rhs.size ∧
        x.size = rhs.size ∧
        (∀ k < rhs.size, b.fixes matrix.block.rows k = true →
          x.getD k 0 = b.values.getD k 0) ∧
        (∀ k < rhs.size, b.fixes matrix.block.rows k = false →
          (dense.mulVec x).getD k 0 = rhs.getD k 0) ∧
        (b.pin matrix.block.rows dense).mulVec x = b.pinRhs matrix.block.rows rhs) ∧
      (∀ values : Array K, values.size = b.values.size →
        (∀ k, b.fixes matrix.block.rows k = true → values.getD k 0 = b.values.getD k 0) →
        matrix.solveDirect rhs (some ⟨b.marker, values⟩) config =
          matrix.solveDirect rhs (some b) config) ∧
      ((∀ m ∈ b.marker, m = false) → b.marker.length = matrix.pattern.rows →
        b.values.size = rhs.size →
        matrix.solveDirect rhs (some b) config = matrix.solveDirect rhs none config) := by
  refine ⟨fun x hx => ?_, fun values hsize hvalues => ?_, fun hunmarked hmarker hvalues => ?_⟩
  · obtain ⟨p, hp, hboundary⟩ : ∃ p, Partition.ofMarker? b.marker matrix.block.rows = some p ∧
        matrix.boundaryOf rhs.size (some b) = .ok (p, b.values) := by
      obtain ⟨_, bound, _, _, _, hbound, _⟩ := stages_of_solveDirect hx
      obtain ⟨_, _, h⟩ := Outcome.bind_eq_ok_iff.1 (boundaryOf_some matrix rhs.size b ▸ hbound)
      obtain ⟨p, hp, h⟩ := Outcome.bind_eq_ok_iff.1 h
      obtain rfl := Except.ok.inj h
      exact ⟨p, Outcome.orAbort_eq_ok_iff.1 hp, hbound⟩
    obtain ⟨dense, hdense, hrows, hcols, hrhs, hsize, hfixed, hfree⟩ :=
      solves_of_solveDirect hboundary (fun dense hdense => hexact dense p hdense hp) hx
    rw [← hrhs] at hrows hcols hsize
    have hfixed' : ∀ k < rhs.size, b.fixes matrix.block.rows k = true →
        x.getD k 0 = b.values.getD k 0 := fun k hk hmark =>
      hfixed k ((Partition.mem_of_ofMarker? hp (hrhs ▸ hk)).1 hmark)
    have hfree' : ∀ k < rhs.size, b.fixes matrix.block.rows k = false →
        (dense.mulVec x).getD k 0 = rhs.getD k 0 := fun k hk hmark =>
      hfree k ((Partition.mem_of_ofMarker? hp (hrhs ▸ hk)).2 hmark)
    exact ⟨dense, hdense, hrows, hcols, hsize, hfixed', hfree',
      Boundary.mulVec_pin hrows hcols hfixed' hfree'⟩
  · exact solveDirect_of_values hsize hvalues rhs config
  · exact solveDirect_of_unmarked hmarker hvalues hunmarked config

/-- Two elements of two unknowns each, every block being stored. -/
def pairOfPairs : BlockMatrix ℚ where
  pattern := ⟨2, 2, #[0, 2, 4], #[0, 1, 0, 1]⟩
  values := #[4, 1, 1, 3, 1, 0, 2, 1, 1, 2, 0, 1, 5, 1, 1, 2]
  block := .matrix 2 2

/-- With the first element fixed the two other rows decide. -/
theorem pairOfPairs_solveDirect_pins :
    ∃ dense x, pairOfPairs.toDense? = some dense ∧
      pairOfPairs.solveDirect #[0, 0, 8, 5] (some ⟨[true, false], #[1, 2, 7, 7]⟩) ⟨.lu, 0⟩ =
        .ok x ∧ x = #[1, 2, 1 / 3, 4 / 3] ∧
      (Boundary.pin ⟨[true, false], #[1, 2, 7, 7]⟩ 2 dense).mulVec x = #[1, 2, 8, 5] := by
  obtain ⟨x, hx, rfl⟩ : ∃ x, pairOfPairs.solveDirect #[0, 0, 8, 5]
      (some ⟨[true, false], #[1, 2, 7, 7]⟩) ⟨.lu, 0⟩ = .ok x ∧ x = #[1, 2, 1 / 3, 4 / 3] := by
    decide +kernel
  obtain ⟨hpins, _⟩ := solveDirect_pins pairOfPairs #[0, 0, 8, 5]
    ⟨[true, false], #[1, 2, 7, 7]⟩ ⟨.lu, 0⟩
    fun dense p _ _ => (DenseMatrix.invertedExactly_lu _ rfl).solvedExactly
  obtain ⟨dense, hdense, _, _, _, _, _, hpinned⟩ := hpins _ hx
  exact ⟨dense, _, hdense, hx, rfl, hpinned.trans (by decide +kernel)⟩

end BlockMatrix

end GraphTensor
