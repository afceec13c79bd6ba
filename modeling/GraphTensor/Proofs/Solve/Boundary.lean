import GraphTensor.Proofs.Matrix.Dense
import GraphTensor.Solve.Boundary
set_option autoImplicit false

/-! # Fixed unknowns

The fixed and the free unknowns are all unknowns, each once (`Partition.Splits`). A solution over
the free unknowns and the given values of the fixed ones make up a vector that satisfies the rows of
the free unknowns (`Partition.scatter_solves`): a row of the full product is a sum over both kinds
of unknowns, of which `Partition.reduce` has moved the one over fixed unknowns to the right. -/

namespace GraphTensor

namespace Partition

/-! ## Splitting the unknowns -/

/-- Every unknown below a number is fixed or free, and only one of both. -/
def Splits (p : Partition) (n : Nat) : Prop :=
  (p.fixed ++ p.free).Perm (List.range n)

theorem Splits.size_eq {p : Partition} {n : Nat} (h : p.Splits n) : p.size = n := by
  rw [size, ← List.length_append, h.length_eq, List.length_range]

theorem Splits.lt {p : Partition} {n k : Nat} (h : p.Splits n) (hk : k ∈ p.fixed ∨ k ∈ p.free) :
    k < n :=
  List.mem_range.1 (h.mem_iff.1 (List.mem_append.2 hk))

theorem Splits.nodup {p : Partition} {n : Nat} (h : p.Splits n) : (p.fixed ++ p.free).Nodup :=
  h.nodup_iff.2 List.nodup_range

theorem splits_of_allFree? {n : Nat} {p : Partition} (h : allFree? n = some p) : p.Splits n := by
  obtain ⟨_, _, rfl⟩ := Option.map_eq_some_iff.1 h
  exact List.Perm.refl _

/-- The unknowns of the elements with a mark, the elements being counted from some number on. -/
def unknownsFrom (width start : Nat) (marker : List Bool) (mark : Bool) : List Nat :=
  (marker.zipIdx start).flatMap fun (m, element) =>
    if m = mark then (List.range width).map (element * width + ·) else []

theorem unknownsFrom_perm (width start : Nat) (marker : List Bool) :
    (unknownsFrom width start marker true ++ unknownsFrom width start marker false).Perm
      (List.range' (start * width) (marker.length * width)) := by
  induction marker generalizing start with
  | nil =>
      rw [List.length_nil, Nat.zero_mul]
      exact List.Perm.refl _
  | cons m rest ih =>
      have hrest := (ih (start + 1)).append_left (List.range' (start * width) width)
      rw [Nat.succ_mul, List.range'_append_1, Nat.add_comm width, ← Nat.succ_mul] at hrest
      refine List.Perm.trans ?_ hrest
      simp only [unknownsFrom, List.zipIdx_cons, List.flatMap_cons, List.range'_eq_map_range]
      cases m with
      | true => simp
      | false => simpa using List.perm_append_comm_assoc ..

theorem splits_of_ofMarker? {marker : List Bool} {width : Nat} {p : Partition}
    (h : ofMarker? marker width = some p) : p.Splits (marker.length * width) := by
  obtain ⟨_, _, rfl⟩ := Option.map_eq_some_iff.1 h
  have hperm := unknownsFrom_perm width 0 marker
  rw [Nat.zero_mul, ← List.range_eq_range'] at hperm
  exact hperm

theorem mem_unknownsOf {marker : List Bool} {width k : Nat} {mark : Bool} :
    k ∈ unknownsOf marker width mark ↔
      ∃ element, marker[element]? = some mark ∧ ∃ a < width, k = element * width + a := by
  unfold unknownsOf
  rw [List.mem_flatMap]
  constructor
  · rintro ⟨⟨m, element⟩, hmem, hk⟩
    dsimp only at hk
    split at hk
    · next hm =>
        obtain ⟨a, ha, rfl⟩ := List.mem_map.1 hk
        exact ⟨element, hm ▸ List.mem_zipIdx_iff_getElem?.1 hmem, a, List.mem_range.1 ha, rfl⟩
    · cases hk
  · rintro ⟨element, helement, a, ha, rfl⟩
    refine ⟨(mark, element), List.mem_zipIdx_iff_getElem?.2 helement, ?_⟩
    dsimp only
    rw [if_pos rfl]
    exact List.mem_map.2 ⟨a, List.mem_range.2 ha, rfl⟩

/-- With one unknown for each element, the unknowns are the elements themselves. -/
theorem unknownsOf_one (marker : List Bool) (mark : Bool) :
    unknownsOf marker 1 mark =
      (List.range marker.length).filter fun k => marker[k]? = some mark := by
  induction marker using List.reverseRecOn with
  | nil => rfl
  | append_singleton rest m ih =>
      have hrest : ((List.range rest.length).filter fun k => (rest ++ [m])[k]? = some mark) =
          (List.range rest.length).filter fun k => rest[k]? = some mark :=
        List.filter_congr fun k hk => by
          rw [List.getElem?_append_left (List.mem_range.1 hk)]
      rw [List.length_append, List.length_singleton, List.range_succ, List.filter_append, hrest,
        ← ih, unknownsOf, List.zipIdx_append, List.flatMap_append, ← unknownsOf]
      by_cases hmark : m = mark <;> simp [hmark]

/-! ## Components of vectors -/

section

variable {α : Type}

theorem size_place (x : Array α) (places : List Nat) (values : List α) :
    (place x places values).size = x.size := by
  unfold place
  induction places.zip values generalizing x with
  | nil => rfl
  | cons entry rest ih => rw [List.foldl_cons, ih, Array.size_setIfInBounds]

theorem getElem?_place_of_notMem {x : Array α} {places : List Nat} {values : List α} {k : Nat}
    (h : k ∉ places) : (place x places values)[k]? = x[k]? := by
  induction places generalizing x values with
  | nil => rfl
  | cons first rest ih =>
      obtain ⟨hne, hrest⟩ := not_or.1 (mt List.mem_cons.2 h)
      cases values with
      | nil => rfl
      | cons value values =>
          refine (ih hrest).trans ?_
          rw [Array.getElem?_setIfInBounds, if_neg (Ne.symm hne)]

theorem getElem?_place {x : Array α} {places : List Nat} {values : List α} (hnodup : places.Nodup)
    (hbound : ∀ k ∈ places, k < x.size) {i k : Nat} (hk : places[i]? = some k) {value : α}
    (hvalue : values[i]? = some value) : (place x places values)[k]? = some value := by
  induction places generalizing x values i with
  | nil => cases hk
  | cons first rest ih =>
      obtain ⟨hnew, hnodup⟩ := List.nodup_cons.1 hnodup
      cases values with
      | nil => cases hvalue
      | cons value' values =>
          cases i with
          | zero =>
              obtain rfl := Option.some.inj hk
              obtain rfl := Option.some.inj hvalue
              refine (getElem?_place_of_notMem hnew).trans ?_
              rw [Array.getElem?_setIfInBounds, if_pos rfl,
                if_pos (hbound first (List.mem_cons_self ..))]
          | succ i =>
              refine ih hnodup (fun k hk => ?_) hk hvalue
              rw [Array.size_setIfInBounds]
              exact hbound k (List.mem_cons_of_mem _ hk)

variable [Scalar α]

theorem scatter_spec {p : Partition} {n : Nat} (hp : p.Splits n) {y v x : Array α}
    (h : p.scatter y v = .ok x) :
    x.size = n ∧ y.size = p.free.length ∧ v.size = n ∧ (∀ k ∈ p.fixed, x.getD k 0 = v.getD k 0) ∧
      ∀ i k, p.free[i]? = some k → x.getD k 0 = y.getD i 0 := by
  obtain ⟨⟨⟩, hy, h⟩ := Outcome.bind_eq_ok_iff.1 h
  obtain ⟨⟨⟩, hv, h⟩ := Outcome.bind_eq_ok_iff.1 h
  obtain rfl := Except.ok.inj h
  have hy := Solved.expectSize_eq_ok_iff.1 hy
  have hv := Solved.expectSize_eq_ok_iff.1 hv
  obtain ⟨hfixed, hfree, hapart⟩ := List.nodup_append.1 hp.nodup
  have hsize : ∀ (x : Array α) (places : List Nat) (values : List α) (k : Nat),
      x.size = n → k ∈ p.fixed ∨ k ∈ p.free → k < (place x places values).size := by
    intro x places values k hx hk
    rw [size_place, hx]
    exact hp.lt hk
  have hzeros : (Array.replicate p.size (0 : α)).size = n := by
    rw [Array.size_replicate, hp.size_eq]
  refine ⟨?_, hy.symm, hv.symm.trans hp.size_eq, fun k hk => ?_, fun i k hk => ?_⟩
  · rw [size_place, size_place, hzeros]
  · obtain ⟨i, hi⟩ := List.mem_iff_getElem?.1 hk
    have hvalue : (pick v p.fixed).toList[i]? = some (v.getD k 0) := by
      simp [pick, hi]
    rw [Array.getD_eq_getD_getElem?, getElem?_place_of_notMem fun hmem =>
      hapart k hk k hmem rfl, getElem?_place hfixed (fun k hk => ?_) hi hvalue]
    · rfl
    · rw [hzeros]
      exact hp.lt (.inl hk)
  · have hi : i < y.size := by
      rw [← hy]
      exact (List.getElem?_eq_some_iff.1 hk).1
    have hvalue : y.toList[i]? = some (y.getD i 0) := by
      simp [hi]
    rw [Array.getD_eq_getD_getElem?, getElem?_place hfree (fun k hk => ?_) hk hvalue]
    · rfl
    · exact hsize _ _ _ k hzeros (.inr hk)

end

/-! ## Reduced systems -/

variable {K : Type} [Field K] [LinearOrder K]

theorem getD_pick (x : Array K) {places : List Nat} {i k : Nat} (hk : places[i]? = some k) :
    (pick x places).getD i 0 = x.getD k 0 := by
  simp [pick, hk]

theorem get_select (m : DenseMatrix K) {rows cols : List Nat} {i j k l : Nat}
    (hk : rows[i]? = some k) (hl : cols[j]? = some l) : (m.select rows cols).get i j = m.get k l := by
  obtain ⟨hi, rfl⟩ := List.getElem?_eq_some_iff.1 hk
  obtain ⟨hj, rfl⟩ := List.getElem?_eq_some_iff.1 hl
  simp [DenseMatrix.select, hi, hj]

omit [LinearOrder K] in
theorem sum_map_range_getElem? {ι : Type} (xs : List ι) (g : ι → K) (f : Nat → K)
    (h : ∀ i x, xs[i]? = some x → f i = g x) :
    ((List.range xs.length).map f).sum = (xs.map g).sum := by
  refine congrArg List.sum (List.ext_getElem (by simp) fun i hi hi' => ?_)
  have hlt : i < xs.length := by simpa using hi'
  simpa using h i xs[i] (List.getElem?_eq_getElem hlt)

/-- What is moved to the right-hand side of a reduced system. -/
theorem reduce_spec {p : Partition} {matrix reduced : DenseMatrix K} {rhs values moved : Array K}
    (h : p.reduce matrix rhs values = .ok (reduced, moved)) :
    matrix.rows = p.size ∧ matrix.cols = p.size ∧ rhs.size = p.size ∧
      reduced = matrix.select p.free p.free ∧ moved.size = p.free.length ∧
      ∀ i k, p.free[i]? = some k → moved.getD i 0 =
        rhs.getD k 0 - (p.fixed.map fun f => matrix.get k f * values.getD f 0).sum := by
  obtain ⟨⟨⟩, hrows, h⟩ := Outcome.bind_eq_ok_iff.1 h
  obtain ⟨⟨⟩, hcols, h⟩ := Outcome.bind_eq_ok_iff.1 h
  obtain ⟨⟨⟩, hrhs, h⟩ := Outcome.bind_eq_ok_iff.1 h
  obtain ⟨⟨⟩, _, h⟩ := Outcome.bind_eq_ok_iff.1 h
  obtain ⟨rfl, rfl⟩ := Prod.mk.inj (Except.ok.inj h)
  refine ⟨(Solved.expectSize_eq_ok_iff.1 hrows).symm, (Solved.expectSize_eq_ok_iff.1 hcols).symm,
    (Solved.expectSize_eq_ok_iff.1 hrhs).symm, rfl, ?_, fun i k hk => ?_⟩
  · split <;> simp [pick, subVec, DenseMatrix.mulVec, DenseMatrix.select, DenseMatrix.ofFn]
  split
  · next htrivial =>
      have hfixed : p.fixed = [] := List.isEmpty_iff.1 htrivial
      rw [getD_pick rhs hk, hfixed]
      simp
  · have hselect : (matrix.select p.free p.fixed).rows = p.free.length ∧
        (matrix.select p.free p.fixed).cols = p.fixed.length := by
      simp [DenseMatrix.select, DenseMatrix.ofFn]
    rw [getD_subVec (by simp [DenseMatrix.size_mulVec, hselect.1, pick]), getD_pick rhs hk,
      DenseMatrix.getD_mulVec_eq_sum, hselect.2]
    refine congrArg (_ - ·) (sum_map_range_getElem? p.fixed _ _ fun j f hf => ?_)
    rw [get_select matrix hk hf, getD_pick values hf]

/-- **The full solution** has the given values at the fixed unknowns and satisfies the rows of the
    free ones, if the reduced system is solved. -/
theorem scatter_solves {p : Partition} {n : Nat} (hp : p.Splits n)
    {matrix reduced : DenseMatrix K} {rhs values moved y x : Array K}
    (hreduce : p.reduce matrix rhs values = .ok (reduced, moved))
    (hsolved : reduced.mulVec y = moved) (hscatter : p.scatter y values = .ok x) :
    x.size = n ∧ (∀ k ∈ p.fixed, x.getD k 0 = values.getD k 0) ∧
      ∀ k ∈ p.free, (matrix.mulVec x).getD k 0 = rhs.getD k 0 := by
  obtain ⟨hsize, _, _, hfixed, hfree⟩ := scatter_spec hp hscatter
  obtain ⟨_, hcols, _, rfl, _, hmoved⟩ := reduce_spec hreduce
  refine ⟨hsize, hfixed, fun k hk => ?_⟩
  obtain ⟨i, hi⟩ := List.mem_iff_getElem?.1 hk
  have hselect : (matrix.select p.free p.free).rows = p.free.length ∧
      (matrix.select p.free p.free).cols = p.free.length := by
    simp [DenseMatrix.select, DenseMatrix.ofFn]
  have hreduced : (p.free.map fun u => matrix.get k u * x.getD u 0).sum =
      rhs.getD k 0 - (p.fixed.map fun f => matrix.get k f * values.getD f 0).sum := by
    rw [← hmoved i k hi, ← hsolved, DenseMatrix.getD_mulVec_eq_sum, hselect.2]
    refine (sum_map_range_getElem? p.free _ _ fun j u hu => ?_).symm
    rw [get_select matrix hi hu, hfree j u hu]
  have hknown : (p.fixed.map fun f => matrix.get k f * x.getD f 0) =
      p.fixed.map fun f => matrix.get k f * values.getD f 0 :=
    List.map_congr_left fun f hf => by rw [hfixed f hf]
  rw [DenseMatrix.getD_mulVec_eq_sum, hcols, hp.size_eq, ← (hp.map _).sum_eq, List.map_append, List.sum_append,
    hknown, hreduced]
  exact add_sub_cancel _ _

end Partition

end GraphTensor
