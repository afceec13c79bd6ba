import GraphTensor.Proofs.Pattern.Coordinates
import GraphTensor.Topology.Basic
import Mathlib.Algebra.Group.Nat.Defs
set_option autoImplicit false

/-! # The patterns that a relation induces

The square pattern of a relation stores the diagonal and the pairs of endpoints that share an
element (`Topology.Share`); the incidence pattern stores each element with its endpoints. Both are
made from coordinates and are therefore valid; what has to be shown is which coordinates these are.

`Topology.WellFormed` is what the check of tuples establishes: elements tie something together, the
tuples come out even, and every endpoint exists. The last of these, `Topology.InRange`, is what
keeps the coordinates inside the matrix. -/

namespace GraphTensor

namespace Topology

variable {t : Topology} {e slot v : Nat}

/-! ## Endpoints -/

/-- Two endpoints belong to one element of the relation. -/
def Share (t : Topology) (v w : Nat) : Prop :=
  ∃ e < t.size, v ∈ t.endpoints e ∧ w ∈ t.endpoints e

theorem getElem?_endpoints (t : Topology) (e slot : Nat) :
    (t.endpoints e)[slot]? = if slot < t.arity then t.tuples[e * t.arity + slot]? else none := by
  simp only [endpoints, Array.toList_extract, List.extract_eq_take_drop, List.getElem?_take,
    List.getElem?_drop, Array.getElem?_toList, Nat.add_sub_cancel_left]

theorem getElem?_endpoints_of_endpoint {ε : Type}
    (h : (t.endpoint e slot : Outcome ε (Option Nat)) = .ok (some v)) :
    (t.endpoints e)[slot]? = some v := by
  unfold endpoint at h
  split at h
  · cases h
  · next hslot =>
      split at h
      · injection h with h
        rw [getElem?_endpoints, if_pos (Nat.lt_of_not_le hslot), h]
      · cases h

theorem mem_elements_iff {es : List Nat} : es ∈ t.elements ↔ ∃ e < t.size, t.endpoints e = es := by
  simp [elements]

/-- An endpoint exists: it is an element of the endpoint set. -/
def InRange (t : Topology) : Prop :=
  ∀ v ∈ t.tuples, v < t.endpointCount

/-- The form of a topology: elements tie something together, the tuples come out even, and every
    endpoint exists. -/
structure WellFormed (t : Topology) : Prop where
  /-- An element has endpoints. -/
  arity_pos : 0 < t.arity
  /-- The tuples are those of whole elements. -/
  even : t.arity ∣ t.tuples.size
  /-- Every endpoint exists. -/
  inRange : t.InRange

/-- Tuples make a topology just if it is well formed, and then with these tuples. -/
theorem ofTuples_eq_ok_iff {relation endpointSet : SetName} {count arity : Nat}
    {tuples : Array Nat} :
    ofTuples relation endpointSet count arity tuples = .ok t ↔
      t = ⟨relation, endpointSet, count, arity, tuples⟩ ∧ t.WellFormed := by
  constructor
  · intro h
    unfold ofTuples at h
    split at h
    · cases h
    · next harity =>
        split at h
        · cases h
        · next heven =>
            split at h
            · cases h
            · next hnone =>
                cases h
                refine ⟨rfl, Nat.pos_of_ne_zero harity,
                  Nat.dvd_of_mod_eq_zero (not_not.1 heven), fun v hv => ?_⟩
                rw [Array.findIdx?_eq_none_iff] at hnone
                simpa using hnone v hv
  · rintro ⟨rfl, harity, heven, hin⟩
    have hnone : tuples.findIdx? (count ≤ ·) = none := by
      rw [Array.findIdx?_eq_none_iff]
      intro v hv
      simpa using hin v hv
    have hmod : ¬ tuples.size % arity ≠ 0 := not_not.2 (Nat.mod_eq_zero_of_dvd heven)
    rw [ofTuples, if_neg (Nat.ne_of_gt harity), if_neg hmod, hnone]

theorem inRange_ofTuples {relation endpointSet : SetName} {count arity : Nat} {tuples : Array Nat}
    (h : ofTuples relation endpointSet count arity tuples = .ok t) :
    t = ⟨relation, endpointSet, count, arity, tuples⟩ ∧ t.InRange :=
  (ofTuples_eq_ok_iff.1 h).imp_right WellFormed.inRange

theorem InRange.lt_of_mem_endpoints (h : t.InRange) (hv : v ∈ t.endpoints e) :
    v < t.endpointCount := by
  simp only [endpoints, Array.toList_extract, List.extract_eq_take_drop] at hv
  exact h v (Array.mem_toList_iff.1 (List.mem_of_mem_drop (List.mem_of_mem_take hv)))

/-! ## Induced patterns -/

theorem mem_endpointPairs_iff {es : List Nat} {i j : Nat} :
    (i, j) ∈ endpointPairs es ↔ i ∈ es ∧ j ∈ es := by
  simp [endpointPairs]

theorem mem_diagonal_append_pairs_iff {n i j : Nat} :
    (i, j) ∈ (List.range n).map (fun i => (i, i)) ++ t.elements.flatMap endpointPairs ↔
      (i = j ∧ j < n) ∨ t.Share i j := by
  rw [List.mem_append]
  refine or_congr ?_ ?_
  · simp only [List.mem_map, List.mem_range, Prod.mk.injEq]
    constructor
    · rintro ⟨k, hk, rfl, rfl⟩
      exact ⟨rfl, hk⟩
    · rintro ⟨rfl, hj⟩
      exact ⟨i, hj, rfl, rfl⟩
  · simp only [List.mem_flatMap, mem_elements_iff, Share]
    constructor
    · rintro ⟨es, ⟨e, he, rfl⟩, hpair⟩
      exact ⟨e, he, mem_endpointPairs_iff.1 hpair⟩
    · rintro ⟨e, he, hpair⟩
      exact ⟨_, ⟨e, he, rfl⟩, mem_endpointPairs_iff.2 hpair⟩

/-- **The square pattern** stores the diagonal and the endpoints that share an element. -/
theorem squarePattern?_spec {p : Pattern} (h : t.squarePattern? = some p) :
    p.Valid ∧ p.rows = t.endpointCount ∧ p.cols = t.endpointCount ∧
      t.endpointCount * 16 < 2 ^ 63 ∧
      ∀ i j, (i, j) ∈ p.coordinates ↔ (i = j ∧ j < t.endpointCount) ∨ t.Share i j := by
  unfold squarePattern? at h
  split at h
  · cases h
  · next n hroom =>
      obtain ⟨rfl, hcells⟩ := Word.cells?_eq_some hroom
      obtain ⟨hvalid, hrows, hcols, _, hmem⟩ := Pattern.ofCoordinates?_spec h
      exact ⟨hvalid, hrows, hcols, hcells, fun i j => (hmem i j).trans mem_diagonal_append_pairs_iff⟩

/-- **The incidence pattern** stores each element with its endpoints. -/
theorem incidencePattern?_spec {p : Pattern} (h : t.incidencePattern? = some p) :
    p.Valid ∧ p.rows = t.size ∧ p.cols = t.endpointCount ∧ (t.size + 1) * 8 < 2 ^ 63 ∧
      ∀ i j, (i, j) ∈ p.coordinates ↔ i < t.size ∧ j ∈ t.endpoints i := by
  obtain ⟨hvalid, hrows, hcols, hroom, hmem⟩ := Pattern.ofCoordinates?_spec h
  refine ⟨hvalid, hrows, hcols, hroom, fun i j => ?_⟩
  rw [hmem]
  simp only [elements, List.mem_flatMap, Prod.exists, List.mem_map, Prod.mk.injEq,
    List.mk_mem_zipIdx_iff_getElem?, List.getElem?_map, Option.map_eq_some_iff,
    List.getElem?_eq_some_iff, List.length_range, List.getElem_range]
  constructor
  · rintro ⟨es, k, ⟨l, ⟨hl, rfl⟩, rfl⟩, v, hv, rfl, rfl⟩
    exact ⟨hl, hv⟩
  · rintro ⟨hi, hj⟩
    exact ⟨_, i, ⟨i, ⟨hi, rfl⟩, rfl⟩, j, hj, rfl, rfl⟩

/-- The transposed incidence pattern stores each endpoint with the elements it belongs to. -/
theorem coincidencePattern?_spec {p : Pattern}
    (h : t.incidencePattern?.bind Pattern.transpose? = some p) :
    p.Valid ∧ p.rows = t.endpointCount ∧ p.cols = t.size ∧
      (t.size + 1) * 8 < 2 ^ 63 ∧ (t.endpointCount + 1) * 8 < 2 ^ 63 ∧
      ∀ i j, (i, j) ∈ p.coordinates ↔ j < t.size ∧ i ∈ t.endpoints j := by
  obtain ⟨q, hq, hp⟩ := Option.bind_eq_some_iff.1 h
  obtain ⟨_, hrows, hcols, hroom, hmem⟩ := incidencePattern?_spec hq
  obtain ⟨hvalid, hrows', hcols', hroom', hmem'⟩ := Pattern.transpose?_spec hp
  refine ⟨hvalid, hrows'.trans hcols, hcols'.trans hrows, hroom, hcols ▸ hroom', fun i j => ?_⟩
  rw [hmem', hmem]

end Topology

end GraphTensor
