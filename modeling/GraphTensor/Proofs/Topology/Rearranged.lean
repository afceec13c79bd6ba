import GraphTensor.Proofs.Pattern.Canonical
import GraphTensor.Proofs.Topology.Room
import Mathlib.Data.Fin.Rev
set_option autoImplicit false

/-! # Relations in another order

The square pattern of a relation depends on which endpoints share an element, and a row of its
incidence pattern on which endpoints an element has. So the order in which the elements of a
relation come, and the order of the endpoints in an element (`Topology.Rearranges`), tell nothing
about the square pattern, and the first of them tells the order of the rows of the incidence
pattern.

`Topology.HasSquare` and `Topology.HasIncidence` say what the two patterns of a relation are,
symmetry and the count of the elements included. -/

namespace GraphTensor

namespace Topology

variable {t t' : Topology}

/-! ## Relations with the same elements -/

/-- Another topology has the elements of a topology in another order, its element `e` being element
    `σ e`, each with its endpoints in some order. -/
structure Rearranges (t t' : Topology) (σ : Equiv.Perm (Fin t.size)) : Prop where
  /-- It is made from tuples for the same relation. -/
  made : ofTuples t.relation t.endpointSet t.endpointCount t.arity t'.tuples = .ok t'
  /-- It has as many elements. -/
  size : t'.size = t.size
  /-- The endpoints of an element are those of the element that it stands for. -/
  endpoints : ∀ e : Fin t.size, (t'.endpoints e).Perm (t.endpoints (σ e))

namespace Rearranges

variable {σ : Equiv.Perm (Fin t.size)}

theorem endpointCount (h : t.Rearranges t' σ) : t'.endpointCount = t.endpointCount := by
  rw [(inRange_ofTuples h.made).1]

theorem share_iff (h : t.Rearranges t' σ) (v w : Nat) : t'.Share v w ↔ t.Share v w := by
  constructor
  · rintro ⟨e, he, hv, hw⟩
    have he : e < t.size := h.size ▸ he
    have hperm := h.endpoints ⟨e, he⟩
    exact ⟨σ ⟨e, he⟩, (σ ⟨e, he⟩).isLt, hperm.mem_iff.1 hv, hperm.mem_iff.1 hw⟩
  · rintro ⟨e, he, hv, hw⟩
    -- the element of the other topology that stands for this one
    obtain ⟨d, hd⟩ := σ.surjective ⟨e, he⟩
    have hperm := h.endpoints d
    rw [hd] at hperm
    exact ⟨d, h.size.symm ▸ d.isLt, hperm.mem_iff.2 hv, hperm.mem_iff.2 hw⟩

theorem squarePattern?_eq (h : t.Rearranges t' σ) : t'.squarePattern? = t.squarePattern? := by
  rw [squarePattern?, squarePattern?, h.endpointCount]
  cases Word.cells? t.endpointCount 16 with
  | none => rfl
  | some n =>
      refine Pattern.ofCoordinates?_congr fun c => ?_
      rw [mem_diagonal_append_pairs_iff, mem_diagonal_append_pairs_iff, h.share_iff]

/-- The rows of the incidence pattern come in the order of the elements. -/
theorem row_incidencePattern? (h : t.Rearranges t' σ) {q q' : Pattern}
    (hq : t.incidencePattern? = some q) (hq' : t'.incidencePattern? = some q') (e : Fin t.size) :
    q'.row e = q.row (σ e) := by
  obtain ⟨hvalid, hrows, _, _, hmem⟩ := incidencePattern?_spec hq
  obtain ⟨hvalid', hrows', _, _, hmem'⟩ := incidencePattern?_spec hq'
  have he' : (e : Nat) < t'.size := h.size.symm ▸ e.isLt
  refine hvalid'.row_eq hvalid (hrows'.symm ▸ he') (hrows.symm ▸ (σ e).isLt) fun v => ?_
  rw [hmem', hmem, (h.endpoints e).mem_iff]
  exact and_congr_left fun _ => iff_of_true he' (σ e).isLt

end Rearranges

/-! ## The patterns of a relation -/

/-- A pattern holds just the pairs of endpoints that a topology induces. -/
structure HasSquare (t : Topology) (p : Pattern) : Prop where
  /-- It passes validation. -/
  valid : p.validate = .ok ()
  /-- Its rows are the endpoints. -/
  rows : p.rows = t.endpointCount
  /-- Its columns are the endpoints. -/
  cols : p.cols = t.endpointCount
  /-- It stores the diagonal and the endpoints that share an element. -/
  stores : ∀ v w, p.contains v w = true ↔ (v = w ∧ w < t.endpointCount) ∨ t.Share v w
  /-- It is its own transpose. -/
  transpose : p.transpose? = some p

/-- A pattern holds just the elements of a topology with their endpoints. -/
structure HasIncidence (t : Topology) (p : Pattern) : Prop where
  /-- It passes validation. -/
  valid : p.validate = .ok ()
  /-- Its rows are the elements. -/
  rows : p.rows = t.size
  /-- Its columns are the endpoints. -/
  cols : p.cols = t.endpointCount
  /-- It stores each element with its endpoints. -/
  stores : ∀ e v, p.contains e v = true ↔ e < t.size ∧ v ∈ t.endpoints e

theorem Share.symm {v w : Nat} (h : t.Share v w) : t.Share w v := by
  obtain ⟨e, he, hv, hw⟩ := h
  exact ⟨e, he, hw, hv⟩

theorem hasSquare_of_squarePattern? {p : Pattern} (h : t.squarePattern? = some p) :
    t.HasSquare p := by
  obtain ⟨hvalid, hrows, hcols, hroom, hmem⟩ := squarePattern?_spec h
  have hcompressed : p.Compressed := by
    unfold squarePattern? at h
    split at h
    · cases h
    · exact Pattern.compressed_of_ofCoordinates? h
  have hroom : (p.rows + 1) * 8 < 2 ^ 63 := by omega
  refine ⟨hcompressed.validate_eq_ok hroom, hrows, hcols, fun v w => ?_, ?_⟩
  · exact (hvalid.isSome_locate_iff .binary).trans (hmem v w)
  · refine hcompressed.transpose?_eq_self hroom (hcols.trans hrows.symm) fun v w hvw => ?_
    rw [hmem] at hvw ⊢
    rcases hvw with ⟨rfl, hlt⟩ | hshare
    · exact Or.inl ⟨rfl, hlt⟩
    · exact Or.inr hshare.symm

theorem hasIncidence_of_incidencePattern? {p : Pattern} (h : t.incidencePattern? = some p) :
    t.HasIncidence p := by
  obtain ⟨hvalid, hrows, hcols, hroom, hmem⟩ := incidencePattern?_spec h
  refine ⟨?_, hrows, hcols, fun e v => ?_⟩
  · exact (Pattern.compressed_of_ofCoordinates? h).validate_eq_ok (hrows ▸ hroom)
  · exact (hvalid.isSome_locate_iff .binary).trans (hmem e v)

/-- **The patterns of a relation.** A topology that is made from tuples has a square pattern, unless
    its endpoints are too many for the diagonal to have room, and an incidence pattern. The square
    pattern holds just the induced pairs and is its own transpose, and any order of the elements and of
    the endpoints in each gives the same one; the incidence pattern holds just the endpoints of each
    element, and its rows come in the order of the elements. -/
theorem patterns_of_ofTuples {relation endpointSet : SetName} {count arity : Nat}
    {tuples : Array Nat} (ht : ofTuples relation endpointSet count arity tuples = .ok t)
    (hmemory : (tuples.size + 1) * 8 < 2 ^ 63) :
    (count * 16 < 2 ^ 63 → ∃ p, t.squarePattern? = some p ∧ t.HasSquare p ∧
      ∀ t' σ, t.Rearranges t' σ → t'.squarePattern? = some p) ∧
    ∃ q, t.incidencePattern? = some q ∧ t.HasIncidence q ∧
      ∀ t' σ, t.Rearranges t' σ → ∃ q', t'.incidencePattern? = some q' ∧ t'.HasIncidence q' ∧
        ∀ e : Fin t.size, q'.row e = q.row (σ e) := by
  obtain ⟨hshape, hin⟩ := inRange_ofTuples ht
  have hcount : t.endpointCount = count := congrArg Topology.endpointCount hshape
  have hroom : (t.size + 1) * 8 < 2 ^ 63 := by
    have hle : t.size ≤ t.tuples.size := Nat.div_le_self ..
    have hsame : t.tuples.size = tuples.size := congrArg (Array.size ∘ Topology.tuples) hshape
    omega
  constructor
  · intro hdiagonal
    obtain ⟨p, hp⟩ := hin.exists_squarePattern? (hcount ▸ hdiagonal)
    exact ⟨p, hp, hasSquare_of_squarePattern? hp, fun t' σ h => h.squarePattern?_eq.trans hp⟩
  · obtain ⟨q, hq⟩ := hin.exists_incidencePattern? hroom
    refine ⟨q, hq, hasIncidence_of_incidencePattern? hq, fun t' σ h => ?_⟩
    obtain ⟨q', hq'⟩ := (inRange_ofTuples h.made).2.exists_incidencePattern? (h.size ▸ hroom)
    exact ⟨q', hq', hasIncidence_of_incidencePattern? hq', h.row_incidencePattern? hq hq'⟩

/-- The edges of a path of four endpoints. -/
def pathEdges : Topology :=
  ⟨"E", "V", 4, 2, #[0, 1, 1, 2, 2, 3]⟩

/-- The path from its other end. -/
def pathBackwards : Topology :=
  ⟨"E", "V", 4, 2, #[3, 2, 2, 1, 1, 0]⟩

theorem pathEdges_rearranges : pathEdges.Rearranges pathBackwards Fin.revPerm :=
  ⟨by decide +kernel, by decide, by decide⟩

/-- A path has the same square pattern from both ends, and its incidence patterns are each other's
    reversed. -/
theorem pathEdges_patterns :
    ofTuples "E" "V" 4 2 #[0, 1, 1, 2, 2, 3] = .ok pathEdges ∧
      (∃ p, pathEdges.squarePattern? = some p ∧ pathEdges.HasSquare p ∧
        pathBackwards.squarePattern? = some p) ∧
      ∃ q q', pathEdges.incidencePattern? = some q ∧ pathBackwards.incidencePattern? = some q' ∧
        ∀ e : Fin pathEdges.size, q'.row e = q.row e.rev := by
  have hmade : ofTuples "E" "V" 4 2 #[0, 1, 1, 2, 2, 3] = .ok pathEdges := by decide +kernel
  obtain ⟨hsquare, q, hq, -, hback⟩ := patterns_of_ofTuples hmade (by decide)
  obtain ⟨p, hp, hholds, hsame⟩ := hsquare (by decide)
  obtain ⟨q', hq', -, hrow⟩ := hback _ _ pathEdges_rearranges
  exact ⟨hmade, ⟨p, hp, hholds, hsame _ _ pathEdges_rearranges⟩, q, q', hq, hq', hrow⟩

/-- Where the endpoints are `2 ^ 60`, the diagonal has no room. -/
theorem manyEndpoints_noSquare :
    ∃ t, ofTuples "E" "V" (2 ^ 60) 1 #[] = .ok t ∧ t.squarePattern? = none :=
  ⟨⟨"E", "V", 2 ^ 60, 1, #[]⟩, by decide +kernel, by decide⟩

end Topology

end GraphTensor
