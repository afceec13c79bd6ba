import GraphTensor.Proofs.Topology.Patterns
set_option autoImplicit false

/-! # The endpoints of an element

The tuples of a topology are cut into elements with as many endpoints each as the arity says, and
nothing is left over. So the endpoint in a slot can be read out of the tuple of its element
(`Topology.inSlot?`), or from its place in the array of all tuples (`Topology.endpoint`), and both
readings agree.

The place in the array is worked out before the element is looked at. Within the relation it is
below the number of tuples; for an element far outside it may not even be a word, and then reading
aborts where there is just no endpoint. `Topology.Reads` lists the three outcomes, and which of them
an element and a slot have is told by the place alone. -/

namespace GraphTensor

namespace Topology

variable {t : Topology} {e slot v : Nat}

/-! ## Elements and places -/

namespace WellFormed

theorem size_mul_arity (h : t.WellFormed) : t.size * t.arity = t.tuples.size :=
  Nat.div_mul_cancel h.even

theorem place_lt_iff (h : t.WellFormed) (hslot : slot < t.arity) :
    e * t.arity + slot < t.tuples.size ↔ e < t.size := by
  rw [← h.size_mul_arity]
  constructor
  · intro hlt
    exact Nat.lt_of_mul_lt_mul_right (Nat.lt_of_le_of_lt (Nat.le_add_right ..) hlt)
  · intro he
    have hnext := Nat.mul_le_mul_right t.arity (Nat.succ_le_of_lt he)
    rw [Nat.succ_mul] at hnext
    omega

end WellFormed

/-! ## The tuple of an element -/

/-- The endpoint in a slot, read out of the tuple of its element. -/
def inSlot? (t : Topology) (e slot : Nat) : Option Nat :=
  t.elements[e]?.bind (·[slot]?)

theorem getElem?_elements (t : Topology) (e : Nat) : t.elements[e]? = t.endpoints? e := by
  rw [elements, endpoints?, List.getElem?_map]
  split
  · next he => rw [List.getElem?_range he, Option.map_some]
  · next he => rw [List.getElem?_eq_none (by simpa using he), Option.map_none]

theorem length_elements (t : Topology) : t.elements.length = t.size := by
  rw [elements, List.length_map, List.length_range]

theorem inSlot?_of_arity_le (t : Topology) (e : Nat) (hslot : t.arity ≤ slot) :
    t.inSlot? e slot = none := by
  rw [inSlot?, getElem?_elements, endpoints?]
  split
  · rw [Option.bind_some, getElem?_endpoints, if_neg (Nat.not_lt.2 hslot)]
  · rfl

namespace WellFormed

theorem inSlot?_eq (h : t.WellFormed) (hslot : slot < t.arity) :
    t.inSlot? e slot = t.tuples[e * t.arity + slot]? := by
  rw [inSlot?, getElem?_elements, endpoints?]
  split
  · rw [Option.bind_some, getElem?_endpoints, if_pos hslot]
  · next he =>
      -- past the last element its places are past the last tuple
      have hplace : ¬ e * t.arity + slot < t.tuples.size := mt (h.place_lt_iff hslot).1 he
      rw [Option.bind_none, Array.getElem?_eq_none (Nat.le_of_not_lt hplace)]

theorem isSome_inSlot?_iff (h : t.WellFormed) :
    (t.inSlot? e slot).isSome = true ↔ e < t.size ∧ slot < t.arity := by
  rcases Nat.lt_or_ge slot t.arity with hslot | hslot
  · rw [h.inSlot?_eq hslot, isSome_getElem?, h.place_lt_iff hslot, and_iff_left hslot]
  · rw [inSlot?_of_arity_le t e hslot]
    exact iff_of_false Bool.false_ne_true fun hin => Nat.not_lt.2 hslot hin.2

theorem lt_of_inSlot? (h : t.WellFormed) (hv : t.inSlot? e slot = some v) :
    v < t.endpointCount := by
  obtain ⟨_, hslot⟩ := h.isSome_inSlot?_iff.1 (Option.isSome_iff_exists.2 ⟨v, hv⟩)
  rw [h.inSlot?_eq hslot] at hv
  exact h.inRange v (Array.mem_of_getElem? hv)

theorem length_of_mem_elements (h : t.WellFormed) {es : List Nat} (hes : es ∈ t.elements) :
    es.length = t.arity := by
  obtain ⟨e, he, rfl⟩ := mem_elements_iff.1 hes
  have hstop := Nat.mul_le_mul_right t.arity (Nat.succ_le_of_lt he)
  rw [Nat.succ_mul, h.size_mul_arity] at hstop
  simp only [endpoints, Array.length_toList, Array.size_extract]
  omega

theorem flatten_elements (h : t.WellFormed) : t.elements.flatten = t.tuples.toList := by
  -- the first elements use up the first tuples
  have hfirst : ∀ n, (List.range n).flatMap t.endpoints = t.tuples.toList.take (n * t.arity) := by
    intro n
    induction n with
    | zero => simp
    | succ n ih =>
        rw [List.range_succ, List.flatMap_append, ih, Nat.succ_mul, List.take_add]
        simp [endpoints, List.extract_eq_take_drop]
  rw [elements, ← List.flatMap_def, hfirst, h.size_mul_arity, ← Array.length_toList,
    List.take_length]

end WellFormed

/-! ## The place of an endpoint -/

section

variable {ε : Type}

/-- Where its place can be worked out, an endpoint is read as from the tuple of its element. -/
theorem WellFormed.endpoint_eq_ok (h : t.WellFormed)
    (hplace : t.arity ≤ slot ∨ e * t.arity + slot < Word.bound) :
    (t.endpoint e slot : Outcome ε (Option Nat)) = .ok (t.inSlot? e slot) := by
  rcases Nat.lt_or_ge slot t.arity with hslot | hslot
  · have hword := hplace.resolve_left (Nat.not_le.2 hslot)
    rw [endpoint, if_neg (Nat.not_le.2 hslot), if_pos hword, h.inSlot?_eq hslot]
  · rw [endpoint, if_pos hslot, inSlot?_of_arity_le t e hslot]

theorem endpoint_eq_abort (hslot : slot < t.arity) (hplace : Word.bound ≤ e * t.arity + slot) :
    (t.endpoint e slot : Outcome ε (Option Nat)) = .error .abort := by
  rw [endpoint, if_neg (Nat.not_le.2 hslot), if_neg (Nat.not_lt.2 hplace)]

/-- Only the place of an element outside the relation may not be a word. -/
theorem WellFormed.size_le_of_bound_le (h : t.WellFormed) (hword : t.tuples.size < Word.bound)
    (hslot : slot < t.arity) (hplace : Word.bound ≤ e * t.arity + slot) : t.size ≤ e := by
  by_contra he
  have hin := (h.place_lt_iff hslot).2 (Nat.lt_of_not_le he)
  omega

/-- How the endpoint in a slot of an element is read. -/
structure Reads (ε : Type) (t : Topology) (e slot : Nat) : Prop where
  /-- There is one just in the slots of the elements of the relation. -/
  isSome_iff : (t.inSlot? e slot).isSome = true ↔ e < t.size ∧ slot < t.arity
  /-- It is an element of the endpoint set. -/
  lt : ∀ v, t.inSlot? e slot = some v → v < t.endpointCount
  /-- The tuple cut out of the array for the element has it in this slot. -/
  tuple : (t.endpoints? e).bind (·[slot]?) = t.inSlot? e slot
  /-- It is the answer, if its place is a word or there is no such slot. -/
  answer : t.arity ≤ slot ∨ e * t.arity + slot < Word.bound →
    (t.endpoint e slot : Outcome ε (Option Nat)) = .ok (t.inSlot? e slot)
  /-- Otherwise the element is outside the relation, and there is no answer. -/
  abort : slot < t.arity → Word.bound ≤ e * t.arity + slot →
    t.size ≤ e ∧ (t.endpoint e slot : Outcome ε (Option Nat)) = .error .abort

theorem WellFormed.reads (h : t.WellFormed) (hword : t.tuples.size < Word.bound) (e slot : Nat) :
    t.Reads ε e slot where
  isSome_iff := h.isSome_inSlot?_iff
  lt _ := h.lt_of_inSlot?
  tuple := by rw [inSlot?, getElem?_elements]
  answer := h.endpoint_eq_ok
  abort hslot hplace := ⟨h.size_le_of_bound_le hword hslot hplace, endpoint_eq_abort hslot hplace⟩

/-- **Endpoints.** Tuples make a topology just if the arity is not zero, they come out even and every
    endpoint exists. The elements of the topology are its tuples, with as many endpoints each as the
    arity says and nothing left over. Each slot of each element has an endpoint, and no other slot and no
    other element has one. Reading an endpoint, or the parent of an element, answers just that, unless
    the place that is worked out is no word; then the element is outside the relation, and reading
    aborts. -/
theorem endpoint_exact {relation endpointSet : SetName} {count arity : Nat} {tuples : Array Nat}
    (hword : tuples.size < Word.bound) :
    ((∃ t, ofTuples relation endpointSet count arity tuples = .ok t) ↔
      0 < arity ∧ arity ∣ tuples.size ∧ ∀ v ∈ tuples, v < count) ∧
    ∀ t, ofTuples relation endpointSet count arity tuples = .ok t →
      t = ⟨relation, endpointSet, count, arity, tuples⟩ ∧
      (t.elements.length = t.size ∧ (∀ es ∈ t.elements, es.length = arity) ∧
        t.elements.flatten = tuples.toList) ∧
      ∀ e, (∀ slot, t.Reads ε e slot) ∧
        (e * arity < Word.bound →
          (t.parentOf e : Outcome ε (Option Nat)) = .ok (t.inSlot? e 0)) ∧
        (Word.bound ≤ e * arity →
          t.size ≤ e ∧ (t.parentOf e : Outcome ε (Option Nat)) = .error .abort) := by
  constructor
  · constructor
    · rintro ⟨t, ht⟩
      obtain ⟨rfl, harity, heven, hin⟩ := ofTuples_eq_ok_iff.1 ht
      exact ⟨harity, heven, hin⟩
    · rintro ⟨harity, heven, hin⟩
      exact ⟨_, ofTuples_eq_ok_iff.2 ⟨rfl, harity, heven, hin⟩⟩
  · intro t ht
    obtain ⟨rfl, h⟩ := ofTuples_eq_ok_iff.1 ht
    refine ⟨rfl, ⟨length_elements _, fun es => h.length_of_mem_elements, h.flatten_elements⟩,
      fun e => ?_⟩
    -- the parent is the endpoint in the first slot
    exact ⟨h.reads hword e, fun hplace => (h.reads hword e 0).answer (Or.inr hplace),
      (h.reads hword e 0).abort h.arity_pos⟩

end

/-- The second edge of a path of three endpoints: its endpoints are those of its tuple, there is no
    third one, and its parent is the first. A third edge has no endpoint. -/
theorem pathOfThree_endpoints :
    let t : Topology := ⟨"E", "V", 3, 2, #[0, 1, 1, 2]⟩
    t.tuples.size < Word.bound ∧ ofTuples "E" "V" 3 2 #[0, 1, 1, 2] = .ok t ∧
      (t.endpoint 1 1 : Outcome TopologyError (Option Nat)) = .ok (some 2) ∧
      (t.endpoint 1 2 : Outcome TopologyError (Option Nat)) = .ok none ∧
      (t.endpoint 2 0 : Outcome TopologyError (Option Nat)) = .ok none ∧
      (t.parentOf 1 : Outcome TopologyError (Option Nat)) = .ok (some 1) := by
  intro t
  have hword : #[0, 1, 1, 2].size < Word.bound := by decide
  have hmade : ofTuples "E" "V" 3 2 #[0, 1, 1, 2] = .ok t := by decide +kernel
  obtain ⟨_, hreads⟩ := @endpoint_exact TopologyError "E" "V" 3 2 #[0, 1, 1, 2] hword
  obtain ⟨_, _, hall⟩ := hreads t hmade
  obtain ⟨hedge, hparent, _⟩ := hall 1
  obtain ⟨hlast, hbeyond, houtside, hfirst⟩ : t.inSlot? 1 1 = some 2 ∧ t.inSlot? 1 2 = none ∧
    t.inSlot? 2 0 = none ∧ t.inSlot? 1 0 = some 1 := by decide
  refine ⟨hword, hmade, ?_, ?_, ?_, ?_⟩
  · rw [(hedge 1).answer (by decide), hlast]
  · rw [(hedge 2).answer (by decide), hbeyond]
  · rw [((hall 2).1 0).answer (by decide), houtside]
  · rw [hparent (by decide), hfirst]

/-- Element `2 ^ 63` of that path is outside the relation, and asking for its first endpoint, or for its
    parent, aborts. -/
theorem farElement_aborts :
    ∃ t, ofTuples "E" "V" 3 2 #[0, 1, 1, 2] = .ok t ∧ t.size ≤ 2 ^ 63 ∧ 2 ^ 63 < Word.bound ∧
      (t.endpoint (2 ^ 63) 0 : Outcome TopologyError (Option Nat)) = .error .abort ∧
      (t.parentOf (2 ^ 63) : Outcome TopologyError (Option Nat)) = .error .abort := by
  refine ⟨⟨"E", "V", 3, 2, #[0, 1, 1, 2]⟩, by decide +kernel, by decide, by decide, ?_, ?_⟩
  · exact endpoint_eq_abort (by decide) (by decide)
  · exact endpoint_eq_abort (by decide) (by decide)

end Topology

end GraphTensor
