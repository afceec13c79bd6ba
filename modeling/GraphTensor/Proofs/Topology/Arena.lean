import GraphTensor.Proofs.Table
import GraphTensor.Topology.Arena
import Mathlib.Data.List.Basic
set_option autoImplicit false

/-! # Numbers that stay

An arena keeps its topologies in a list and the number of each relation in a table. Both grow
together, one topology and one number at a time, so a relation has a number just if the topology
with this number is that of the relation (`TopologyArena.Linked`).

Insertions only ever append (`TopologyArena.insert_cases`). A number that has been given out
therefore keeps its topology and its relation, whatever is inserted later
(`TopologyArena.insertAll`), and an arena holds the topologies whose insertion succeeded, in the
order of the insertions. `TopologyArena.Names` puts together what a caller knows who holds a number
and the relation it was given for. -/

namespace GraphTensor

namespace TopologyArena

variable {a b : TopologyArena} {t : Topology} {relation : SetName} {handle : Nat}

/-! ## The list and the table -/

/-- The list of topologies and the table of numbers belong together, one to one. -/
structure Linked (a : TopologyArena) : Prop where
  /-- The table lists the relations of the topologies in their order. -/
  keys : a.handles.keys = a.topologies.toList.map Topology.relation
  /-- The number of a relation is the place of its topology. -/
  handleOf?_iff : ∀ relation handle, a.handleOf? relation = some handle ↔
    ∃ t, a.get? handle = some t ∧ t.relation = relation

theorem linked_empty : empty.Linked where
  keys := rfl
  handleOf?_iff relation handle := by
    constructor
    · intro h
      cases h
    · rintro ⟨t, ht, _⟩
      cases ht

namespace Linked

theorem handleOf?_of_get? (h : a.Linked) (ht : a.get? handle = some t) :
    a.handleOf? t.relation = some handle :=
  (h.handleOf?_iff _ _).2 ⟨t, ht, rfl⟩

theorem ofRelation?_of_get? (h : a.Linked) (ht : a.get? handle = some t) :
    a.ofRelation? t.relation = some t := by
  rw [ofRelation?, h.handleOf?_of_get? ht, Option.bind_some, ht]

theorem isSome_handleOf?_iff (h : a.Linked) :
    (a.handleOf? relation).isSome = true ↔ ∃ t ∈ a.topologies.toList, t.relation = relation := by
  rw [Option.isSome_iff_exists]
  constructor
  · rintro ⟨handle, hhandle⟩
    obtain ⟨t, ht, hrelation⟩ := (h.handleOf?_iff relation handle).1 hhandle
    exact ⟨t, Array.mem_toList_iff.2 (Array.mem_of_getElem? ht), hrelation⟩
  · rintro ⟨t, ht, rfl⟩
    obtain ⟨handle, hhandle⟩ := List.getElem?_of_mem ht
    rw [Array.getElem?_toList] at hhandle
    exact ⟨handle, h.handleOf?_of_get? hhandle⟩

end Linked

/-! ## One insertion -/

/-- The arena with a topology under the next number. -/
def push (a : TopologyArena) (t : Topology) : TopologyArena :=
  ⟨a.topologies.push t, a.handles.insert t.relation a.size⟩

/-- **An insertion** fails and changes nothing if the relation has a number, and otherwise appends
    the topology and answers the next number. -/
theorem insert_cases (a : TopologyArena) (t : Topology) :
    ((a.handleOf? t.relation).isSome = true ∧ a.insert t = (a, .error (.duplicate t.relation))) ∨
      a.handleOf? t.relation = none ∧ a.insert t = (a.push t, .ok a.size) := by
  by_cases hcontains : a.handles.contains t.relation = true
  · exact .inl ⟨hcontains, if_pos hcontains⟩
  · exact .inr ⟨Option.not_isSome_iff_eq_none.1 hcontains, if_neg hcontains⟩

theorem get?_push (a : TopologyArena) (t : Topology) (handle : Nat) :
    (a.push t).get? handle = if handle = a.size then some t else a.get? handle :=
  Array.getElem?_push

theorem handleOf?_push (a : TopologyArena) (t : Topology) (relation : SetName) :
    (a.push t).handleOf? relation =
      if t.relation == relation then some a.size else a.handleOf? relation :=
  Table.get?_insert ..

theorem Linked.push (h : a.Linked) (hnew : a.handleOf? t.relation = none) : (a.push t).Linked where
  keys := by
    have hcontains : a.handles.contains t.relation = false := congrArg Option.isSome hnew
    rw [TopologyArena.push, Table.keys_insert, hcontains, h.keys]
    simp
  handleOf?_iff relation handle := by
    have hfresh : a.get? a.size = none := Array.getElem?_eq_none (Nat.le_refl _)
    rw [handleOf?_push, get?_push]
    by_cases hrelation : t.relation = relation
    · -- no topology that is there already has the relation of the new one
      subst hrelation
      have hold : ∀ t', a.get? handle = some t' → t'.relation ≠ t.relation := by
        intro t' ht' heq
        rw [← heq, h.handleOf?_of_get? ht'] at hnew
        cases hnew
      rw [if_pos (beq_self_eq_true _)]
      constructor
      · intro heq
        exact ⟨t, if_pos (Option.some.inj heq).symm, rfl⟩
      · rintro ⟨t', ht', heq⟩
        split at ht'
        · next hlast => exact congrArg some hlast.symm
        · exact absurd heq (hold t' ht')
    · rw [if_neg (by simpa using hrelation), h.handleOf?_iff]
      refine exists_congr fun t' => and_congr_left fun heq => ?_
      split
      · next hlast =>
          -- the new topology has another relation
          subst hlast
          rw [hfresh]
          refine iff_of_false nofun fun hsome => hrelation ?_
          rw [Option.some.inj hsome, heq]
      · rfl

theorem Linked.insert (h : a.Linked) (t : Topology) : (a.insert t).1.Linked := by
  obtain ⟨_, hinsert⟩ | ⟨hnew, hinsert⟩ := insert_cases a t
  · rw [hinsert]
    exact h
  · rw [hinsert]
    exact h.push hnew

/-- Adding a topology gives its relation that topology, and changes nothing for the others. -/
theorem Linked.ofRelation?_insert (h : a.Linked) (hinsert : a.insert t = (b, .ok handle))
    (relation : SetName) :
    a.handleOf? t.relation = none ∧
      b.ofRelation? relation = if relation = t.relation then some t else a.ofRelation? relation := by
  obtain ⟨_, hfailed⟩ | ⟨hnew, hdone⟩ := insert_cases a t
  · rw [hfailed] at hinsert
    cases (Prod.mk.inj hinsert).2
  · obtain rfl : a.push t = b := (Prod.mk.inj (hdone.symm.trans hinsert)).1
    refine ⟨hnew, ?_⟩
    rw [ofRelation?, handleOf?_push]
    by_cases heq : relation = t.relation
    · rw [heq, if_pos (beq_self_eq_true _), if_pos rfl, Option.bind_some, get?_push, if_pos rfl]
    · rw [if_neg (by simpa using Ne.symm heq), if_neg heq, ofRelation?]
      refine Option.bind_congr fun i hi => ?_
      obtain ⟨t', ht', _⟩ := (h.handleOf?_iff relation i).1 hi
      have hlt : i < a.size := (Array.getElem?_eq_some_iff.1 ht').1
      rw [get?_push, if_neg (Nat.ne_of_lt hlt)]

/-! ## All insertions -/

/-- The arena after the insertion of some topologies, one after another. -/
def insertAll (a : TopologyArena) (ts : List Topology) : TopologyArena :=
  ts.foldl (fun a t => (a.insert t).1) a

/-- The topologies whose insertion succeeds, one after another. -/
def inserted (a : TopologyArena) : List Topology → List Topology
  | [] => []
  | t :: rest =>
    match (a.insert t).2 with
    | .ok _ => t :: (a.insert t).1.inserted rest
    | .error _ => (a.insert t).1.inserted rest

theorem Linked.insertAll (h : a.Linked) (ts : List Topology) : (a.insertAll ts).Linked := by
  induction ts generalizing a with
  | nil => exact h
  | cons t rest ih => exact ih (h.insert t)

theorem topologies_insertAll (a : TopologyArena) (ts : List Topology) :
    (a.insertAll ts).topologies.toList = a.topologies.toList ++ a.inserted ts := by
  induction ts generalizing a with
  | nil => exact (List.append_nil _).symm
  | cons t rest ih =>
      rw [insertAll, List.foldl_cons, ← insertAll, ih, inserted]
      obtain ⟨_, hinsert⟩ | ⟨_, hinsert⟩ := insert_cases a t
      · rw [hinsert]
      · rw [hinsert, push, Array.toList_push, List.append_assoc, List.singleton_append]

theorem get?_insertAll (ht : a.get? handle = some t) (ts : List Topology) :
    (a.insertAll ts).get? handle = some t := by
  rw [get?, ← Array.getElem?_toList] at ht ⊢
  obtain ⟨hlt, _⟩ := List.getElem?_eq_some_iff.1 ht
  rw [topologies_insertAll, List.getElem?_append_left hlt, ht]

theorem Linked.nodup_relations (h : a.Linked) :
    (a.topologies.toList.map Topology.relation).Nodup := by
  rw [List.Nodup, List.pairwise_iff_getElem]
  intro i j hi hj hij heq
  rw [List.length_map, Array.length_toList] at hi hj
  rw [List.getElem_map, List.getElem_map, Array.getElem_toList, Array.getElem_toList] at heq
  have hfirst := h.handleOf?_of_get? (Array.getElem?_eq_getElem hi)
  rw [heq, h.handleOf?_of_get? (Array.getElem?_eq_getElem hj)] at hfirst
  exact Nat.ne_of_gt hij (Option.some.inj hfirst)

/-- A number and a relation name one topology. -/
structure Names (a : TopologyArena) (handle : Nat) (t : Topology) : Prop where
  /-- The topology has the number. -/
  get? : a.get? handle = some t
  /-- Its relation has the number. -/
  handleOf? : a.handleOf? t.relation = some handle
  /-- Its relation has the topology. -/
  ofRelation? : a.ofRelation? t.relation = some t

theorem Linked.names (h : a.Linked) (ht : a.get? handle = some t) : a.Names handle t :=
  ⟨ht, h.handleOf?_of_get? ht, h.ofRelation?_of_get? ht⟩

/-- **Numbers that stay.** Whatever has been inserted into an empty arena, its list and its table
    belong together, no relation comes twice, and it holds the topologies whose insertion
    succeeded, numbered in the order of the insertions. The next insertion fails just if one of
    them has the same relation, and then it changes nothing. Otherwise it answers the next number,
    and number, relation and topology belong together from then on, whatever is inserted later.

    Numbers are unbounded here (`TopologyArena.insert`). For arenas whose numbers take 32 bits this is
    about those of fewer than `2 ^ 32` topologies, `later` included. -/
theorem names_of_insert (earlier : List Topology) (t : Topology) :
    let a := empty.insertAll earlier
    let done := empty.inserted earlier
    (a.Linked ∧ (done.map Topology.relation).Nodup ∧
      a.toList = done.zipIdx.map fun (t, handle) => (handle, t)) ∧
    (∀ e, (a.insert t).2 = .error e ↔
      e = .duplicate t.relation ∧ ∃ first ∈ done, first.relation = t.relation) ∧
    (∀ e, (a.insert t).2 = .error e → (a.insert t).1 = a) ∧
    ∀ handle, (a.insert t).2 = .ok handle →
      handle = done.length ∧ ∀ later, ((a.insert t).1.insertAll later).Names handle t := by
  intro a done
  have hlinked : a.Linked := linked_empty.insertAll earlier
  have hdone : a.topologies.toList = done := topologies_insertAll empty earlier
  have hsize : a.size = done.length := by rw [← hdone, Array.length_toList, size]
  refine ⟨⟨hlinked, hdone ▸ hlinked.nodup_relations, by rw [toList, hdone]⟩, ?_⟩
  have hknown : (a.handleOf? t.relation).isSome = true ↔
      ∃ first ∈ done, first.relation = t.relation :=
    hdone ▸ hlinked.isSome_handleOf?_iff
  obtain ⟨hsome, hinsert⟩ | ⟨hnew, hinsert⟩ := insert_cases a t
  · rw [hinsert]
    refine ⟨fun e => ?_, fun _ _ => rfl, nofun⟩
    rw [and_iff_left (hknown.1 hsome), Except.error.injEq]
    exact eq_comm
  · have hnone : ¬ ∃ first ∈ done, first.relation = t.relation := fun hfirst => by
      rw [← hknown, hnew] at hfirst
      cases hfirst
    rw [hinsert]
    refine ⟨fun e => iff_of_false nofun fun h => hnone h.2, nofun, fun handle hok => ?_⟩
    obtain rfl : a.size = handle := Except.ok.inj hok
    refine ⟨hsize, fun later => ((hlinked.push hnew).insertAll later).names ?_⟩
    refine get?_insertAll ?_ later
    rw [get?_push, if_pos rfl]

/-- The second edge of a path comes too late for the relation, and the subset after it has the next
    number. -/
example :
    let edge : Topology := ⟨"E", "V", 3, 2, #[0, 1]⟩
    let subset : Topology := ⟨"D", "V", 3, 1, #[2]⟩
    let a := empty.insertAll [edge, { edge with tuples := #[1, 2] }, subset]
    a.toList = [(0, edge), (1, subset)] ∧ a.handleOf? "D" = some 1 := by decide

end TopologyArena

end GraphTensor
