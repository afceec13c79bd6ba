import GraphTensor.Table
import GraphTensor.Topology.Basic
set_option autoImplicit false

/-! # The topologies of one execution

An arena (`TopologyArena`) numbers topologies in the order in which they come in and holds at most
one for each relation. It keeps the topologies in a list and, beside it, the number of each
relation: `TopologyArena.get?` goes from a number to its topology, `TopologyArena.handleOf?` from a
relation to its number. A number, once given out, names the same topology for good.

The numbers of fewer than `2 ^ 32` topologies take 32 bits. `TopologyArena.insert` leaves out the
cast to them, so its numbers are those of a run for arenas of that size. -/

namespace GraphTensor

/-- Topologies, numbered by their place. -/
structure TopologyArena where
  /-- The topologies in the order of their insertion. -/
  topologies : Array Topology
  /-- The number of each relation's topology. -/
  handles : Table SetName Nat
deriving DecidableEq, Repr

/-- The text of a topology's number. -/
def TopologyArena.handleText (handle : Nat) : String :=
  s!"topology#{handle}"

namespace TopologyArena

/-- The arena without topologies. -/
def empty : TopologyArena :=
  ⟨#[], Table.empty⟩

instance : Inhabited TopologyArena := ⟨empty⟩

/-- The number of topologies. -/
def size (a : TopologyArena) : Nat :=
  a.topologies.size

/-- The number of a relation's topology. -/
def handleOf? (a : TopologyArena) (relation : SetName) : Option Nat :=
  a.handles.get? relation

/-- The topology with a number. -/
def get? (a : TopologyArena) (handle : Nat) : Option Topology :=
  a.topologies[handle]?

/-- The topology of a relation. -/
def ofRelation? (a : TopologyArena) (relation : SetName) : Option Topology :=
  (a.handleOf? relation).bind a.get?

/-- Adds a topology and answers its number. If the relation has a topology already, that is the
    error. A number takes 32 bits, and the cast to them is left out: it changes nothing as long as
    the arena holds fewer than `2 ^ 32` topologies, and past that the numbers of a run start over,
    which those here do not. -/
def insert (a : TopologyArena) (t : Topology) : TopologyArena × Except TopologyError Nat :=
  if a.handles.contains t.relation then (a, .error (.duplicate t.relation))
  else
    let handle := a.topologies.size
    (⟨a.topologies.push t, a.handles.insert t.relation handle⟩, .ok handle)

/-- The topologies with their numbers, first inserted first. -/
def toList (a : TopologyArena) : List (Nat × Topology) :=
  a.topologies.toList.zipIdx.map fun (t, handle) => (handle, t)

end TopologyArena

end GraphTensor
