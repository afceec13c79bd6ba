import GraphTensor.Names
import GraphTensor.Pattern.Basic
set_option autoImplicit false

/-! # Topologies

A relation ties each of its elements to a fixed number of elements of its endpoint set. The tuples
of its `Topology` stand one after another in one array, `arity` entries each. A subset is a relation
of arity one, whose single endpoint is the parent (`Topology.ofParents`, `Topology.parentOf`).
Tuples are checked when the topology is built (`Topology.ofTuples`), with a `TopologyError` for the
first that is out of range.

A relation induces two patterns: the square one between endpoints that share an element, diagonal
included (`Topology.squarePattern?`), and the rectangular one from elements to their endpoints
(`Topology.incidencePattern?`). Looking an endpoint up (`Topology.endpoint`) forms the place in the
array before it looks whether there is one, and a place that is no word is an abort. -/

namespace GraphTensor

/-- A way in which a relation is not well formed, or is registered twice. -/
inductive TopologyError where
  /-- A relation ties its elements to nothing. -/
  | zeroArity (relation : SetName)
  /-- The tuples do not come out even. -/
  | raggedTuples (relation : SetName) (length arity : Nat)
  /-- An endpoint lies outside the endpoint set. -/
  | endpointOutOfRange (relation : SetName) (element endpoint : Nat) (endpointSet : SetName)
      (count : Nat)
  /-- The relation is registered already. -/
  | duplicate (relation : SetName)
deriving DecidableEq, Repr

/-- The message of an ill-formed relation. -/
def TopologyError.message : TopologyError → String
  | zeroArity relation => s!"relation '{relation}' has arity 0"
  | raggedTuples relation length arity =>
    s!"relation '{relation}' has {length} endpoint entries, not a multiple of arity {arity}"
  | endpointOutOfRange relation element endpoint endpointSet count =>
    s!"relation '{relation}' element {element} refers to endpoint {endpoint}, " ++
      s!"but '{endpointSet}' has {count} elements"
  | duplicate relation => s!"relation '{relation}' already has a topology"

/-- The endpoint tuples of one relation. -/
structure Topology where
  /-- The relation. -/
  relation : SetName
  /-- The set its endpoints belong to. -/
  endpointSet : SetName
  /-- The number of elements of that set. -/
  endpointCount : Nat
  /-- The number of endpoints of an element. -/
  arity : Nat
  /-- The endpoints of all elements, one tuple after another. -/
  tuples : Array Nat
deriving DecidableEq, Repr

namespace Topology

/-- The topology of a relation, if its arity is not zero, its tuples come out even and every
    endpoint exists; the first of these that fails is the error. -/
def ofTuples (relation endpointSet : SetName) (endpointCount arity : Nat) (tuples : Array Nat) :
    Except TopologyError Topology :=
  if arity = 0 then .error (.zeroArity relation)
  else if tuples.size % arity ≠ 0 then .error (.raggedTuples relation tuples.size arity)
  else
    match tuples.findIdx? (endpointCount ≤ ·) with
    | some position =>
      .error (.endpointOutOfRange relation (position / arity) (tuples.getD position 0) endpointSet
        endpointCount)
    | none => .ok ⟨relation, endpointSet, endpointCount, arity, tuples⟩

/-- The topology of a subset: element `d` is element `parents[d]` of the endpoint set. -/
def ofParents (relation endpointSet : SetName) (endpointCount : Nat) (parents : Array Nat) :
    Except TopologyError Topology :=
  ofTuples relation endpointSet endpointCount 1 parents

/-- The number of elements of the relation. -/
def size (t : Topology) : Nat :=
  t.tuples.size / t.arity

/-- The relation has no elements. -/
def isEmpty (t : Topology) : Bool :=
  t.tuples.isEmpty

/-- The endpoints of an element. -/
def endpoints (t : Topology) (element : Nat) : List Nat :=
  (t.tuples.extract (element * t.arity) (element * t.arity + t.arity)).toList

/-- The endpoints of an element of the relation. -/
def endpoints? (t : Topology) (element : Nat) : Option (List Nat) :=
  if element < t.size then some (t.endpoints element) else none

/-- The endpoint of an element in a slot, `none` where there is no such slot or element. The place
    in the array is worked out before the element is looked at, and has to be a word. -/
def endpoint {ε : Type} (t : Topology) (element slot : Nat) : Outcome ε (Option Nat) :=
  if t.arity ≤ slot then .ok none
  else if element * t.arity + slot < Word.bound then .ok t.tuples[element * t.arity + slot]?
  else .error .abort

/-- The parent of an element of a subset. -/
def parentOf {ε : Type} (t : Topology) (element : Nat) : Outcome ε (Option Nat) :=
  t.endpoint element 0

/-- The tuples of all elements in order. -/
def elements (t : Topology) : List (List Nat) :=
  (List.range t.size).map t.endpoints

/-- The ordered pairs of endpoints of one element. -/
def endpointPairs (endpoints : List Nat) : List (Nat × Nat) :=
  endpoints.flatMap fun a => endpoints.map fun b => (a, b)

/-- The pattern between endpoints: the whole diagonal, and every ordered pair of endpoints that
    share an element. -/
def squarePattern? (t : Topology) : Option Pattern :=
  match Word.cells? t.endpointCount 16 with
  | none => none
  | some n =>
    Pattern.ofCoordinates? n n
      ((List.range n).map (fun i => (i, i)) ++ t.elements.flatMap endpointPairs)

/-- The pattern from elements to their endpoints: row `e` holds the endpoints of element `e`. -/
def incidencePattern? (t : Topology) : Option Pattern :=
  Pattern.ofCoordinates? t.size t.endpointCount
    (t.elements.zipIdx.flatMap fun (endpoints, element) => endpoints.map fun v => (element, v))

end Topology

end GraphTensor
