import GraphTensor.Binding.Basic
import GraphTensor.Storage.Basic
import GraphTensor.Topology.Arena
set_option autoImplicit false

/-! # Resolving references to patterns

Bindings turn the relations of a function into topologies (`Resolution.ofBindings`), and these turn
references to patterns into patterns (`Resolution.build`). A relation `R` with endpoints in `V`
gives the square pattern over `V` and `V`, the incidence pattern over `R` and `V` and its transpose
over `V` and `R`, tried in this order; a diagonal is over one set.

The patterns that a function uses (`Func.patterns`, with those of its descriptors) are resolved
before it runs (`Resolution.prepare`), so that a reference which cannot be resolved is an error even
if nothing ever gets to it. A `Resolution` keeps what it has built, with the sizes of the sets, and
a run asks it for `Resolution.pattern`, `Resolution.topology` and `Resolution.extent`. -/

namespace GraphTensor

/-- The sizes, topologies and patterns of one run. -/
structure Resolution where
  /-- The number of elements of each declared set. -/
  sizes : Table SetName Nat
  /-- The topologies of the relations. -/
  arena : TopologyArena
  /-- The patterns that are resolved already. -/
  patterns : Table PatternRef Pattern

/-- The patterns that a loop's header refers to. -/
def Loop.patterns {α : Type} : Loop α → List PatternRef
  | elements _ _ => []
  | range _ _ => []
  | pattern p _ _ _ => [p]
  | row p _ _ _ => [p]
  | intersect left right _ _ _ _ _ => [left, right]

/-- The pattern that an expression looks a place up in. -/
def Expr.locatePattern? {α : Type} : Expr α → Option PatternRef
  | locate p _ _ _ => some p
  | _ => none

/-- The patterns that a statement refers to, without those of its children: the ones of a loop's
    header, then the ones in which its expressions look places up. -/
def Stmt.patterns {α : Type} (s : Stmt α) : List PatternRef :=
  let looped := match s with
    | loop header _ => header.patterns
    | _ => []
  looped ++ s.exprs.flatMap fun e => e.subexprs.filterMap Expr.locatePattern?

/-- The patterns that a function refers to: those of its descriptors, then those of its body. -/
def Func.patterns {α : Type} (f : Func α) (storages : Storages) : List PatternRef :=
  storages.values.filterMap TensorStorage.pattern? ++
    (Stmt.substmtsOfList f.body).flatMap Stmt.patterns

namespace Resolution

variable {α : Type}

/-- Nothing resolved. -/
def empty : Resolution :=
  ⟨Table.empty, TopologyArena.empty, Table.empty⟩

/-- The number of elements of a set. -/
def size (r : Resolution) (set : SetName) : Ran Nat :=
  Outcome.orFail (.unboundSet set) (r.sizes.get? set)

/-- The topology of a relation. -/
def topology (r : Resolution) (relation : SetName) : Ran Topology :=
  Outcome.orFail (.unboundSet relation) (r.arena.ofRelation? relation)

/-- The number of values that a domain ranges over. -/
def extent (r : Resolution) : IndexDomain → Ran Nat
  | .set name => r.size name
  | .dense extent => .ok extent

/-! ## From bindings to topologies -/

/-- Adds the size of a declared set. -/
def addSize (b : Bindings α) (r : Resolution) (decl : SetDecl) : Ran Resolution := do
  let data ← b.set decl.name
  return { r with sizes := r.sizes.insert decl.name data.size }

/-- Adds the topology of a declared set, if it is a relation. -/
def addTopology (b : Bindings α) (r : Resolution) (decl : SetDecl) : Ran Resolution :=
  match decl.endpoints with
  | none => .ok r
  | some endpoints => do
    let data ← b.set decl.name
    let tuples := (data.endpoints.map EndpointData.tuples).getD #[]
    let count ← r.size endpoints.set
    let topology ← (Outcome.ofExcept
      (Topology.ofTuples decl.name endpoints.set count endpoints.arity tuples)).mapError .topology
    let (arena, inserted) := r.arena.insert topology
    let _ ← (Outcome.ofExcept inserted).mapError .topology
    return { r with arena := arena }

/-- The sizes of all sets that a function declares, and then the topologies of its relations. -/
def ofBindings (f : Func α) (b : Bindings α) : Ran Resolution := do
  let r ← f.sets.decls.foldlM (addSize b) empty
  f.sets.decls.foldlM (addTopology b) r

/-! ## From references to patterns -/

/-- The error of a reference whose rows and columns do not fit. -/
def misfit (p : PatternRef) (expected : Quality) : Ran Pattern :=
  Ran.mismatch (.pattern p) expected (.rowsAndCols p.rows p.cols)

/-- The pattern that a reference stands for. -/
def build (r : Resolution) (p : PatternRef) : Ran Pattern :=
  match p.source with
  | .diagonal set =>
    if p.rows = set ∧ p.cols = set then do
      let n ← r.size set
      Outcome.orAbort (Pattern.diagonal? n)
    else misfit p (.onSet set)
  | .relation relation => do
    let t ← r.topology relation
    if p.rows = t.endpointSet ∧ p.cols = t.endpointSet then Outcome.orAbort t.squarePattern?
    else if p.rows = relation ∧ p.cols = t.endpointSet then Outcome.orAbort t.incidencePattern?
    else if p.rows = t.endpointSet ∧ p.cols = relation then
      Outcome.orAbort (t.incidencePattern?.bind Pattern.transpose?)
    else misfit p (.drawnFrom relation t.endpointSet)

/-- A reference is resolved already. -/
def isResolved (r : Resolution) (p : PatternRef) : Bool :=
  r.patterns.contains p

/-- Resolves a reference, unless it is resolved already. -/
def resolve (r : Resolution) (p : PatternRef) : Ran Resolution :=
  if r.isResolved p then .ok r
  else do
    let pattern ← r.build p
    return { r with patterns := r.patterns.insert p pattern }

/-- Resolves references from the left, up to the first that cannot be resolved. Those before it are
    resolved in any case. -/
def resolveAll (r : Resolution) : List PatternRef → Resolution × Ran Unit
  | [] => (r, .ok ())
  | p :: rest =>
    match r.resolve p with
    | .ok r => r.resolveAll rest
    | .error fault => (r, .error fault)

/-- Resolves every reference of a function and of its descriptors. -/
def prepare (r : Resolution) (f : Func α) (storages : Storages) : Resolution × Ran Unit :=
  r.resolveAll (f.patterns storages)

/-- The pattern that a reference stands for, resolved already or on the spot. -/
def pattern (r : Resolution) (p : PatternRef) : Ran Pattern :=
  match r.patterns.get? p with
  | some pattern => .ok pattern
  | none => r.build p

end Resolution

end GraphTensor
