import GraphTensor.Machine.Run
set_option autoImplicit false

/-! # The system of a graph

The smallest complete program (`EdgeSystem.func`): every edge of a graph adds a 2×2 matrix, scaled
by the weight of the edge, at its two ends (`EdgeSystem.edgeBody`), and the sum is solved for a
right-hand side. Vertices that are marked as fixed keep the value that is given for them
(`EdgeSystem.task`). The solution is written back into a field of the vertices.

`EdgeSystem.graph` binds a graph with given weights, and `EdgeSystem.path` is the one that runs
along the vertices; `EdgeSystem.vertexData?` makes the fields of the vertices out of lists of blocks
and of fixed values. -/

namespace GraphTensor

namespace EdgeSystem

/-! ## Sets -/

/-- The set of the vertices. -/
def vertices : SetName :=
  "V"

/-- The relation of the edges. -/
def edges : SetName :=
  "E"

/-- The field of the vertices that marks the fixed ones. -/
def marker : FieldName :=
  "fixed"

/-- The vertices with a right-hand side, values of fixed unknowns, marks and a solution. -/
def vertexSet (block : BlockShape) : SetDecl :=
  (SetDecl.plain vertices).withField "b" (.float block)
    |>.withField "x0" (.float block)
    |>.withField marker .bool
    |>.withField "x" (.float block)

/-- The edges with a weight each. -/
def edgeSet : SetDecl :=
  (SetDecl.relation edges vertices 2).withField "a" (.float .scalar)

/-! ## The program -/

variable {α : Type}

/-- What an edge adds at two of its ends: its weight times an entry of the kernel. -/
def contribution (kernel : Fin 2 → Fin 2 → α) (k : KernelVars) (p q : Fin 2) : Stmt α :=
  .contribute "A" [k.endpointExpr p, k.endpointExpr q]
    (.binary .mul (.literal (.float (kernel p q))) (k.fieldExpr "a"))

/-- What an edge adds, row after row. -/
def edgeBody (kernel : Fin 2 → Fin 2 → α) (k : KernelVars) : List (Stmt α) :=
  [(0, 0), (0, 1), (1, 0), (1, 1)].map fun (p, q) => contribution kernel k p q

/-- The solve of the assembled system. -/
def task : DirectSolve where
  matrix := "A"
  rhs := "b"
  result := "x"
  boundary := some ⟨vertices, marker, "x0"⟩

/-- The program for a kernel: it assembles the matrix, solves and writes the solution back. -/
def func (kernel : Fin 2 → Fin 2 → α) : Func α :=
  let vector := TensorType.vector vertices .scalar
  (Func.named "edge_system").withSet (vertexSet .scalar)
    |>.withSet edgeSet
    |>.withLocal "A" (.matrix vertices vertices .scalar)
    |>.withLocal "b" vector
    |>.withLocal "x0" vector
    |>.withResult "x" vector
    |>.withAssembly ["A"] edges (edgeBody kernel)
    |>.withStmt (.assign "b" (.field vertices "b"))
    |>.withStmt (.assign "x0" (.field vertices "x0"))
    |>.withStmt (.solve (.direct task))
    |>.withStmt (.fieldWrite vertices "x" "x")

/-! ## Bindings -/

/-- The bindings of a graph: the data of its vertices, and its edges with their weights. -/
def graph (vertexData : SetData α) (ends : List (Nat × Nat)) (weights : Array α) : Bindings α :=
  let tuples := ends.flatMap fun (p, q) => [p, q]
  Bindings.empty.withSet vertices vertexData
    |>.withSet edges ((SetData.relation 2 tuples.toArray).withScalars "a" weights)

/-- The bindings of a path, with an edge from each vertex to the next for each weight. -/
def path (vertexData : SetData α) (weights : Array α) : Bindings α :=
  graph vertexData ((List.range weights.size).map fun i => (i, i + 1)) weights

variable [Scalar α]

/-- A vector of zeros with values put at places, a later one replacing an earlier one. -/
def scatterValues (size : Nat) (fixed : List (Nat × α)) : Array α :=
  fixed.foldl (fun values (v, x) => values.setIfInBounds v x) (Array.replicate size 0)

/-- The data of the vertices: their right-hand side, and which of them are fixed to which values.
    Marks are bound only if something is fixed; every fixed vertex has to exist. -/
def vertexData? (rhs : Array α) (fixed : List (Nat × α)) : Option (SetData α) :=
  if fixed.all fun (v, _) => v < rhs.size then
    let data := (SetData.plain rhs.size).withScalars "b" rhs
      |>.withScalars "x0" (scatterValues rhs.size fixed)
    let marks := (List.range rhs.size).map fun v => fixed.any (·.1 == v)
    some (if fixed.isEmpty then data else data.withField marker (.bool marks))
  else none

end EdgeSystem

end GraphTensor
