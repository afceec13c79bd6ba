import GraphTensor.EdgeSystem
import GraphTensor.Proofs.Binding.Suiting
import GraphTensor.Proofs.Lowering.Runs
import GraphTensor.Proofs.Machine.Sizes
set_option autoImplicit false

/-! # Runs on graphs

The program of a graph (`EdgeSystem.func`) is lowered to the loop over its edges, two copies of
fields, the solve and the write of the solution (`EdgeSystem.later`). Its one matrix is stored where
edges join vertices (`EdgeSystem.storages`).

A run on a graph that gets past its checks reads sizes, tuples and weights as they were given: an
edge has its two ends, both of them vertices, and one weight. `EdgeSystem.Reads` lists what is read,
and the checks of the run are all that it is proved from. -/

namespace GraphTensor

namespace EdgeSystem

/-! ## Lowering -/

section

variable {α : Type} [Scalar α]

/-- The descriptors of the program: the matrix is stored where edges join vertices. -/
def storages : Storages :=
  ⟨[("A", ⟨.sparse (.square edges vertices), .scalar⟩), ("b", ⟨.dense, .scalar⟩),
    ("x0", ⟨.dense, .scalar⟩), ("x", ⟨.dense, .scalar⟩)]⟩

theorem inferStorage_func (kernel : Fin 2 → Fin 2 → α) :
    (func kernel).inferStorage = .ok storages := by
  let inf := (func kernel).inference Table.empty
  let evidence : Evidence := ⟨[("A", .square edges vertices)]⟩
  have hsettled : inf.propagate evidence.keys evidence = .ok evidence := by
    rw [Inference.propagate]
    rfl
  show (inf.propagate evidence.keys evidence >>= fun _ => _) = _
  rw [hsettled]
  rfl

/-- The statements after the assembly, which lowering leaves as they are. -/
def later : List (Stmt α) :=
  [.assign "b" (.field vertices "b"), .assign "x0" (.field vertices "x0"), .solve (.direct task),
    .fieldWrite vertices "x" "x"]

/-- The variables of an edge's kernel. -/
def kernelVars : KernelVars :=
  ⟨⟨"E.e", .element edges⟩, some ⟨"E.ep", .endpoints edges⟩⟩

omit [Scalar α] in
theorem body_func (kernel : Fin 2 → Fin 2 → α) :
    (func kernel).body = .assemble ["A"] edges kernelVars (edgeBody kernel kernelVars) :: later :=
  rfl

omit [Scalar α] in
theorem flatten_later : (later.map fun s : Stmt α => [s]).flatten = later :=
  rfl

omit [Scalar α] in
theorem lowerStmt_later : ∀ s ∈ (later : List (Stmt α)),
    s.isAssemble = false ∧ s.isContraction = false ∧
      ∀ (c : AccessContext α) (s' : Stmt α), c.lowerStmt s = .ok s' → s' = s := by
  have hchecked : ∀ {β : Type} {check : Lowered β} {s s' : Stmt α},
      (check >>= fun _ => pure s) = (.ok s' : Lowered (Stmt α)) → s' = s := by
    intro β check s s' h
    obtain ⟨_, _, h⟩ := Outcome.bind_eq_ok_iff.1 h
    exact (Except.ok.inj h).symm
  have hfield : ∀ (c : AccessContext α) {var : VarName} {set : SetName} {field : FieldName}
      (s' : Stmt α), c.lowerStmt (.assign var (.field set field)) = .ok s' →
        s' = .assign var (.field set field) := by
    intro c var set field s' h
    rw [AccessContext.lowerStmt, AccessContext.lowerExpr] at h
    exact (Except.ok.inj h).symm
  refine List.forall_mem_cons.2 ⟨⟨rfl, rfl, fun c s' => hfield c s'⟩, List.forall_mem_cons.2
    ⟨⟨rfl, rfl, fun c s' => hfield c s'⟩, List.forall_mem_cons.2 ⟨⟨rfl, rfl, fun c s' h => ?_⟩,
      List.forall_mem_cons.2 ⟨⟨rfl, rfl, fun c s' h => ?_⟩, List.forall_mem_nil _⟩⟩⟩⟩
  · rw [AccessContext.lowerStmt] at h
    exact hchecked h
  · rw [AccessContext.lowerStmt] at h
    exact hchecked h

/-- **The lowered program** runs the group of its assembly and then the later statements. -/
theorem groups_func {kernel : Fin 2 → Fin 2 → α} {options : LowerOptions} {l : LoweredFunc α}
    (h : (func kernel).lower options = .ok l) :
    ∃ assembled contracted group, l = ⟨(func kernel).withBody (group ++ later), storages⟩ ∧
      (func kernel).Groups storages options.search assembled contracted [] 0 (func kernel).body
        (group :: later.map fun s => [s]) := by
  obtain ⟨found, hstorages, h⟩ := Outcome.bind_eq_ok_iff.1 h
  obtain rfl := Except.ok.inj ((inferStorage_func kernel).symm.trans hstorages)
  obtain ⟨assembled, contracted, groups, hgroups, rfl⟩ := Func.groups_of_lowerWith h
  rw [body_func] at hgroups ⊢
  cases hgroups with
  | other hassemble => cases hassemble
  | assembly hloop hlowered hrest =>
      obtain rfl := hrest.eq_singletons lowerStmt_later
      exact ⟨assembled, contracted, _, by rw [List.flatten_cons, flatten_later],
        .assembly hloop hlowered hrest⟩

/-! ## What a machine reads of a graph -/

/-- The ends of an edge stand next to one another among those of all edges. -/
theorem extract_ends (ends : List (Nat × Nat)) {e : Nat} (he : e < ends.length) :
    (ends.flatMap fun edge => [edge.1, edge.2]).extract (e * 2) (e * 2 + 2) =
      [ends[e].1, ends[e].2] := by
  induction ends generalizing e with
  | nil => cases he
  | cons edge rest ih =>
      cases e with
      | zero => simp
      | succ e =>
          have hrest := ih (Nat.lt_of_succ_lt_succ he)
          rw [List.extract_eq_take_drop, Nat.add_sub_cancel_left] at hrest ⊢
          rw [List.flatMap_cons, Nat.succ_mul]
          exact hrest

theorem length_ends (ends : List (Nat × Nat)) :
    (ends.flatMap fun edge => [edge.1, edge.2]).length = ends.length * 2 := by
  induction ends with
  | nil => rfl
  | cons edge rest ih =>
      have hlength : (edge :: rest).length * 2 = rest.length * 2 + 2 := Nat.succ_mul _ _
      rw [List.flatMap_cons, List.length_append, ih, hlength, Nat.add_comm]
      rfl

/-- What a machine reads of the vertices and the edges of a graph. -/
structure Reads (m : Machine α) (data : SetData α) (ends : List (Nat × Nat))
    (weights : Array α) : Prop where
  /-- The data of the vertices. -/
  vertexData : m.bindings.set vertices = .ok data
  /-- The number of vertices. -/
  vertexCount : m.resolution.size vertices = .ok data.size
  /-- The fields of the vertices are of their types, with a value for each vertex. -/
  vertexFields : ∀ entry ∈ (vertexSet .scalar).fields.entries, ∀ values,
    m.bindings.field vertices entry.1 = .ok values →
      Bindings.FieldSuits entry.2 data.size values
  /-- The number of edges. -/
  edgeCount : m.resolution.size edges = .ok ends.length
  /-- The number of edges is a word. -/
  edgeCount_lt : ends.length < Word.bound
  /-- The ends of the edges. -/
  endpoints : ∃ t, m.resolution.topology edges = .ok t ∧
    ∀ e (he : e < ends.length), t.endpoints e = [ends[e].1, ends[e].2]
  /-- The ends are vertices. -/
  inRange : ∀ edge ∈ ends, edge.1 < data.size ∧ edge.2 < data.size
  /-- The weights. -/
  weighted : m.bindings.field edges "a" = .ok (.float .scalar weights)
  /-- Every edge has a weight. -/
  weightCount : weights.size = ends.length

variable {kernel : Fin 2 → Fin 2 → α} {data : SetData α} {ends : List (Nat × Nat)}
  {weights : Array α}

omit [Scalar α] in
theorem edges_graph (data : SetData α) (ends : List (Nat × Nat)) (weights : Array α) :
    ∃ tuples : Array Nat,
      (graph data ends weights).set edges =
          .ok ((SetData.relation 2 tuples).withScalars "a" weights) ∧
        tuples.toList = (ends.flatMap fun edge => [edge.1, edge.2]) ∧
        ((SetData.relation 2 tuples).withScalars "a" weights).size = ends.length := by
  refine ⟨(ends.flatMap fun edge => [edge.1, edge.2]).toArray, rfl, rfl, ?_⟩
  change (ends.flatMap fun edge => [edge.1, edge.2]).toArray.size / 2 = ends.length
  rw [List.size_toArray, length_ends, Nat.mul_div_cancel _ Nat.zero_lt_two]

omit [Scalar α] in
theorem counted_graph (weights : Array α) (hvertices : data.size < Word.bound) (hedges : ends.length < Word.bound) :
    (graph data ends weights).Counted := by
  refine (Bindings.counted_empty.withSet hvertices).withSet ?_
  change (ends.flatMap fun edge => [edge.1, edge.2]).toArray.size / 2 < Word.bound
  rwa [List.size_toArray, length_ends, Nat.mul_div_cancel _ Nat.zero_lt_two]

omit [Scalar α] in
/-- The topology of the edges has their ends, which are vertices. -/
theorem topology_of_fits {body : List (Stmt α)} {r : Resolution}
    (h : r.Fits ((func kernel).withBody body) (graph data ends weights)) :
    ∃ t, r.topology edges = .ok t ∧
      (∀ e (he : e < ends.length), t.endpoints e = [ends[e].1, ends[e].2]) ∧
      ∀ edge ∈ ends, edge.1 < data.size ∧ edge.2 < data.size := by
  obtain ⟨tuples, hedges, htuples, _⟩ := edges_graph data ends weights
  obtain ⟨t, ht, hset, harity, found, hfound, hmade⟩ :=
    h.made edgeSet (List.mem_cons_of_mem _ (List.mem_singleton_self _)) _ rfl
  obtain rfl := Except.ok.inj (hedges.symm.trans hfound)
  have hmade : t.tuples = tuples := hmade
  have hends : ∀ e (he : e < ends.length), t.endpoints e = [ends[e].1, ends[e].2] := by
    intro e he
    rw [Topology.endpoints, hmade, harity, Array.toList_extract, htuples]
    exact extract_ends ends he
  obtain ⟨_, hcount, hrange⟩ := h.topologies _ t ht
  rw [hset] at hcount
  have hcount : t.endpointCount = data.size :=
    Except.ok.inj ((Resolution.size_eq_ok_iff.2 hcount).symm.trans
      (h.size_set (List.mem_cons_self ..) rfl))
  refine ⟨t, Resolution.topology_eq_ok_iff.2 ht, hends, fun edge hedge => ?_⟩
  obtain ⟨e, he, rfl⟩ := List.getElem_of_mem hedge
  have hlt : ∀ v ∈ [ends[e].1, ends[e].2], v < data.size := fun v hv =>
    hcount ▸ hrange.lt_of_mem_endpoints (e := e) (hends e he ▸ hv)
  exact ⟨hlt _ (List.mem_cons_self ..), hlt _ (List.mem_cons_of_mem _ (List.mem_singleton_self _))⟩

/-- **A machine on a graph** reads it as it was given. -/
theorem reads_of_machine {l : LoweredFunc α} {body : List (Stmt α)} {config : SolverConfig α}
    {m : Machine α} (hl : l.func = (func kernel).withBody body)
    (h : l.machine (graph data ends weights) config = .ok m) : Reads m data ends weights := by
  obtain ⟨_, hbindings, _, hcheck, hfits⟩ := LoweredFunc.machine_spec h
  rw [hl] at hcheck hfits
  have hsuits := (Bindings.check_eq_ok_iff.1 hcheck).1
  have hedgeSet : edgeSet ∈ ((func kernel).withBody body).sets.decls :=
    List.mem_cons_of_mem _ (List.mem_singleton_self _)
  obtain ⟨tuples, hedges, _, hsize⟩ := edges_graph data ends weights
  obtain ⟨found, hfound, _, hvertexFields⟩ := hsuits (vertexSet .scalar) (List.mem_cons_self ..)
  obtain rfl : data = found := Except.ok.inj hfound
  obtain ⟨found, hfound, _, hedgeFields⟩ := hsuits edgeSet hedgeSet
  obtain rfl := Except.ok.inj (hedges.symm.trans hfound)
  obtain ⟨_, hweights, hword⟩ :=
    (hedgeFields ("a", .float .scalar) (List.mem_singleton_self _) (.float .scalar weights)
      rfl).scalars
  obtain ⟨t, ht, hends, hrange⟩ := topology_of_fits hfits
  exact {
    vertexData := hbindings ▸ rfl
    vertexCount := hfits.size_set (List.mem_cons_self ..) rfl
    vertexFields := hbindings ▸ hvertexFields
    edgeCount := hsize ▸ hfits.size_set hedgeSet hedges
    edgeCount_lt := hsize ▸ hword
    endpoints := ⟨t, ht, hends⟩
    inRange := hrange
    weighted := hbindings ▸ rfl
    weightCount := hweights.trans hsize }

end

end EdgeSystem

end GraphTensor
