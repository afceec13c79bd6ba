import GraphTensor.Proofs.EdgeSystem.Contributions
import GraphTensor.Proofs.EdgeSystem.Runs
import GraphTensor.Proofs.Machine.Commits
import GraphTensor.Proofs.Machine.Steps
import GraphTensor.Proofs.Machine.Updates
import GraphTensor.Proofs.Solve.Pinned
set_option autoImplicit false

/-! # Solutions on graphs

A run on a graph assembles the matrix of its edges, solves it with the marked vertices fixed and
writes the solution back. Where the factors solve the reduced system exactly, fixed vertices
(`EdgeSystem.isFixed`) have their values, the rows of all others hold, and no field but that of the
solution is another one.

The statement about the whole program is put together from one lemma for each stage: the matrix
after the assembly has the entries of the graph (`EdgeSystem.entry_of_run`), the later statements
hand copies of two fields to the solver and note its answer (`EdgeSystem.exec_later`), the solver
fixes and satisfies (`EdgeSystem.rows_of_solveDirect`), and the commit replaces one field
(`EdgeSystem.field_of_committed`). The example at the end has parallel edges, an edge from a vertex
to itself and a kernel that is not symmetric. -/

namespace GraphTensor

namespace EdgeSystem

/-! ## Fixed vertices -/

section

variable {α : Type}

/-- A vertex is fixed if it is marked. Where no marks are bound, none is. -/
def isFixed (data : SetData α) (v : Nat) : Bool :=
  match data.fields.get? marker with
  | some (.bool marks) => marks.getD v false
  | _ => false

/-- The vertices that are not fixed, in their order. -/
def freeVertices (data : SetData α) : List Nat :=
  (List.range data.size).filter fun v => !isFixed data v

theorem isFixed_of_unmarked {data : SetData α} (h : data.fields.get? marker = none) (v : Nat) :
    isFixed data v = false := by
  rw [isFixed, h]

variable [Scalar α]

/-- **The unknowns of a solve** are split into the vertices that are fixed and those that are not, and
    fixed ones have the values of the vector for them. -/
theorem boundaryOf_vertices {m : Machine α} {mem : Memory α} {data : SetData α}
    {boundary : Option (Boundary α)} {x0 : Array α} {q : Pattern} {values given : Array α}
    {p : Partition} (hdata : m.bindings.set vertices = .ok data)
    (hmarks : ∀ marks, data.fields.get? marker = some (.bool marks) → marks.length = data.size)
    (hx0 : mem.vector "x0" = .ok x0)
    (hboundary : m.boundary mem ⟨vertices, marker, "x0"⟩ = .ok boundary)
    (h : (BlockMatrix.mk q values .scalar).boundaryOf data.size boundary = .ok (p, given)) :
    p.free = freeVertices data ∧
      ∀ v < data.size, isFixed data v = true → v ∈ p.fixed ∧ given = x0 := by
  obtain ⟨found, hfound, hcase⟩ := Machine.boundary_eq_ok hboundary
  obtain rfl := Except.ok.inj (hdata.symm.trans hfound)
  rcases hcase with ⟨hnone, rfl⟩ | ⟨marks, fixed, hsome, hfixed, rfl⟩
  · rw [BlockMatrix.boundaryOf_none] at h
    obtain ⟨_, hp, h⟩ := Outcome.bind_eq_ok_iff.1 h
    obtain ⟨rfl, _⟩ := Prod.mk.inj (Except.ok.inj h)
    obtain ⟨_, _, rfl⟩ := Option.map_eq_some_iff.1 (Outcome.orAbort_eq_ok_iff.1 hp)
    simp only [freeVertices, isFixed_of_unmarked hnone]
    exact ⟨by simp, fun _ _ hmark => by cases hmark⟩
  · obtain rfl := Except.ok.inj (hx0.symm.trans hfixed)
    rw [BlockMatrix.boundaryOf_some] at h
    obtain ⟨_, _, h⟩ := Outcome.bind_eq_ok_iff.1 h
    obtain ⟨_, hp, h⟩ := Outcome.bind_eq_ok_iff.1 h
    obtain ⟨rfl, rfl⟩ := Prod.mk.inj (Except.ok.inj h)
    obtain ⟨_, _, rfl⟩ := Option.map_eq_some_iff.1 (Outcome.orAbort_eq_ok_iff.1 hp)
    have hmark : ∀ v < data.size, marks[v]? = some (isFixed data v) := by
      intro v hv
      have hlt : v < marks.length := hmarks marks hsome ▸ hv
      rw [isFixed, hsome]
      simp [hlt]
    have hunknowns : ∀ mark, Partition.unknownsOf marks BlockShape.scalar.rows mark =
        (List.range data.size).filter fun v => isFixed data v = mark := by
      intro mark
      rw [BlockShape.rows, Partition.unknownsOf_one, hmarks marks hsome]
      refine List.filter_congr fun v hv => ?_
      rw [hmark v (List.mem_range.1 hv)]
      simp
    refine ⟨(hunknowns false).trans ?_, fun v hv hfixed => ⟨?_, rfl⟩⟩
    · exact List.filter_congr fun v _ => by cases isFixed data v <;> rfl
    · rw [hunknowns true]
      exact List.mem_filter.2 ⟨List.mem_range.2 hv, by simp [hfixed]⟩

/-! ## The later statements -/

variable {m : Machine α} {mem mem' : Memory α}

/-- The solve replaces the numbers of the result, and the write of the field notes them. -/
theorem exec_solve {system : BlockMatrix α} {b old : Array α}
    (hA : mem.buffers.get? "A" = some (.sparse system)) (hb : mem.vector "b" = .ok b)
    (hx : mem.buffers.get? "x" = some (.dense .scalar old))
    (h : m.execAll [.solve (.direct task), .fieldWrite vertices "x" "x"] mem = .ok mem') :
    ∃ boundary x, m.boundary mem ⟨vertices, marker, "x0"⟩ = .ok boundary ∧
      system.solveDirect b boundary m.config = .ok x ∧ x.size = old.size ∧
      mem'.buffers.get? "x" = some (.dense .scalar x) ∧
      mem'.updates = mem.updates ++ [⟨vertices, "x", .float .scalar x⟩] := by
  obtain ⟨_, hstep, h⟩ := Outcome.bind_eq_ok_iff.1 h
  obtain ⟨rhs, boundary, x, _, found, hrhs, hboundary, hsolve, hfound, hsize, rfl⟩ :=
    Machine.exec_direct hA hstep
  obtain rfl := Except.ok.inj (hb.symm.trans hrhs)
  obtain ⟨rfl, rfl⟩ := Buffer.dense.inj (Option.some.inj (hx.symm.trans hfound))
  have hget : (mem.withBuffer "x" (.dense .scalar x)).buffers.get? "x" =
      some (.dense .scalar x) := by
    simp [Memory.withBuffer, Table.get?_insert]
  obtain ⟨_, hstep, h⟩ := Outcome.bind_eq_ok_iff.1 h
  obtain ⟨_, _, _, _, noted, _, hnoted, _, _, rfl⟩ := Machine.noteUpdate_spec hstep
  obtain ⟨rfl, rfl⟩ := Buffer.dense.inj (Option.some.inj (hget.symm.trans hnoted))
  obtain rfl := Except.ok.inj h
  exact ⟨boundary, x, hboundary, hsolve, hsize.symm, hget, rfl⟩

/-- **After the assembly** the right-hand side and the values of fixed vertices are copied, the system
    is solved, and the solution is noted for its field. -/
theorem exec_later {kernel : Fin 2 → Fin 2 → α} {n : Nat} (hlaid : m.Laid storages mem)
    (hdescribes : m.Describes storages)
    (htypes : ∀ var, m.func.varType? var = (func kernel).varType? var)
    (hn : m.resolution.size vertices = .ok n) (h : m.execAll later mem = .ok mem') :
    ∃ q values blockB b blockX0 x0 x boundary copied,
      mem.buffers.get? "A" = some (.sparse ⟨q, values, .scalar⟩) ∧ q.Valid ∧
      m.bindings.field vertices "b" = .ok (.float blockB b) ∧ b.size = n ∧
      m.bindings.field vertices "x0" = .ok (.float blockX0 x0) ∧ x0.size = n ∧
      copied.vector "x0" = .ok x0 ∧
      m.boundary copied ⟨vertices, marker, "x0"⟩ = .ok boundary ∧
      BlockMatrix.solveDirect ⟨q, values, .scalar⟩ b boundary m.config = .ok x ∧ x.size = n ∧
      mem'.buffers.get? "x" = some (.dense .scalar x) ∧
      mem'.updates = mem.updates ++ [⟨vertices, "x", .float .scalar x⟩] := by
  have hvector : ∀ var, storages.get? var = some ⟨.dense, .scalar⟩ →
      (func kernel).varType? var = some (.tensor (.vector vertices .scalar)) →
        ∃ values, mem.buffers.get? var = some (.dense .scalar values) ∧ values.size = n :=
    fun _ hs htype => (hlaid.vector hdescribes ((htypes _).trans htype) hs hn).2
  obtain ⟨q, values, hA, hvalid⟩ := hlaid.matrix hdescribes ((htypes "A").trans rfl) rfl
  obtain ⟨oldB, holdB, hsizeB⟩ := hvector "b" rfl rfl
  obtain ⟨oldX0, holdX0, hsizeX0⟩ := hvector "x0" rfl rfl
  obtain ⟨oldX, holdX, hsizeX⟩ := hvector "x" rfl rfl
  -- the two copies
  obtain ⟨_, hstep, h⟩ := Outcome.bind_eq_ok_iff.1 h
  obtain ⟨blockB, b, hb, hbsize, rfl⟩ := Machine.exec_assign_field holdB hstep
  have holdX0 : (mem.withBuffer "b" (.dense .scalar b)).buffers.get? "x0" =
      some (.dense .scalar oldX0) := by
    simpa [Memory.withBuffer, Table.get?_insert] using holdX0
  obtain ⟨copied, hstep, h⟩ := Outcome.bind_eq_ok_iff.1 h
  obtain ⟨blockX0, x0, hx0, hx0size, hcopied⟩ := Machine.exec_assign_field holdX0 hstep
  -- what the solve reads afterwards: the matrix and the result are as before
  have hreads : copied.buffers.get? "A" = some (.sparse ⟨q, values, .scalar⟩) ∧
      copied.vector "b" = .ok b ∧ copied.vector "x0" = .ok x0 ∧
      copied.buffers.get? "x" = some (.dense .scalar oldX) := by
    rw [hcopied]
    simp only [Memory.vector, Memory.buffer, Memory.withBuffer, Table.get?_insert]
    exact ⟨hA, rfl, rfl, holdX⟩
  obtain ⟨hcopiedA, hcopiedB, hcopiedX0, hcopiedX⟩ := hreads
  obtain ⟨boundary, x, hboundary, hsolve, hsize, hx, hnoted⟩ :=
    exec_solve hcopiedA hcopiedB hcopiedX h
  have hupdates : copied.updates = mem.updates := by
    rw [hcopied]
    rfl
  exact ⟨q, values, blockB, b, blockX0, x0, x, boundary, copied, hA, hvalid, hb,
    hbsize.trans hsizeB, hx0, hx0size.trans hsizeX0, hcopiedX0, hboundary, hsolve,
    hsize.trans hsizeX, hx, hupdates ▸ hnoted⟩

end

/-! ## The assembled matrix -/

variable {K : Type} [Field K] [LinearOrder K] {kernel : Fin 2 → Fin 2 → K} {data : SetData K}
  {ends : List (Nat × Nat)} {weights : Array K} {m : Machine K}

omit [Field K] [LinearOrder K] in
theorem apart_kernelVars (kernel : Fin 2 → Fin 2 → K) :
    kernelVars.Apart (func kernel) (edgeBody kernel kernelVars) := by
  have hnames : ∀ s ∈ edgeBody kernel kernelVars, s.boundName? = none := by
    intro s hs
    obtain ⟨_, _, rfl⟩ := List.mem_map.1 hs
    rfl
  have hplaced : Stmt.Placed [] (edgeBody kernel kernelVars) :=
    ⟨List.nil_subset _, List.nil_subset _, List.nil_subset _, List.nil_subset _, trivial⟩
  refine ⟨rfl, fun ep hep => ?_, fun s hs name hname => ?_, fun s hs name hname => ?_, [],
    hplaced, by simp⟩
  · obtain rfl := Option.some.inj hep
    rfl
  · rw [hnames s hs] at hname
    cases hname
  · rw [hnames s hs] at hname
    cases hname

omit [Field K] [LinearOrder K] in
theorem notMem_writes_later : "A" ∉ Stmt.writesOfList (later : List (Stmt K)) := by
  have hwrites : Stmt.writesOfList (later : List (Stmt K)) = ["b", "x0", "x"] := rfl
  rw [hwrites]
  decide

section

variable {search : Search} {assembled contracted group : List (Stmt K)} {start final : Memory K}
  (hgroups : (func kernel).Groups storages search assembled contracted [] 0 (func kernel).body
    (group :: later.map fun s => [s]))
  (hcarries : (func kernel).Carries storages m) (hlaid : m.Laid storages start)
  (hhidden : start.IndicesOverBuffers) (hexec : m.execAll (group ++ later) start = .ok final)

include hgroups hcarries hlaid hhidden hexec

/-- The matrix holds what the edges contribute, and nothing else. -/
theorem holdsSum_of_run : m.HoldsSum final "A" (.matrix vertices vertices .scalar)
    (m.contributionsOf "A" .scalar start
      (.assemble ["A"] edges kernelVars (edgeBody kernel kernelVars))) := by
  have htype : (func kernel).varType? "A" =
      some (.tensor (.matrix vertices vertices .scalar)) := rfl
  have hapart : ∀ targets set k body, .assemble targets set k body ∈ (func kernel).body →
      k.Apart (func kernel) body := by
    intro targets set k body hmem
    rcases List.mem_cons.1 (body_func kernel ▸ hmem) with heq | hmem
    · obtain ⟨rfl, rfl, rfl, rfl⟩ := Stmt.assemble.inj heq
      exact apart_kernelVars kernel
    · cases (lowerStmt_later _ hmem).1
  have hothers : ∀ s ∈ (func kernel).body, s.isAssemble = false → "A" ∉ s.writes := by
    intro s hs hassemble
    rcases List.mem_cons.1 (body_func kernel ▸ hs) with rfl | hs
    · cases hassemble
    · exact fun hmem => notMem_writes_later (Stmt.writes_subset hs hmem)
  have hassembling : m.Assembling storages "A" (.matrix vertices vertices .scalar) []
      (func kernel).body start [] :=
    ⟨hlaid, hhidden, fun h => (List.not_mem_nil h).elim, fun _ => rfl,
      .inr ⟨_, _, _, _, List.mem_cons_self .., List.mem_singleton_self _⟩⟩
  have hsum := hgroups.holdsSum hcarries htype hapart hothers hassembling
    (by rwa [List.flatten_cons, flatten_later])
  have hlater : ∀ pair ∈ (later : List (Stmt K)).zip (later.map fun s : Stmt K => [s]),
      pair.1.isAssemble = false := fun pair hpair =>
    (lowerStmt_later pair.1 (List.of_mem_zip hpair).1).1
  rw [List.nil_append, body_func, List.zip_cons_cons, Machine.contributions] at hsum
  split at hsum
  · rwa [Machine.contributions_eq_nil hlater, List.append_nil] at hsum
  · rwa [List.append_nil] at hsum

/-- **The assembled matrix** has the entries of the graph. -/
theorem entry_of_run (hreads : Reads m data ends weights) {q : Pattern} {values : Array K}
    (hA : final.buffers.get? "A" = some (.sparse ⟨q, values, .scalar⟩)) {v u : Nat}
    (hv : v < data.size) (hu : u < data.size) :
    (BlockMatrix.mk q values .scalar).entry v u = entry kernel ends weights v u := by
  have hsum := holdsSum_of_run hgroups hcarries hlaid hhidden hexec
  obtain ⟨value, hvalue, hsumAt⟩ := hsum [data.size, data.size] [v, u]
    (.cons hreads.vertexCount (.cons hreads.vertexCount .nil)) (.cons hv (.cons hu .nil))
  obtain ⟨t, ht, hends⟩ := hreads.endpoints
  have hwords := hcarries.words _ _ hreads.vertexCount
  have hrange : ∀ edge ∈ ends, edge.1 < Word.bound ∧ edge.2 < Word.bound := fun edge hedge =>
    (hreads.inRange edge hedge).imp (Nat.lt_trans · hwords) (Nat.lt_trans · hwords)
  have hedges := sumAt?_edges kernel kernelVars start ["A"] hreads.edgeCount ht hends hrange
    hreads.weighted hreads.weightCount hreads.edgeCount_lt (Nat.lt_trans hv hwords)
    (Nat.lt_trans hu hwords)
  obtain rfl := Option.some.inj (hedges.symm.trans hsumAt)
  rw [Machine.entryAt?_eq ((hcarries.types "A").trans rfl) hA] at hvalue
  exact BlockMatrix.entry_of_entryAt? hvalue

end

/-! ## The solution -/

/-- **The solve** of the assembled matrix gives fixed vertices their values and satisfies the rows of
    all others. -/
theorem rows_of_solveDirect {config : SolverConfig K} {mem : Memory K} {q : Pattern}
    {values b x0 x : Array K} {boundary : Option (Boundary K)} (hvalid : q.Valid)
    (hentry : ∀ v < data.size, ∀ u < data.size,
      (BlockMatrix.mk q values .scalar).entry v u = entry kernel ends weights v u)
    (hexact : ((DenseMatrix.ofFn data.size data.size (entry kernel ends weights)).select
      (freeVertices data) (freeVertices data)).SolvedExactly config)
    (hdata : m.bindings.set vertices = .ok data)
    (hmarks : ∀ marks, data.fields.get? marker = some (.bool marks) → marks.length = data.size)
    (hb : b.size = data.size) (hx0 : mem.vector "x0" = .ok x0)
    (hboundary : m.boundary mem ⟨vertices, marker, "x0"⟩ = .ok boundary)
    (h : BlockMatrix.solveDirect ⟨q, values, .scalar⟩ b boundary config = .ok x) :
    (∀ v < data.size, isFixed data v = true → x.getD v 0 = x0.getD v 0) ∧
      ∀ v < data.size, isFixed data v = false →
        ∑ u ∈ Finset.range data.size, entry kernel ends weights v u * x.getD u 0 = b.getD v 0 := by
  obtain ⟨dense, ⟨p, given⟩, ⟨_, _⟩, _, hdense, hsplit, hreduce, _⟩ :=
    BlockMatrix.stages_of_solveDirect h
  obtain ⟨hrows, hcols, hsize, _⟩ := Partition.reduce_spec hreduce
  obtain ⟨hfree, hfixed⟩ := boundaryOf_vertices hdata hmarks hx0 hboundary (hb ▸ hsplit)
  obtain ⟨_, _, hget⟩ := BlockMatrix.toDense?_spec hvalid hdense
  have hrows : dense.rows = data.size := hrows.trans (hsize.symm.trans hb)
  have hcols : dense.cols = data.size := hcols.trans (hsize.symm.trans hb)
  have hsame : ∀ v < data.size, ∀ u < data.size, dense.get v u = entry kernel ends weights v u :=
    fun v hv u hu => (hget v (hrows ▸ hv) u (hcols ▸ hu)).trans (hentry v hv u hu)
  have hlt : ∀ v ∈ freeVertices data, v < data.size := fun v hv =>
    List.mem_range.1 (List.mem_filter.1 hv).1
  -- what is factorized is the reduced matrix of the graph
  have hreduced : dense.select p.free p.free =
      (DenseMatrix.ofFn data.size data.size (entry kernel ends weights)).select
        (freeVertices data) (freeVertices data) := by
    rw [hfree]
    refine DenseMatrix.select_congr fun v hv u hu => ?_
    rw [DenseMatrix.get_ofFn, if_pos ⟨hlt v hv, hlt u hu⟩, hsame v (hlt v hv) u (hlt u hu)]
  obtain ⟨found, hfound, _, _, _, _, hvalues, hsolved⟩ :=
    BlockMatrix.solves_of_solveDirect hsplit
      (fun found hfound => by
        rw [Option.some.inj (hfound.symm.trans hdense), hreduced]
        exact hexact) h
  obtain rfl := Option.some.inj (hfound.symm.trans hdense)
  refine ⟨fun v hv hmark => ?_, fun v hv hmark => ?_⟩
  · obtain ⟨hmem, rfl⟩ := hfixed v hv hmark
    exact hvalues v hmem
  · have hmem : v ∈ p.free := by
      rw [hfree]
      exact List.mem_filter.2 ⟨List.mem_range.2 hv, by rw [hmark]; rfl⟩
    rw [← hsolved v hmem, DenseMatrix.getD_mulVec, hcols]
    exact Finset.sum_congr rfl fun u hu => by rw [hsame v hv u (Finset.mem_range.1 hu)]

omit [Field K] [LinearOrder K] in
theorem distinctNames_func (kernel : Fin 2 → Fin 2 → K) : (func kernel).DistinctNames := by
  have hnames : (func kernel).allVars.map Variable.name = ["A", "b", "x0", "x"] := rfl
  rw [Func.DistinctNames, hnames]
  decide

theorem updates_group {search : Search} {assembled contracted group : List (Stmt K)}
    {groups : List (List (Stmt K))} {mem mem' : Memory K}
    (hgroups : (func kernel).Groups storages search assembled contracted [] 0 (func kernel).body
      (group :: groups)) (h : m.execAll group mem = .ok mem') : mem'.updates = mem.updates := by
  rw [body_func] at hgroups
  cases hgroups with
  | other hassemble => cases hassemble
  | assembly hloop hlowered =>
      exact Machine.updates_of_withoutFieldWrites
        (Func.withoutFieldWrites_of_lowerAssembly hloop hlowered) h

omit [Field K] [LinearOrder K] in
/-- What is committed of a solution replaces its field alone. -/
theorem field_of_committed {b b' : Bindings K} {values : FieldData K}
    (h : b.Committed [⟨vertices, "x", values⟩] b') :
    b'.field vertices "x" = .ok values ∧
      ∀ set field, ¬ (set = vertices ∧ field = "x") → b'.field set field = b.field set field := by
  refine ⟨h.fields vertices "x", fun set field hne => ?_⟩
  have hother : FieldUpdate.last? [⟨vertices, "x", values⟩] set field = none := by
    rw [FieldUpdate.last?_cons, if_neg]
    · rfl
    · exact fun hof => hne ((FieldUpdate.isOf_eq_true_iff.1 hof).imp Eq.symm Eq.symm)
  rw [h.fields, hother]

section

variable {search : Search} {assembled contracted group : List (Stmt K)} {config : SolverConfig K}
  {start final : Memory K}
  (hm : LoweredFunc.machine ⟨(func kernel).withBody (group ++ later), storages⟩
    (graph data ends weights) config = .ok m)
  (hstart : m.start storages = .ok start)

include hm hstart

theorem carries_of_start : (func kernel).Carries storages m ∧ m.Laid storages start ∧
    start.IndicesOverBuffers := by
  have hreads := reads_of_machine rfl hm
  have hdistinct := distinctNames_func kernel
  have hdescribes := LoweredFunc.describes_machine hdistinct (inferStorage_func kernel) hm
  have hmdistinct : m.func.DistinctNames := by
    rw [(LoweredFunc.machine_spec hm).1]
    exact hdistinct
  obtain ⟨hlaid, _⟩ := Machine.start_spec hmdistinct hstart
  obtain ⟨hsmall, _⟩ := hlaid.vector hdescribes
    ((LoweredFunc.varType?_machine hm "x").trans rfl) rfl hreads.vertexCount
  have hcounted := counted_graph weights (Nat.lt_trans hsmall (by decide)) hreads.edgeCount_lt
  exact ⟨Func.carries_of_machine hdistinct (inferStorage_func kernel) rfl hm hcounted, hlaid,
    (Machine.apart_of_start hmdistinct hstart).indicesOverBuffers⟩

/-- **A run on a graph** ends with the solution in its buffer, and it has noted that alone. -/
theorem exec_body (hgroups : (func kernel).Groups storages search assembled contracted [] 0
      (func kernel).body (group :: later.map fun s => [s]))
    (hexec : m.execAll (group ++ later) start = .ok final)
    (hexact : ((DenseMatrix.ofFn data.size data.size (entry kernel ends weights)).select
      (freeVertices data) (freeVertices data)).SolvedExactly config) :
    ∃ b x0 x, data.fields.get? "b" = some (.float .scalar b) ∧ b.size = data.size ∧
      data.fields.get? "x0" = some (.float .scalar x0) ∧ x0.size = data.size ∧
      final.buffers.get? "x" = some (.dense .scalar x) ∧ x.size = data.size ∧
      final.updates = [⟨vertices, "x", .float .scalar x⟩] ∧
      (∀ v < data.size, isFixed data v = true → x.getD v 0 = x0.getD v 0) ∧
      ∀ v < data.size, isFixed data v = false →
        ∑ u ∈ Finset.range data.size, entry kernel ends weights v u * x.getD u 0 = b.getD v 0 := by
  have hreads := reads_of_machine rfl hm
  obtain ⟨hcarries, hlaid, hhidden⟩ := carries_of_start hm hstart
  obtain ⟨next, hgroup, hlater⟩ := Machine.execAll_append_eq_ok.1 hexec
  obtain ⟨q, values, blockB, b, blockX0, x0, x, boundary, before, hA, hvalid, hb, hbsize, hx0,
    hx0size, hx0', hboundary, hsolve, hxsize, hx, hnoted⟩ :=
      exec_later (hlaid.changes (Machine.changes_execAll _ hgroup)) hcarries.describes
        hcarries.types hreads.vertexCount hlater
  have hconfig : m.config = config := (LoweredFunc.machine_spec hm).2.2.1
  obtain ⟨rfl, _⟩ := (hreads.vertexFields ("b", .float .scalar) (by decide) _ hb).scalars
  obtain ⟨rfl, _⟩ := (hreads.vertexFields ("x0", .float .scalar) (by decide) _ hx0).scalars
  have hmarks : ∀ marks, data.fields.get? marker = some (.bool marks) →
      marks.length = data.size := fun marks hmarks =>
    (hreads.vertexFields (marker, .bool) (by decide) _
      ((Bindings.field_eq_ok_iff hreads.vertexData).2 hmarks)).length_flags
  have hb := (Bindings.field_eq_ok_iff hreads.vertexData).1 hb
  have hx0 := (Bindings.field_eq_ok_iff hreads.vertexData).1 hx0
  -- the matrix at the end is the one that the solve has read
  have hA' : final.buffers.get? "A" = some (.sparse ⟨q, values, .scalar⟩) := by
    rw [(Machine.changes_execAll _ hlater).buffer_eq, hA]
    exact notMem_writes_later
  obtain ⟨hfixed, hfree⟩ := rows_of_solveDirect hvalid
    (fun v hv u hu => entry_of_run hgroups hcarries hlaid hhidden hexec hreads hA' hv hu) hexact
    hreads.vertexData hmarks hbsize hx0' hboundary (hconfig ▸ hsolve)
  refine ⟨b, x0, x, hb, hbsize, hx0, hx0size, hx, hxsize, ?_, hfixed, hfree⟩
  rw [hnoted, updates_group hgroups hgroup, Machine.updates_start hstart, List.nil_append]

end

/-- **The program of a graph is correct.** When a run succeeds whose factors solve the reduced system
    exactly, its result has the given values at the fixed vertices and satisfies the rows of all
    others, which are all vertices where no marks are bound. Parallel edges and edges from a vertex to
    itself count as often as they are given. The result is the new solution field, and every other
    field is as it was. -/
theorem func_solves {options : LowerOptions} {l : LoweredFunc K} {config : SolverConfig K}
    {results : Results K} (hlower : (func kernel).lower options = .ok l)
    (hexact : ((DenseMatrix.ofFn data.size data.size (entry kernel ends weights)).select
      (freeVertices data) (freeVertices data)).SolvedExactly config)
    (hrun : (l.execute (graph data ends weights) config).2 = .ok results) :
    ∃ b x0 x, data.fields.get? "b" = some (.float .scalar b) ∧ b.size = data.size ∧
      data.fields.get? "x0" = some (.float .scalar x0) ∧ x0.size = data.size ∧
      results.get? "x" = some (.dense .scalar x) ∧ x.size = data.size ∧
      (∀ v < data.size, isFixed data v = true → x.getD v 0 = x0.getD v 0) ∧
      (∀ v < data.size, isFixed data v = false →
        ∑ u ∈ Finset.range data.size, entry kernel ends weights v u * x.getD u 0 = b.getD v 0) ∧
      (data.fields.get? marker = none → ∀ v < data.size,
        ∑ u ∈ Finset.range data.size, entry kernel ends weights v u * x.getD u 0 = b.getD v 0) ∧
      (l.execute (graph data ends weights) config).1.field vertices "x" =
        .ok (.float .scalar x) ∧
      ∀ set field, ¬ (set = vertices ∧ field = "x") →
        (l.execute (graph data ends weights) config).1.field set field =
          (graph data ends weights).field set field := by
  obtain ⟨assembled, contracted, group, rfl, hgroups⟩ := groups_func hlower
  obtain ⟨updates, hcompute⟩ := LoweredFunc.compute_of_execute hrun
  obtain ⟨b', m, start, final, hexecute, hm, hstart, hexec, hresults, hupdates, hcommitted⟩ :=
    LoweredFunc.execute_of_compute hcompute
  obtain ⟨b, x0, x, hb, hbsize, hx0, hx0size, hx, hxsize, hnoted, hfixed, hfree⟩ :=
    exec_body hm hstart hgroups hexec hexact
  have hnoted : updates = [⟨vertices, "x", .float .scalar x⟩] := by
    rw [hupdates, ← hnoted, Machine.updates_execAll _ hexec, Machine.updates_start hstart,
      List.nil_append]
  obtain ⟨hfield, hothers⟩ := field_of_committed (hnoted ▸ hcommitted)
  have hvar : ⟨"x", .tensor (.vector vertices .scalar)⟩ ∈ (func kernel).results :=
    List.mem_singleton_self _
  obtain ⟨found, hfound, hresult⟩ := Memory.get?_results hresults hvar
  rw [Memory.result, hx] at hfound
  obtain rfl := Except.ok.inj hfound
  rw [hexecute]
  exact ⟨b, x0, x, hb, hbsize, hx0, hx0size, hresult, hxsize, hfixed, hfree,
    fun hunmarked v hv => hfree v hv (isFixed_of_unmarked hunmarked v), hfield, hothers⟩

/-- Three vertices, the first of which is fixed. -/
def anchoredVertices : SetData ℚ :=
  (((SetData.plain 3).withScalars "b" #[0, 4, 5]).withScalars "x0" #[1, 7, 7]).withField marker
    (.bool [true, false, false])

/-- An edge from the fixed vertex, two parallel ones and one from a vertex to itself. -/
def anchoredEnds : List (Nat × Nat) :=
  [(0, 1), (1, 2), (1, 2), (2, 2)]

/-- A kernel that is not symmetric. -/
def skewKernel (p q : Fin 2) : ℚ :=
  if p.val = 0 then (if q.val = 0 then 2 else -1) else (if q.val = 0 then -3 else 4)

/-- The fixed vertex keeps its value, and the rows of the two others hold. -/
theorem anchoredGraph_solves :
    ∃ l results, (func skewKernel).lower .standard = .ok l ∧
      (l.execute (graph anchoredVertices anchoredEnds #[1, 2, 1, 1]) ⟨.lu, 0⟩).2 = .ok results ∧
      results.get? "x" = some (.dense .scalar #[1, 1, 1]) ∧
      (∀ v < 3, isFixed anchoredVertices v = false →
        ∑ u ∈ Finset.range 3, entry skewKernel anchoredEnds #[1, 2, 1, 1] v u *
          (#[1, 1, 1] : Array ℚ).getD u 0 = (#[0, 4, 5] : Array ℚ).getD v 0) ∧
      (l.execute (graph anchoredVertices anchoredEnds #[1, 2, 1, 1]) ⟨.lu, 0⟩).1.field vertices
        "x" = .ok (.float .scalar #[1, 1, 1]) := by
  obtain ⟨l, hlower, results, hrun, hx⟩ :
      ∃ l, (func skewKernel).lower .standard = .ok l ∧
        ∃ results, (l.execute (graph anchoredVertices anchoredEnds #[1, 2, 1, 1])
          ⟨.lu, 0⟩).2 = .ok results ∧ results.get? "x" = some (.dense .scalar #[1, 1, 1]) := by
    decide +kernel
  obtain ⟨b, x0, x, hb, _, _, _, hresult, _, _, hfree, _, hfield, _⟩ :=
    func_solves hlower (DenseMatrix.invertedExactly_lu _ rfl).solvedExactly hrun
  obtain ⟨_, rfl⟩ := Buffer.dense.inj (Option.some.inj (hx.symm.trans hresult))
  obtain ⟨_, rfl⟩ : BlockShape.scalar = .scalar ∧ #[0, 4, 5] = b :=
    FieldData.float.inj (Option.some.inj hb)
  exact ⟨l, results, hlower, hrun, hx, hfree, hfield⟩

end EdgeSystem

end GraphTensor
