import GraphTensor.Proofs.Binding.Suiting
import GraphTensor.Proofs.Machine.Snapshot
import GraphTensor.Proofs.Scalar
set_option autoImplicit false

/-! # Committing a run

Only after a run has succeeded are its updates of fields committed. Each was noted for a set that is
bound, so none of them can fail (`Bindings.Committed`): a run that fails leaves the bindings as they
were, and one that succeeds replaces the fields that it wrote by what it wrote last
(`FieldUpdate.last?`), and nothing else.

That an update can be committed is known when it is noted, which is an invariant of the body.
`Machine.ReadsFrom` is the other half: what a run reads of fields is what was bound when it began,
updates or not. -/

namespace GraphTensor

variable {α : Type}

/-! ## Updates -/

namespace FieldUpdate

/-- An update is one of a field. -/
def isOf (update : FieldUpdate α) (set : SetName) (field : FieldName) : Bool :=
  update.set == set && update.field == field

/-- The last of some updates that is one of a field. -/
def last? (updates : List (FieldUpdate α)) (set : SetName) (field : FieldName) :
    Option (FieldUpdate α) :=
  updates.reverse.find? (·.isOf set field)

variable {update : FieldUpdate α} {updates : List (FieldUpdate α)} {set : SetName}
  {field : FieldName}

theorem isOf_eq_true_iff : update.isOf set field = true ↔ update.set = set ∧ update.field = field := by
  simp [isOf]

theorem last?_cons (update : FieldUpdate α) (rest : List (FieldUpdate α)) (set : SetName)
    (field : FieldName) :
    last? (update :: rest) set field =
      (last? rest set field).or (if update.isOf set field then some update else none) := by
  rw [last?, List.reverse_cons, List.find?_append, last?, List.find?_singleton]

theorem last?_eq_some (h : last? updates set field = some update) :
    update ∈ updates ∧ update.set = set ∧ update.field = field := by
  have hof : update.isOf set field = true := 
    List.find?_some (p := fun u : FieldUpdate α => u.isOf set field) h
  exact ⟨List.mem_reverse.1 (List.mem_of_find?_eq_some h), isOf_eq_true_iff.1 hof⟩

end FieldUpdate

namespace Bindings

variable {b b' : Bindings α} {set : SetName} {field : FieldName} {values : FieldData α}

theorem storeField_eq_ok {data : SetData α} (h : b.set set = .ok data) :
    b.storeField set field values = .ok (b.withSet set (data.withField field values)) := by
  rw [storeField, h]
  rfl

/-- The bindings after some updates: the fields are those last written, and all else is as it was
    before. -/
structure Committed (b : Bindings α) (updates : List (FieldUpdate α)) (b' : Bindings α) : Prop where
  /-- The parameters are the same. -/
  params : b'.params = b.params
  /-- The same sets are bound, in the same order. -/
  names : b'.sets.keys = b.sets.keys
  /-- Each set has as many elements as before, with the same endpoints. -/
  sizes : ∀ set, (b'.sets.get? set).map (fun data => (data.size, data.endpoints)) =
    (b.sets.get? set).map fun data => (data.size, data.endpoints)
  /-- A field that was written has the values of its last write, and any other those before. -/
  fields : ∀ set field, b'.field set field =
    match FieldUpdate.last? updates set field with
    | some update => .ok update.values
    | none => b.field set field

theorem committed_nil (b : Bindings α) : b.Committed [] b :=
  ⟨rfl, rfl, fun _ => rfl, fun _ _ => rfl⟩

theorem committed_withField {data : SetData α} (h : b.set set = .ok data) :
    b.Committed [⟨set, field, values⟩] (b.withSet set (data.withField field values)) where
  params := rfl
  names := by
    have hcontains : b.sets.contains set = true := by
      rw [Table.contains, set_eq_ok_iff.1 h]
      rfl
    show (b.sets.insert set _).keys = _
    rw [Table.keys_insert, if_pos hcontains]
  sizes := fun other => by
    show ((b.sets.insert set _).get? other).map _ = _
    rw [Table.get?_insert]
    by_cases heq : set = other
    · subst heq
      rw [if_pos (beq_self_eq_true set), set_eq_ok_iff.1 h]
      rfl
    · rw [if_neg (by simpa using heq)]
  fields := fun other otherField => by
    have hset : (b.withSet set (data.withField field values)).set other =
        if set = other then .ok (data.withField field values) else b.set other := by
      rw [Bindings.set, withSet, Table.get?_insert]
      by_cases heq : set = other
      · rw [if_pos (by simpa using heq), if_pos heq]
        rfl
      · rw [if_neg (by simpa using heq), if_neg heq]
        rfl
    rw [FieldUpdate.last?_cons, Bindings.field, hset]
    by_cases heq : set = other
    · subst heq
      rw [if_pos rfl, Bindings.field, h]
      show Outcome.orFail _ ((data.fields.insert field values).get? otherField) = _
      rw [Table.get?_insert]
      by_cases hfield : field = otherField
      · simp [FieldUpdate.last?, FieldUpdate.isOf, hfield, Outcome.orFail]
      · simp [FieldUpdate.last?, FieldUpdate.isOf, hfield]
        rfl
    · simp [FieldUpdate.last?, FieldUpdate.isOf, heq]
      rfl

theorem Committed.cons {update : FieldUpdate α} {rest : List (FieldUpdate α)} {b₁ b₂ : Bindings α}
    (h : b.Committed [update] b₁) (hrest : b₁.Committed rest b₂) :
    b.Committed (update :: rest) b₂ where
  params := hrest.params.trans h.params
  names := hrest.names.trans h.names
  sizes := fun set => (hrest.sizes set).trans (h.sizes set)
  fields := fun set field => by
    rw [hrest.fields, FieldUpdate.last?_cons]
    cases FieldUpdate.last? rest set field with
    | some later => rfl
    | none =>
        rw [h.fields, FieldUpdate.last?_cons]
        rfl

/-- A set that is bound before updates is bound after them, with as many elements. -/
theorem Committed.set_eq_ok {updates : List (FieldUpdate α)} (h : b.Committed updates b')
    {data : SetData α} (hset : b.set set = .ok data) :
    ∃ data', b'.set set = .ok data' ∧ data'.size = data.size ∧ data'.endpoints = data.endpoints := by
  have hsizes := h.sizes set
  rw [set_eq_ok_iff.1 hset] at hsizes
  obtain ⟨data', hdata', heq⟩ := Option.map_eq_some_iff.1 hsizes
  exact ⟨data', set_eq_ok_iff.2 hdata', congrArg Prod.fst heq, congrArg Prod.snd heq⟩

/-- **Committing updates** of bound sets never fails. -/
theorem commit_spec {updates : List (FieldUpdate α)} {b : Bindings α}
    (h : ∀ update ∈ updates, ∃ data, b.set update.set = .ok data) :
    ∃ b', b.commit updates = (b', .ok ()) ∧ b.Committed updates b' := by
  induction updates generalizing b with
  | nil => exact ⟨b, rfl, committed_nil b⟩
  | cons update rest ih =>
      obtain ⟨data, hdata⟩ := h update (List.mem_cons_self ..)
      have hfirst : b.Committed [update] _ := committed_withField hdata
      have hbound : ∀ later ∈ rest, ∃ data',
          (b.withSet update.set (data.withField update.field update.values)).set later.set =
            .ok data' := by
        intro later hlater
        obtain ⟨other, hother⟩ := h later (List.mem_cons_of_mem _ hlater)
        obtain ⟨data', hdata', _⟩ := hfirst.set_eq_ok hother
        exact ⟨data', hdata'⟩
      obtain ⟨b', hcommit, hrest⟩ := ih hbound
      refine ⟨b', ?_, hfirst.cons hrest⟩
      rw [commit, storeField_eq_ok hdata]
      exact hcommit

end Bindings

/-! ## Runs -/

variable [Scalar α]

/-- Every update that a run notes is one of a statement that it runs: it holds the numbers of the
    tensor written, a block for each element of a set that is bound. -/
theorem Machine.noted_spec {m : Machine α} {f : Func α} {b : Bindings α} {body : List (Stmt α)}
    {mem mem' : Memory α} {update : FieldUpdate α} (hfits : m.resolution.Fits f b)
    (h : m.execAll body mem = .ok mem')
    (hnoted : update ∈ (m.traceAll body mem).filterMap Step.noted?) :
    m.isBoolField update.set update.field = false ∧
      ∃ var mem₁ block values data, .fieldWrite update.set update.field var ∈
          Stmt.substmtsOfList body ∧
        mem.Changes (Stmt.writesOfList body) (Stmt.bindsOfList body) mem₁ ∧
        mem₁.buffers.get? var = some (.dense block values) ∧ update.values = .float block values ∧
        b.set update.set = .ok data ∧ update.values.covers data.size = .ok true := by
  obtain ⟨step, hstep, hupdate⟩ := List.mem_filterMap.1 hnoted
  obtain ⟨hstmt, hchanges⟩ := mem_traceAll body hstep
  obtain ⟨next, hnext⟩ := exists_exec_of_mem_traceAll body h hstep
  obtain ⟨stmt, mem₁⟩ := step
  cases stmt with
  | fieldWrite set field var =>
      rw [exec] at hnext
      obtain ⟨hbool, n, length, block, values, hn, hbuffer, hlength, hsize, _⟩ :=
        noteUpdate_spec hnext
      simp only [Step.noted?, hbuffer, Option.some.injEq] at hupdate
      subst hupdate
      obtain ⟨data, hdata, rfl⟩ := hfits.sizes set n (Resolution.size_eq_ok_iff.1 hn)
      refine ⟨hbool, var, mem₁, block, values, data, hstmt, hchanges, hbuffer, rfl, hdata, ?_⟩
      refine Outcome.bind_eq_ok_iff.2 ⟨length, Outcome.orAbort_eq_ok_iff.2 hlength,
        Outcome.bind_eq_ok_iff.2 ⟨values.size, Outcome.orAbort_eq_ok_iff.2 hsize, ?_⟩⟩
      exact congrArg Except.ok (beq_self_eq_true values.size)
  | _ => cases hupdate

/-- What a run notes can be committed, and is if it computes its results. -/
theorem LoweredFunc.execute_of_compute {l : LoweredFunc α} {b : Bindings α}
    {config : SolverConfig α} {results : Results α} {updates : List (FieldUpdate α)}
    (h : l.compute b config = .ok (results, updates)) :
    ∃ b' m start mem, l.execute b config = (b', .ok results) ∧ l.machine b config = .ok m ∧
      m.start l.storages = .ok start ∧ m.execAll l.func.body start = .ok mem ∧
      mem.results l.func.results = .ok results ∧
      updates = (m.traceAll l.func.body start).filterMap Step.noted? ∧ b.Committed updates b' := by
  obtain ⟨m, start, mem, hm, hstart, hmem, hresults, rfl⟩ := compute_eq_ok h
  obtain ⟨_, _, _, _, hfits⟩ := machine_spec hm
  have hnoted : mem.updates = (m.traceAll l.func.body start).filterMap Step.noted? := by
    rw [Machine.updates_execAll _ hmem, Machine.updates_start hstart, List.nil_append]
  have hbound : ∀ update ∈ mem.updates, ∃ data, b.set update.set = .ok data := by
    intro update hupdate
    rw [hnoted] at hupdate
    obtain ⟨_, _, _, _, _, data, _, _, _, _, hdata, _⟩ := Machine.noted_spec hfits hmem hupdate
    exact ⟨data, hdata⟩
  obtain ⟨b', hcommit, hcommitted⟩ := Bindings.commit_spec hbound
  refine ⟨b', m, start, mem, ?_, hm, hstart, hmem, hresults, hnoted, hcommitted⟩
  rw [execute, h]
  simp only [hcommit]
  rfl

theorem LoweredFunc.compute_of_execute {l : LoweredFunc α} {b : Bindings α}
    {config : SolverConfig α} {results : Results α} (h : (l.execute b config).2 = .ok results) :
    ∃ updates, l.compute b config = .ok (results, updates) := by
  cases hcompute : l.compute b config with
  | error fault =>
      rw [execute, hcompute] at h
      cases h
  | ok computed =>
      obtain ⟨found, updates⟩ := computed
      obtain ⟨b', m, start, mem, hexecute, _⟩ := execute_of_compute hcompute
      rw [hexecute] at h
      obtain rfl := Except.ok.inj h
      exact ⟨updates, rfl⟩

theorem LoweredFunc.bindings_of_error {l : LoweredFunc α} {b : Bindings α}
    {config : SolverConfig α} {fault : Fault RunError}
    (h : (l.execute b config).2 = .error fault) : (l.execute b config).1 = b := by
  cases hcompute : l.compute b config with
  | error found => rw [execute, hcompute]
  | ok computed =>
      obtain ⟨results, updates⟩ := computed
      obtain ⟨b', m, start, mem, hexecute, _⟩ := execute_of_compute hcompute
      rw [hexecute] at h
      cases h

/-! ## Reads -/

/-- What a machine reads of fields is what some bindings hold, whatever updates are noted. -/
structure Machine.ReadsFrom (m : Machine α) (b : Bindings α) (mem : Memory α) : Prop where
  /-- The value of an element in a field. -/
  load : ∀ set field element notes value,
    m.eval (mem.withNotes notes) (.fieldLoad set field element) = .ok value ↔
      ∃ n place e data, m.resolution.size set = .ok n ∧ m.eval mem element = .ok place ∧
        place.asIndex (.elementOf set) n = .ok e ∧ b.field set field = .ok data ∧
        fieldValue (.field set field) data e = .ok value
  /-- The numbers of a whole field. -/
  whole : ∀ var set field notes values,
    m.fillers (mem.withNotes notes) var (.field set field) = .ok values ↔
      ∃ block, b.field set field = .ok (.float block values)
  /-- The elements that a field marks, with the values in a vector. -/
  marked : ∀ condition notes marks values,
    m.boundary (mem.withNotes notes) condition = .ok (some ⟨marks, values⟩) ↔
      b.field condition.set condition.marker = .ok (.bool marks) ∧
        mem.vector condition.values = .ok values
  /-- A field that marks nothing as it is not bound. -/
  unmarked : ∀ condition notes,
    m.boundary (mem.withNotes notes) condition = .ok none ↔
      ∃ data, b.set condition.set = .ok data ∧ data.fields.get? condition.marker = none

theorem Machine.readsFrom_bindings (m : Machine α) (mem : Memory α) :
    m.ReadsFrom m.bindings mem where
  load := fun set field element notes value => by
    rw [eval, eval_withNotes]
    simp only [Outcome.bind_eq_ok_iff]
    constructor
    · rintro ⟨n, hn, place, hplace, e, he, data, hdata, hvalue⟩
      exact ⟨n, place, e, data, hn, hplace, he, hdata, hvalue⟩
    · rintro ⟨n, place, e, data, hn, hplace, he, hdata, hvalue⟩
      exact ⟨n, hn, place, hplace, e, he, data, hdata, hvalue⟩
  whole := fun var set field notes values => by
    rw [fillers]
    simp only [Outcome.bind_eq_ok_iff]
    constructor
    · rintro ⟨data, hdata, hvalues⟩
      cases data with
      | float block found =>
          obtain rfl := Except.ok.inj hvalues
          exact ⟨block, hdata⟩
      | bool flags => cases hvalues
    · rintro ⟨block, hdata⟩
      exact ⟨_, hdata, rfl⟩
  marked := fun condition notes marks values => by
    rw [boundary, Bindings.field]
    simp only [Outcome.bind_eq_ok_iff, Outcome.orFail_eq_ok_iff]
    constructor
    · rintro ⟨data, hdata, h⟩
      split at h
      · cases h
      · next found hmarks =>
          obtain ⟨vector, hvector, h⟩ := Outcome.bind_eq_ok_iff.1 h
          cases h
          exact ⟨⟨data, hdata, hmarks⟩, hvector⟩
      · cases h
    · rintro ⟨⟨data, hdata, hmarks⟩, hvector⟩
      refine ⟨data, hdata, ?_⟩
      rw [hmarks]
      exact Outcome.bind_eq_ok_iff.2 ⟨values, hvector, rfl⟩
  unmarked := fun condition notes => by
    rw [boundary, Outcome.bind_eq_ok_iff]
    constructor
    · rintro ⟨data, hdata, h⟩
      refine ⟨data, hdata, ?_⟩
      split at h
      · next hnone => exact hnone
      · obtain ⟨vector, _, h⟩ := Outcome.bind_eq_ok_iff.1 h
        cases h
      · cases h
    · rintro ⟨data, hdata, hnone⟩
      refine ⟨data, hdata, ?_⟩
      rw [hnone]
      rfl

/-- **A run is all or nothing.** A run that fails, at whatever point, leaves the bindings as they
    were. One that succeeds changes the fields alone that it writes, each of which then has what its
    last write noted; and all that it reads of fields is as it is bound at entry, so that without its
    writes of fields it comes to the same buffers and locals. -/
theorem LoweredFunc.execute_atomic (l : LoweredFunc α) (b : Bindings α)
    (config : SolverConfig α) :
    (∀ fault, (l.execute b config).2 = .error fault → (l.execute b config).1 = b) ∧
      (∀ results, (l.execute b config).2 = .ok results →
        ∃ m start mem, l.machine b config = .ok m ∧ m.start l.storages = .ok start ∧
          m.execAll l.func.body start = .ok mem ∧ mem.results l.func.results = .ok results ∧
          b.Committed ((m.traceAll l.func.body start).filterMap Step.noted?)
            (l.execute b config).1 ∧
          m.execAll (Stmt.withoutFieldWritesOfList l.func.body) start =
            .ok (mem.withNotes [])) ∧
      ∀ m, l.machine b config = .ok m → ∀ mem, m.ReadsFrom b mem := by
  refine ⟨fun fault h => bindings_of_error h, fun results h => ?_, fun m hm mem => ?_⟩
  · obtain ⟨updates, hcompute⟩ := compute_of_execute h
    obtain ⟨b', m, start, mem, hexecute, hm, hstart, hmem, hresults, rfl, hcommitted⟩ :=
      execute_of_compute hcompute
    rw [hexecute]
    refine ⟨m, start, mem, hm, hstart, hmem, hresults, hcommitted, ?_⟩
    have hsame : start.withNotes [] = start := by
      rw [← Machine.updates_start hstart]
      rfl
    have hrun := Machine.execAll_withoutFieldWrites _ hmem []
    rwa [hsame] at hrun
  · obtain ⟨_, hbindings, _⟩ := machine_spec hm
    rw [← hbindings]
    exact m.readsFrom_bindings mem

/-! ### Two fields exchanged -/

namespace FieldExchange

/-- Two fields are copied into each other, the second one after it has been written. -/
def func : Func ℚ :=
  let vector := TensorType.vector "V" .scalar
  (Func.named "f").withSet (((SetDecl.plain "V").withField "x" (.float .scalar)).withField "y"
      (.float .scalar))
    |>.withResult "t" vector
    |>.withResult "u" vector
    |>.withStmt (.assign "t" (.field "V" "x"))
    |>.withStmt (.fieldWrite "V" "y" "t")
    |>.withStmt (.assign "u" (.field "V" "y"))
    |>.withStmt (.fieldWrite "V" "x" "u")

/-- Two vertices with two numbers each. -/
def bindings : Bindings ℚ :=
  Bindings.empty.withSet "V"
    (((SetData.plain 2).withScalars "x" #[1, 2]).withScalars "y" #[3, 4])

end FieldExchange

/-- Two fields that are copied into each other are exchanged, since the second copy reads what was
    bound at entry. -/
theorem fieldExchange_commits :
    ∃ l results m start, FieldExchange.func.lower .standard = .ok l ∧
      (l.execute FieldExchange.bindings ⟨.lu, 0⟩).2 = .ok results ∧
      l.machine FieldExchange.bindings ⟨.lu, 0⟩ = .ok m ∧
      FieldExchange.bindings.Committed ((m.traceAll l.func.body start).filterMap Step.noted?)
        (l.execute FieldExchange.bindings ⟨.lu, 0⟩).1 ∧
      (l.execute FieldExchange.bindings ⟨.lu, 0⟩).1.field "V" "x" =
        .ok (.float .scalar #[3, 4]) ∧
      (l.execute FieldExchange.bindings ⟨.lu, 0⟩).1.field "V" "y" =
        .ok (.float .scalar #[1, 2]) := by
  obtain ⟨l, hlower, results, hexecute, _, hx, rfl, _, hy, rfl⟩ :
      ∃ l, FieldExchange.func.lower .standard = .ok l ∧
        ∃ results, (l.execute FieldExchange.bindings ⟨.lu, 0⟩).2 = .ok results ∧
          ∃ x, (l.execute FieldExchange.bindings ⟨.lu, 0⟩).1.field "V" "x" = .ok x ∧
            x = .float .scalar #[3, 4] ∧
              ∃ y, (l.execute FieldExchange.bindings ⟨.lu, 0⟩).1.field "V" "y" = .ok y ∧
                y = .float .scalar #[1, 2] := by
    decide +kernel
  obtain ⟨_, hsucceeds, _⟩ := LoweredFunc.execute_atomic l FieldExchange.bindings ⟨.lu, 0⟩
  obtain ⟨m, start, mem, hm, _, _, _, hcommitted, _⟩ := hsucceeds results hexecute
  exact ⟨l, results, m, start, hlower, hexecute, hm, hcommitted, hx, hy⟩

end GraphTensor
