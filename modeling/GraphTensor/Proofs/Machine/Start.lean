import GraphTensor.Machine.Run
import GraphTensor.Proofs.Machine.Changes
import GraphTensor.Proofs.Storage.Descriptors
import GraphTensor.Proofs.Topology.Resolution
import Mathlib.Data.List.Nodup
set_option autoImplicit false

/-! # The state at entry

A machine reads resolved patterns that fit the bindings (`Resolution.Fits`). The memory at entry has
a buffer for each tensor, laid out as its descriptor says (`Machine.Laid`), and locals for the
parameters alone; no statement changes what has a buffer, nor any layout.

Buffers are added one variable after another, and what is there so far is the invariant
(`Machine.Buffered`). A second tensor of one name would replace the buffer of the first, so the
names have to be different. -/

namespace GraphTensor

variable {α : Type}

/-! ## Declared variables -/

/-- Among variables with different names, each is found under its name. -/
theorem Func.varType?_eq_some_iff {f : Func α} (h : f.DistinctNames) {var : VarName}
    {type : ValueType} :
    f.varType? var = some type ↔ ∃ v ∈ f.allVars, v.name = var ∧ v.type = type := by
  simp only [varType?, Option.map_eq_some_iff]
  constructor
  · rintro ⟨v, hv, rfl⟩
    exact ⟨v, List.mem_of_find?_eq_some hv, by simpa using List.find?_some hv, rfl⟩
  · rintro ⟨v, hv, rfl, rfl⟩
    cases hfind : f.allVars.find? (·.name == v.name) with
    | none =>
        have := List.find?_eq_none.1 hfind v hv
        simp at this
    | some w =>
        have hw : w.name = v.name := by simpa using List.find?_some hfind
        refine ⟨w, rfl, ?_⟩
        rw [List.inj_on_of_nodup_map h (List.mem_of_find?_eq_some hfind) hv hw]

theorem Func.varType?_of_tensorType? {f : Func α} {name : VarName} {type : TensorType}
    (h : f.tensorType? name = some type) : f.varType? name = some (.tensor type) := by
  obtain ⟨found, hfound, htype⟩ := Option.bind_eq_some_iff.1 h
  cases found with
  | tensor found =>
      obtain rfl := Option.some.inj htype
      exact hfound
  | _ => cases htype

/-! ## The machine -/

/-- What the machine of a run reads fits the bindings. -/
structure Resolution.Fits (r : Resolution) (f : Func α) (b : Bindings α) : Prop where
  /-- The sizes are those of the sets. -/
  sizes : r.SizesFrom b
  /-- The topologies fit the sizes. -/
  topologies : r.TopologiesFit
  /-- The patterns resolved beforehand are those that their references stand for. -/
  patterns : r.PatternsFit
  /-- Every declared set has a size. -/
  declared : ∀ decl ∈ f.sets.decls, (r.sizes.get? decl.name).isSome = true
  /-- Every declared relation has a topology. -/
  made : ∀ decl ∈ f.sets.decls, ∀ ep, decl.endpoints = some ep →
    ∃ t, r.arena.ofRelation? decl.name = some t ∧ MadeFrom t b decl ep

namespace Resolution

variable {f : Func α} {b : Bindings α} {r r' : Resolution}

theorem fits_of_ofBindings (h : ofBindings f b = .ok r) : r.Fits f b := by
  obtain ⟨hsizes, htopologies, hnone, hdeclared, hmade⟩ := ofBindings_spec h
  refine ⟨hsizes, htopologies, fun p pattern hp => ?_, hdeclared, hmade⟩
  rw [hnone] at hp
  cases hp

/-- Patterns that are resolved beforehand change neither sizes nor topologies. -/
theorem Fits.congr (h : r.Fits f b) (hsizes : r'.sizes = r.sizes) (harena : r'.arena = r.arena)
    (hpatterns : r'.PatternsFit) : r'.Fits f b where
  sizes := fun set n hn => h.sizes set n (hsizes ▸ hn)
  topologies := fun relation t ht => by
    obtain ⟨hrelation, hcount, hin⟩ := h.topologies relation t (harena ▸ ht)
    exact ⟨hrelation, hsizes ▸ hcount, hin⟩
  patterns := hpatterns
  declared := fun decl hdecl => hsizes ▸ h.declared decl hdecl
  made := fun decl hdecl ep hep => harena ▸ h.made decl hdecl ep hep

end Resolution

/-- The machine of a run is made of what the bindings resolve to and of patterns resolved
    beforehand. -/
theorem LoweredFunc.machine_eq_ok [Scalar α] {l : LoweredFunc α} {b : Bindings α}
    {config : SolverConfig α} {m : Machine α} (h : l.machine b config = .ok m) :
    ∃ r, b.check l.func = .ok () ∧ Resolution.ofBindings l.func b = .ok r ∧
      m = ⟨l.func, b, (r.prepare l.func l.storages).1, config⟩ := by
  obtain ⟨_, hcheck, h⟩ := Outcome.bind_eq_ok_iff.1 h
  obtain ⟨r, hr, h⟩ := Outcome.bind_eq_ok_iff.1 h
  obtain ⟨_, _, h⟩ := Outcome.bind_eq_ok_iff.1 h
  exact ⟨r, hcheck, hr, (Except.ok.inj h).symm⟩

theorem LoweredFunc.machine_spec [Scalar α] {l : LoweredFunc α} {b : Bindings α}
    {config : SolverConfig α} {m : Machine α} (h : l.machine b config = .ok m) :
    m.func = l.func ∧ m.bindings = b ∧ m.config = config ∧ b.check l.func = .ok () ∧
      m.resolution.Fits l.func b := by
  obtain ⟨r, hcheck, hr, rfl⟩ := machine_eq_ok h
  have hfits := Resolution.fits_of_ofBindings hr
  obtain ⟨hsizes, harena, hpatterns⟩ :=
    Resolution.resolveAll_spec (l.func.patterns l.storages) hfits.patterns
  exact ⟨rfl, rfl, rfl, hcheck, hfits.congr hsizes harena hpatterns⟩

theorem LoweredFunc.relation_of_topology [Scalar α] {l : LoweredFunc α} {b : Bindings α}
    {config : SolverConfig α} {m : Machine α} (h : l.machine b config = .ok m)
    {relation : SetName} {t : Topology} (ht : m.resolution.topology relation = .ok t) :
    ∃ decl ∈ l.func.sets.decls, ∃ ep, decl.name = relation ∧ decl.endpoints = some ep ∧
      Resolution.MadeFrom t b decl ep := by
  obtain ⟨r, _, hr, rfl⟩ := machine_eq_ok h
  obtain ⟨_, _, hrelated⟩ := Resolution.related_of_ofBindings hr
  obtain ⟨_, harena, _⟩ := Resolution.resolveAll_spec (l.func.patterns l.storages)
    (Resolution.fits_of_ofBindings hr).patterns
  refine hrelated.only relation t ?_
  rw [← harena]
  exact Resolution.topology_eq_ok_iff.1 ht

/-- The machine of a run from its parts. -/
theorem LoweredFunc.machine_of_prepare [Scalar α] {l : LoweredFunc α} {b : Bindings α}
    {r r' : Resolution} (hcheck : b.check l.func = .ok ())
    (hr : Resolution.ofBindings l.func b = .ok r)
    (hprepare : r.prepare l.func l.storages = (r', .ok ())) (config : SolverConfig α) :
    l.machine b config = .ok ⟨l.func, b, r', config⟩ := by
  rw [machine, hcheck, hr]
  change (r.prepare l.func l.storages).2 >>= (fun _ =>
    (pure ⟨l.func, b, (r.prepare l.func l.storages).1, config⟩ : Ran (Machine α))) = _
  rw [hprepare]
  rfl

/-! ## The memory -/

section

variable [Scalar α]

/-- The memory has a buffer for each tensor of the function and for nothing else, laid out as the
    descriptors say. -/
structure Machine.Laid (m : Machine α) (storages : Storages) (mem : Memory α) : Prop where
  /-- Every tensor has a buffer. -/
  tensor : ∀ var type, m.func.varType? var = some (.tensor type) →
    ∃ s zero b, storages.get? var = some s ∧ m.allocate type.dims s = .ok zero ∧
      mem.buffers.get? var = some b ∧ zero.SameLayout b
  /-- Nothing else has one. -/
  onlyTensors : ∀ var b, mem.buffers.get? var = some b →
    ∃ type, m.func.varType? var = some (.tensor type)

theorem Machine.Laid.changes {m : Machine α} {storages : Storages} {mem mem' : Memory α}
    {stored bound : List VarName} (h : m.Laid storages mem)
    (hchanges : mem.Changes stored bound mem') :
    m.Laid storages mem' where
  tensor := fun var type htype => by
    obtain ⟨s, zero, b, hs, hzero, hb, hlayout⟩ := h.tensor var type htype
    obtain ⟨b', hb', hlayout'⟩ := hchanges.sameLayout hb
    exact ⟨s, zero, b', hs, hzero, hb', hlayout.trans hlayout'⟩
  onlyTensors := fun var b hb => by
    cases hbefore : mem.buffers.get? var with
    | some b' => exact h.onlyTensors var b' hbefore
    | none =>
        rw [hchanges.buffer_none hbefore] at hb
        cases hb

theorem Machine.Laid.buffer_none {m : Machine α} {storages : Storages} {mem : Memory α}
    {name : VarName} (h : m.Laid storages mem)
    (hname : ∀ type, m.func.varType? name ≠ some (.tensor type)) : mem.buffers.get? name = none := by
  cases hb : mem.buffers.get? name with
  | none => rfl
  | some b =>
      obtain ⟨type, htype⟩ := h.onlyTensors name b hb
      exact absurd htype (hname type)

namespace Machine

variable {m : Machine α} {storages : Storages} {mem : Memory α}

omit [Scalar α] in
theorem addParam_spec {mem' : Memory α} {param : Variable}
    (h : m.addParam mem param = .ok mem') :
    param.type.asTensor? = none ∧ ∃ value, m.bindings.param param.name = .ok value ∧
      mem' = mem.withLocal param.name value := by
  unfold addParam at h
  split at h
  · cases h
  · next hne =>
      obtain ⟨value, hvalue, h⟩ := Outcome.bind_eq_ok_iff.1 h
      cases h
      refine ⟨?_, value, hvalue, rfl⟩
      cases htype : param.type with
      | tensor t => exact absurd htype (hne t)
      | _ => rfl

theorem addBuffer_spec {mem' : Memory α} {var : Variable}
    (h : m.addBuffer storages mem var = .ok mem') :
    (var.type.asTensor? = none ∧ mem' = mem) ∨
      ∃ type s b, var.type = .tensor type ∧ storages.get? var.name = some s ∧
        m.allocate type.dims s = .ok b ∧ mem' = mem.withBuffer var.name b := by
  unfold addBuffer at h
  split at h
  · next type htype =>
      obtain ⟨s, hs, h⟩ := Outcome.bind_eq_ok_iff.1 h
      obtain ⟨b, hb, h⟩ := Outcome.bind_eq_ok_iff.1 h
      cases h
      exact Or.inr ⟨type, s, b, htype, Outcome.orFail_eq_ok_iff.1 hs, hb, rfl⟩
  · next hne =>
      cases h
      refine Or.inl ⟨?_, rfl⟩
      cases htype : var.type with
      | tensor t => exact absurd htype (hne t)
      | _ => rfl

omit [Scalar α] in
/-- Parameters make locals and no buffers, and none of them is a tensor. -/
theorem addParams_spec (h : m.func.params.foldlM m.addParam Memory.empty = .ok mem) :
    (∀ p ∈ m.func.params, p.type.asTensor? = none) ∧
      (∀ var value, mem.locals.get? var = some value → ∃ p ∈ m.func.params, p.name = var) ∧
        mem.buffers = Table.empty := by
  refine Except.foldlM_prefix
    (P := fun done mem => (∀ p ∈ done, p.type.asTensor? = none) ∧
      (∀ var value, mem.locals.get? var = some value → ∃ p ∈ done, p.name = var) ∧
        mem.buffers = Table.empty) ?_ ⟨by simp, ?_, rfl⟩ h
  · rintro done mem param mem' - ⟨hdone, hlocals, hbuffers⟩ hstep
    obtain ⟨htype, value, _, rfl⟩ := addParam_spec hstep
    refine ⟨?_, ?_, hbuffers⟩
    · intro p hp
      rcases List.mem_append.1 hp with hp | hp
      · exact hdone p hp
      · rw [List.mem_singleton.1 hp]
        exact htype
    · intro var value' hvalue
      simp only [Memory.withLocal, Table.get?_insert] at hvalue
      by_cases hname : param.name = var
      · exact ⟨param, by simp, hname⟩
      · rw [if_neg (by simpa using hname)] at hvalue
        obtain ⟨p, hp, hpname⟩ := hlocals var value' hvalue
        exact ⟨p, List.mem_append_left _ hp, hpname⟩
  · intro var value hvalue
    cases hvalue

/-- The memory has a zero buffer for each tensor among some variables, and no other buffer. -/
structure Buffered (m : Machine α) (storages : Storages) (vars : List Variable) (mem : Memory α) :
    Prop where
  /-- Every tensor has a buffer, laid out as its descriptor says. -/
  tensor : ∀ v ∈ vars, ∀ type, v.type = .tensor type →
    ∃ s b, storages.get? v.name = some s ∧ m.allocate type.dims s = .ok b ∧
      mem.buffers.get? v.name = some b
  /-- Nothing else has one. -/
  only : ∀ var b, mem.buffers.get? var = some b →
    ∃ v ∈ vars, v.name = var ∧ ∃ type, v.type = .tensor type

/-- A variable more is buffered, if no variable before it has its name. -/
theorem Buffered.addBuffer {vars : List Variable} {var : Variable} {mem' : Memory α}
    (h : m.Buffered storages vars mem) (hnames : ∀ v ∈ vars, var.name = v.name → var = v)
    (hstep : m.addBuffer storages mem var = .ok mem') :
    m.Buffered storages (vars ++ [var]) mem' ∧ mem'.locals = mem.locals := by
  rcases addBuffer_spec hstep with ⟨hnone, rfl⟩ | ⟨type, s, b, htype, hs, hb, rfl⟩
  · refine ⟨⟨fun v hv type htype => ?_, fun name b hb => ?_⟩, rfl⟩
    · rcases List.mem_append.1 hv with hv | hv
      · exact h.tensor v hv type htype
      · rw [List.mem_singleton.1 hv] at htype
        rw [htype] at hnone
        cases hnone
    · obtain ⟨v, hv, hname⟩ := h.only name b hb
      exact ⟨v, List.mem_append_left _ hv, hname⟩
  · refine ⟨⟨fun v hv type' htype' => ?_, fun name b' hb' => ?_⟩, rfl⟩
    · have hsame : var.name = v.name → var = v := fun hname =>
        (List.mem_append.1 hv).elim (hnames v · hname) fun hv => (List.mem_singleton.1 hv).symm
      simp only [Memory.withBuffer, Table.get?_insert]
      by_cases hname : var.name = v.name
      · obtain rfl := hsame hname
        obtain rfl := ValueType.tensor.inj (htype.symm.trans htype')
        exact ⟨s, b, hs, hb, by simp⟩
      · rw [if_neg (by simpa using hname)]
        rcases List.mem_append.1 hv with hv | hv
        · exact h.tensor v hv type' htype'
        · exact absurd (congrArg Variable.name (List.mem_singleton.1 hv).symm) hname
    · simp only [Memory.withBuffer, Table.get?_insert] at hb'
      by_cases hname : var.name = name
      · exact ⟨var, by simp, hname, type, htype⟩
      · rw [if_neg (by simpa using hname)] at hb'
        obtain ⟨v, hv, hname⟩ := h.only name b' hb'
        exact ⟨v, List.mem_append_left _ hv, hname⟩

/-- Each tensor among variables whose names tell them apart gets its buffer, and nothing else gets
    one. -/
theorem buffered_of_addBuffers {vars : List Variable} {mem' : Memory α}
    (hnames : ∀ v ∈ vars, ∀ w ∈ vars, v.name = w.name → v = w) (hnone : mem.buffers = Table.empty)
    (h : vars.foldlM (m.addBuffer storages) mem = .ok mem') :
    m.Buffered storages vars mem' ∧ mem'.locals = mem.locals := by
  suffices hall : vars ⊆ vars ∧ m.Buffered storages vars mem' ∧ mem'.locals = mem.locals from hall.2
  refine Except.foldlM_prefix (P := fun done next => done ⊆ vars ∧ m.Buffered storages done next ∧
    next.locals = mem.locals) ?_ ⟨List.nil_subset _, ⟨by simp, fun var b hb => ?_⟩, rfl⟩ h
  · rintro done mem var mem' hvar ⟨hdone, hbuffered, hlocals⟩ hstep
    obtain ⟨hbuffered', hlocals'⟩ :=
      hbuffered.addBuffer (fun v hv => hnames var hvar v (hdone hv)) hstep
    exact ⟨List.append_subset.2 ⟨hdone, by simpa using hvar⟩, hbuffered', hlocals'.trans hlocals⟩
  · rw [hnone] at hb
    cases hb

/-- **The memory at entry** is laid out as the descriptors say, and its locals are the parameters,
    none of which is a tensor. -/
theorem start_spec (hdistinct : m.func.DistinctNames) (h : m.start storages = .ok mem) :
    m.Laid storages mem ∧
      ∀ var value, mem.locals.get? var = some value →
        ∃ type, m.func.varType? var = some type ∧ type.asTensor? = none := by
  obtain ⟨bound, hbound, h⟩ := Outcome.bind_eq_ok_iff.1 h
  obtain ⟨hparams, hlocals, hbuffers⟩ := addParams_spec hbound
  have hsub : ∀ v ∈ m.func.locals ++ m.func.results, v ∈ m.func.allVars := by
    intro v hv
    rw [Func.allVars, List.append_assoc]
    exact List.mem_append_right _ hv
  obtain ⟨⟨htensor, honly⟩, hsame⟩ := buffered_of_addBuffers
    (fun v hv w hw => List.inj_on_of_nodup_map hdistinct (hsub v hv) (hsub w hw)) hbuffers h
  refine ⟨⟨?_, ?_⟩, ?_⟩
  · intro var type htype
    obtain ⟨v, hv, rfl, hvtype⟩ := (Func.varType?_eq_some_iff hdistinct).1 htype
    rw [Func.allVars, List.append_assoc] at hv
    rcases List.mem_append.1 hv with hv | hv
    · have := hparams v hv
      rw [hvtype] at this
      cases this
    · obtain ⟨s, b, hs, hb, hget⟩ := htensor v hv type hvtype
      exact ⟨s, b, b, hs, hb, hget, .refl b⟩
  · intro var b hb
    obtain ⟨v, hv, rfl, type, htype⟩ := honly var b hb
    exact ⟨type, (Func.varType?_eq_some_iff hdistinct).2 ⟨v, hsub v hv, rfl, htype⟩⟩
  · intro var value hvalue
    rw [hsame] at hvalue
    obtain ⟨p, hp, rfl⟩ := hlocals var value hvalue
    refine ⟨p.type, (Func.varType?_eq_some_iff hdistinct).2 ⟨p, ?_, rfl, rfl⟩, hparams p hp⟩
    rw [Func.allVars, List.append_assoc]
    exact List.mem_append_left _ hp

theorem local_of_start (h : m.start storages = .ok mem) {p : Variable} (hp : p ∈ m.func.params) :
    ∃ value, m.bindings.param p.name = .ok value ∧ mem.locals.get? p.name = some value := by
  obtain ⟨bound, hbound, hbuffers⟩ := Outcome.bind_eq_ok_iff.1 h
  have hlocals : mem.locals = bound.locals := by
    refine Except.foldlM_invariant (P := fun mem => mem.locals = bound.locals) ?_ rfl hbuffers
    intro mem var mem' hmem hstep
    rcases addBuffer_spec hstep with ⟨_, rfl⟩ | ⟨_, _, _, _, _, _, rfl⟩ <;> exact hmem
  rw [hlocals]
  refine Except.foldlM_prefix (P := fun done mem => ∀ p ∈ done, ∃ value,
    m.bindings.param p.name = .ok value ∧ mem.locals.get? p.name = some value) ?_ (by simp) hbound p hp
  intro done mem param mem' _ hdone hstep p hp
  obtain ⟨_, value, hvalue, rfl⟩ := addParam_spec hstep
  by_cases hname : param.name = p.name
  · exact ⟨value, hname ▸ hvalue, by simp [Memory.withLocal, Table.get?_insert, hname]⟩
  · have hmem : p ∈ done := (List.mem_append.1 hp).resolve_right fun hmem =>
      hname (by rw [List.mem_singleton.1 hmem])
    simpa [Memory.withLocal, Table.get?_insert, hname] using hdone p hmem

end Machine

/-! ## Runs -/

theorem LoweredFunc.compute_eq_ok {l : LoweredFunc α} {b : Bindings α} {config : SolverConfig α}
    {results : Results α} {updates : List (FieldUpdate α)}
    (h : l.compute b config = .ok (results, updates)) :
    ∃ m start mem, l.machine b config = .ok m ∧ m.start l.storages = .ok start ∧
      m.execAll l.func.body start = .ok mem ∧ mem.results l.func.results = .ok results ∧
      mem.updates = updates := by
  obtain ⟨m, hm, h⟩ := Outcome.bind_eq_ok_iff.1 h
  obtain ⟨start, hstart, h⟩ := Outcome.bind_eq_ok_iff.1 h
  obtain ⟨mem, hmem, h⟩ := Outcome.bind_eq_ok_iff.1 h
  obtain ⟨found, hfound, h⟩ := Outcome.bind_eq_ok_iff.1 h
  obtain ⟨rfl, rfl⟩ := Prod.mk.inj (Except.ok.inj h)
  exact ⟨m, start, mem, hm, hstart, hmem, hfound, rfl⟩

/-- A run that succeeds sets up its memory, runs the body and takes the results from the memory. -/
theorem LoweredFunc.execute_eq_ok {l : LoweredFunc α} {b : Bindings α} {config : SolverConfig α}
    {results : Results α} (h : (l.execute b config).2 = .ok results) :
    ∃ m start mem, l.machine b config = .ok m ∧ m.start l.storages = .ok start ∧
      m.execAll l.func.body start = .ok mem ∧ mem.results l.func.results = .ok results ∧
      b.commit mem.updates = ((l.execute b config).1, .ok ()) := by
  unfold execute at h ⊢
  split at h
  · cases h
  · next found updates hcompute =>
      obtain ⟨m, start, mem, hm, hstart, hmem, hfound, rfl⟩ := compute_eq_ok hcompute
      refine ⟨m, start, mem, hm, hstart, hmem, ?_⟩
      cases hcommit : b.commit mem.updates with
      | mk committed outcome =>
          rw [hcommit] at h
          cases outcome with
          | error fault => cases h
          | ok _ => exact ⟨hfound.trans h, rfl⟩

end

end GraphTensor
