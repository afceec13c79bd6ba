import GraphTensor.Proofs.Lowering.Nests
import GraphTensor.Proofs.Lowering.Sums
import GraphTensor.Proofs.Machine.Sizes
import GraphTensor.Proofs.Scalar
import Mathlib.Algebra.Order.Ring.Rat
set_option autoImplicit false

/-! # All assemblies of a function

The statements of a function run one after another, and each group of lowered statements writes no
other tensors than the statement that it comes from. A target is cleared before the first assembly
into it, after which only assemblies add to it (`Machine.Assembling`); at the end it holds the sum
of what all of them contribute (`Machine.contributions`), the kernel of each reading the memory from
before the assembly.

The elements of an assembly do not see each other, as long as what a kernel reads is bound anew for
each element: targets are not read at all, and names in scope have been bound before. A position
that a read names is not checked to be in scope, though, and what a kernel has bound stays in
memory. `KernelVars.Apart` rules out a position that is bound only after it has been read; without
that, an element reads at the position that the element before it has bound. -/

namespace GraphTensor

variable {α : Type}

/-! ## Names written -/

namespace AccessContext

variable {a : AccessContext α}

theorem binders_of_lowerLoop {header header' : Loop α} (h : a.lowerLoop header = .ok header') :
    header'.binders = header.binders := by
  cases header with
  | row pattern row col position =>
      obtain ⟨row', _, rfl⟩ := lowerLoop_row_eq_ok_iff.1 h
      rfl
  | intersect left right leftRow rightRow col leftPosition rightPosition =>
      obtain ⟨leftRow', rightRow', _, _, rfl⟩ := lowerLoop_intersect_eq_ok_iff.1 h
      rfl
  | elements set element =>
      obtain rfl := Except.ok.inj h
      rfl
  | range var extent =>
      obtain rfl := Except.ok.inj h
      rfl
  | pattern pattern row col position =>
      obtain rfl := Except.ok.inj h
      rfl

mutual

/-- Lowering the accesses of a statement changes neither what it writes nor what it binds. -/
theorem names_of_lowerStmt (s : Stmt α) {s' : Stmt α} (h : a.lowerStmt s = .ok s') :
    s'.writes = s.writes ∧ s'.binds = s.binds := by
  match s with
  | .assign var value =>
      obtain ⟨value', _, rfl⟩ := lowerStmt_assign_eq_ok_iff.1 h
      exact ⟨rfl, rfl⟩
  | .accumulate var value =>
      obtain ⟨value', _, rfl⟩ := lowerStmt_accumulate_eq_ok_iff.1 h
      exact ⟨rfl, rfl⟩
  | .tensorWrite tensor indices position value accumulate =>
      obtain ⟨value', address, _, _, rfl⟩ := lowerStmt_tensorWrite_eq_ok_iff.1 h
      cases address with
      | dense offset block => exact ⟨rfl, rfl⟩
      | sparse position block => exact ⟨rfl, rfl⟩
      | register => cases accumulate <;> exact ⟨rfl, rfl⟩
  | .loop header body =>
      obtain ⟨header', body', hheader, hbody, rfl⟩ := lowerStmt_loop_eq_ok_iff.1 h
      obtain ⟨hwrites, hbinds⟩ := names_of_lowerBody body hbody
      simp only [Stmt.writes, Stmt.binds, hwrites, hbinds, binders_of_lowerLoop hheader, and_self]
  | .zero var =>
      obtain ⟨_, rfl⟩ := lowerStmt_zero_eq_ok_iff.1 h
      exact ⟨rfl, rfl⟩
  | .fieldWrite set field value =>
      obtain ⟨_, rfl⟩ := lowerStmt_fieldWrite_eq_ok_iff.1 h
      exact ⟨rfl, rfl⟩
  | .solve task =>
      obtain ⟨_, rfl⟩ := lowerStmt_solve_eq_ok_iff.1 h
      exact ⟨rfl, rfl⟩
  | .assemble targets set kernel body => cases h
  | .store buffer offset value accumulate =>
      obtain rfl := Except.ok.inj h
      exact ⟨rfl, rfl⟩
  | .sparseStore buffer position value accumulate block =>
      obtain rfl := Except.ok.inj h
      exact ⟨rfl, rfl⟩
termination_by structural s

theorem names_of_lowerBody (body : List (Stmt α)) {body' : List (Stmt α)}
    (h : a.lowerBody body = .ok body') :
    Stmt.writesOfList body' = Stmt.writesOfList body ∧
      Stmt.bindsOfList body' = Stmt.bindsOfList body := by
  match body with
  | [] =>
      obtain rfl := Except.ok.inj h
      exact ⟨rfl, rfl⟩
  | s :: rest =>
      obtain ⟨s', rest', hs, hrest, rfl⟩ := lowerBody_cons_eq_ok.1 h
      obtain ⟨hwrites, hbinds⟩ := names_of_lowerStmt s hs
      obtain ⟨hwrites', hbinds'⟩ := names_of_lowerBody rest hrest
      simp only [Stmt.writesOfList, Stmt.bindsOfList, hwrites, hbinds, hwrites', hbinds', and_self]
termination_by structural body

end

end AccessContext

/-- A lowered kernel writes its targets and the locals that the kernel binds, and opens no loops. -/
theorem KernelContext.Lowers.names {c : KernelContext} {scope : TypeScope α}
    {body lowered : List (Stmt α)} (h : c.Lowers scope body lowered) :
    (∀ name ∈ Stmt.writesOfList lowered,
      name ∈ c.targets ∨ ∃ s ∈ body, s.boundName? = some name) ∧
      Stmt.bindsOfList lowered = [] := by
  have later : ∀ {s : Stmt α} {rest : List (Stmt α)} {name : VarName},
      (name ∈ c.targets ∨ ∃ s ∈ rest, s.boundName? = some name) →
        name ∈ c.targets ∨ ∃ s' ∈ s :: rest, s'.boundName? = some name := by
    rintro s rest name (htarget | ⟨s', hs', hbound⟩)
    · exact Or.inl htarget
    · exact Or.inr ⟨s', List.mem_cons_of_mem _ hs', hbound⟩
  induction h with
  | nil => exact ⟨fun _ h => (List.not_mem_nil h).elim, rfl⟩
  | assign _ _ _ _ ih =>
      refine ⟨fun name hname => ?_, ih.2⟩
      rcases List.mem_append.1 hname with hname | hname
      · exact Or.inr ⟨_, List.mem_cons_self .., by rw [List.mem_singleton.1 hname]; rfl⟩
      · exact later (ih.1 name hname)
  | accumulate _ _ _ _ _ ih =>
      refine ⟨fun name hname => ?_, ih.2⟩
      rcases List.mem_append.1 hname with hname | hname
      · exact Or.inr ⟨_, List.mem_cons_self .., by rw [List.mem_singleton.1 hname]; rfl⟩
      · exact later (ih.1 name hname)
  | write htarget _ _ _ ih =>
      refine ⟨fun name hname => ?_, ih.2⟩
      rcases List.mem_append.1 hname with hname | hname
      · exact Or.inl (by rw [List.mem_singleton.1 hname]; exact htarget)
      · exact later (ih.1 name hname)

/-! ## One assembly -/

/-- What a kernel binds is kept apart from what the function declares, and its reads name no position
    that an element could find bound by another one. Lowering does not see to the latter: it looks up
    the variables of an expression, but takes the position of a read as it is. -/
structure KernelVars.Apart (k : KernelVars) (f : Func α) (body : List (Stmt α)) : Prop where
  /-- The element is not declared. -/
  element : f.varType? k.element.name = none
  /-- The endpoints are not declared. -/
  endpoints : ∀ ep, k.endpoints = some ep → f.varType? ep.name = none
  /-- The kernel's own variables are not bound anew. -/
  kept : k.KeptBy body
  /-- A local is not declared. -/
  undeclared : ∀ s ∈ body, ∀ name, s.boundName? = some name → f.varType? name = none
  /-- Locals are bound anew for each element: a position that a read names is a local that the kernel
      has bound before the read, or is neither a tensor nor bound by the kernel at all. -/
  placed : ∃ known, Stmt.Placed known body ∧ ∀ name ∈ known,
    (∀ type, f.varType? name ≠ some (.tensor type)) ∧ ∀ s ∈ body, s.boundName? ≠ some name

theorem Func.func_kernelScope (f : Func α) (k : KernelVars) : (f.kernelScope k).func = f := by
  unfold kernelScope
  split <;> rfl

theorem Func.lookup_kernelScope {f : Func α} {k : KernelVars} {name : VarName}
    (helement : name ≠ k.element.name) (hendpoints : ∀ ep, k.endpoints = some ep → name ≠ ep.name) :
    (f.kernelScope k).lookup name = Outcome.orFail (.unknownVariable name) (f.varType? name) := by
  unfold kernelScope TypeScope.bindVariable
  split
  · next ep hep =>
      rw [KernelContext.lookup_bind, if_neg (hendpoints ep hep).symm, KernelContext.lookup_bind,
        if_neg helement.symm]
      rfl
  · rw [KernelContext.lookup_bind, if_neg helement.symm]
    rfl

namespace KernelContext

variable [Scalar α] {c : KernelContext} {a : AccessContext α} {f : Func α} {n : Nat}
  {m : Machine α} {before mem mem' : Memory α} {body lowered final : List (Stmt α)}

/-- The names that an assembly writes: its targets and the locals of its kernel. -/
def written (c : KernelContext) (body : List (Stmt α)) : List VarName :=
  c.targets ++ body.filterMap Stmt.boundName?

omit [Scalar α] in
/-- What an assembly writes is a tensor, or its kernel binds it. -/
theorem tensor_or_bound_of_written (htargets : ∀ target ∈ c.targets,
      ∃ type, f.varType? target = some (.tensor type)) {name : VarName}
    (hname : name ∈ c.written body) :
    (∃ type, f.varType? name = some (.tensor type)) ∨ ∃ s ∈ body, s.boundName? = some name :=
  (List.mem_append.1 hname).imp (htargets name) List.mem_filterMap.1

omit [Scalar α] in
theorem names_of_read {e : Nat} {name : VarName} {value : Value α}
    (hchanges : before.Changes (c.written body) [c.kernel.element.name] mem)
    (hwritten : name ∉ c.written body)
    (hvalue : (mem.withLocal c.kernel.element.name (.ofCount e)).read name = .ok value) :
    ElementView.names ⟨m, before, c.set.name, e⟩ c.kernel name = some value := by
  rw [read_withLocal] at hvalue
  unfold ElementView.names Names.bind
  by_cases heq : c.kernel.element.name = name
  · rw [if_pos heq] at hvalue
    rw [if_pos heq.symm, ← Except.ok.inj hvalue]
  · rw [if_neg heq] at hvalue
    rw [if_neg (Ne.symm heq)]
    have hsame : mem.read name = before.read name := by
      unfold Memory.read
      rw [hchanges.local_eq hwritten (by simpa using Ne.symm heq), hchanges.buffer_eq hwritten]
    show (before.read name).toOption = some value
    rw [← hsame, hvalue]
    rfl

/-- An assembly starts with its element bound, everything that it reads being as it was before. -/
theorem Watches.follows {e : Nat} (h : c.Watches a f n ⟨m, before, c.set.name, e⟩)
    (hapart : c.kernel.Apart f body) (htargets : ∀ target ∈ c.targets,
      ∃ type, f.varType? target = some (.tensor type))
    (hlaid : m.Laid c.storages before) (hhidden : before.IndicesOverBuffers)
    {known : List VarName} (hknown : ∀ name ∈ known,
      (∀ type, f.varType? name ≠ some (.tensor type)) ∧ ∀ s ∈ body, s.boundName? ≠ some name)
    (hchanges : before.Changes (c.written body) [c.kernel.element.name] mem) :
    c.Follows (f.kernelScope c.kernel) known ⟨m, before, c.set.name, e⟩
      (ElementView.names ⟨m, before, c.set.name, e⟩ c.kernel)
      (mem.withLocal c.kernel.element.name (.ofCount e)) := by
  have hindex : mem.Changes [] [c.kernel.element.name]
      (mem.withLocal c.kernel.element.name (.ofCount e)) :=
    .single (.index (List.mem_singleton_self _))
  have hall : before.Changes (c.written body) [c.kernel.element.name]
      (mem.withLocal c.kernel.element.name (.ofCount e)) :=
    hchanges.trans (hindex.mono (List.nil_subset _) (List.Subset.refl _))
  refine ⟨fun name type value hlookup htensor => names_of_read hchanges fun hwritten => ?bound,
    fun name hname value _ => names_of_read hchanges fun hwritten => ?position,
    fun name type value htype htarget => names_of_read hchanges fun hwritten => ?tensor, ?element,
    fun tensor htarget => ?buffers, hlaid.changes hall, hall.indicesOverBuffers hhidden⟩
  case bound =>
    rcases tensor_or_bound_of_written htargets hwritten with ⟨type', htype⟩ | ⟨s, hs, hname⟩
    · rw [Func.lookup_kernelScope (fun heq => by rw [heq, hapart.element] at htype; cases htype)
        (fun ep hep heq => by rw [heq, hapart.endpoints ep hep] at htype; cases htype), htype]
        at hlookup
      obtain rfl := Except.ok.inj hlookup
      cases htensor
    · obtain ⟨helement, hendpoints⟩ := hapart.kept s hs name hname
      rw [Func.lookup_kernelScope helement hendpoints, hapart.undeclared s hs name hname] at hlookup
      cases hlookup
  case position =>
    rcases tensor_or_bound_of_written htargets hwritten with ⟨type, htype⟩ | ⟨s, hs, hname'⟩
    · exact (hknown name hname).1 type htype
    · exact (hknown name hname).2 s hs hname'
  case tensor =>
    rcases List.mem_append.1 hwritten with hmem | hmem
    · exact htarget hmem
    · obtain ⟨s, hs, hname⟩ := List.mem_filterMap.1 hmem
      rw [Func.func_kernelScope, hapart.undeclared s hs name hname] at htype
      cases htype
  case element => simp [Memory.withLocal, Table.get?_insert]
  case buffers =>
    by_cases hwritten : tensor ∈ c.written body
    · -- a local of the kernel has no buffer
      rcases List.mem_append.1 hwritten with hmem | hmem
      · exact absurd hmem htarget
      · obtain ⟨s, hs, hname⟩ := List.mem_filterMap.1 hmem
        have hnone : before.buffers.get? tensor = none := hlaid.buffer_none fun type htype => by
          rw [h.runs.types, hapart.undeclared s hs tensor hname] at htype
          cases htype
        exact (hall.buffer_none hnone).trans hnone.symm
    · exact hall.buffer_eq hwritten

omit [Scalar α] in
theorem apart_kernelScope (hcheck : c.kernel.check c.set = .ok ()) (hapart : c.kernel.Apart f body)
    {known : List VarName} (hplaced : Stmt.Placed known body) :
    c.Apart (f.kernelScope c.kernel) known body where
  bound := by
    intro name type hlocal
    rw [Func.func_kernelScope]
    obtain ⟨_, helement, hcheck⟩ := Outcome.bind_eq_ok_iff.1 hcheck
    have helement : c.kernel.element.type = .element c.set.name := by
      simpa using Outcome.failIf_eq_ok_iff.1 helement
    have hfirst : ∀ name type,
        (((TypeScope.ofFunc f).bindVariable c.kernel.element).locals.get? name) = some type →
          f.varType? name = none ∧ type.asTensor? = none := by
      intro name type hlocal
      simp only [TypeScope.bindVariable, TypeScope.bind, Table.get?_insert] at hlocal
      split at hlocal
      · next heq =>
          rw [← beq_iff_eq.1 heq, ← Option.some.inj hlocal, helement]
          exact ⟨hapart.element, rfl⟩
      · cases hlocal
    unfold Func.kernelScope at hlocal
    split at hlocal
    · next ep hep =>
        simp only [TypeScope.bindVariable, TypeScope.bind, Table.get?_insert] at hlocal
        split at hlocal
        · next heq =>
            have htype := Outcome.failIf_eq_ok_iff.1 (by simpa only [hep] using hcheck)
            have htype : ep.type = .endpoints c.set.name := by simpa using (Bool.or_eq_false_iff.1 htype).2
            rw [← beq_iff_eq.1 heq, ← Option.some.inj hlocal, htype]
            exact ⟨hapart.endpoints ep hep, rfl⟩
        · exact hfirst name type hlocal
    · exact hfirst name type hlocal
  kept := hapart.kept
  undeclared := fun s hs name hname => by
    rw [Func.func_kernelScope, hapart.undeclared s hs name hname]
  placed := hplaced

/-- An element writes targets and locals of the kernel, and binds no more than itself. -/
theorem Lowers.changes_element {scope : TypeScope α} (hl : c.Lowers scope body lowered)
    (hfinal : a.lowerBody lowered = .ok final) {e : Nat}
    (hexec : m.execAll final (mem.withLocal c.kernel.element.name (.ofCount e)) = .ok mem') :
    mem.Changes (c.written body) [c.kernel.element.name] mem' := by
  obtain ⟨hwrites, hbinds⟩ := AccessContext.names_of_lowerBody lowered hfinal
  obtain ⟨hnames, hnone⟩ := hl.names
  have hindex : mem.Changes [] [c.kernel.element.name]
      (mem.withLocal c.kernel.element.name (.ofCount e)) :=
    .single (.index (List.mem_singleton_self _))
  have hbody := Machine.changes_execAll final hexec
  rw [hwrites, hbinds, hnone] at hbody
  refine (hindex.mono (List.nil_subset _) (List.Subset.refl _)).trans
    (hbody.mono (fun name hname => ?_) (List.nil_subset _))
  rcases hnames name hname with htarget | ⟨s, hs, hbound⟩
  · exact List.mem_append_left _ htarget
  · exact List.mem_append_right _ (List.mem_filterMap.2 ⟨s, hs, hbound⟩)

/-- **One assembly** adds the contributions of all elements to the sums that its targets hold. -/
theorem Lowers.holdsSum_elements (hl : c.Lowers (f.kernelScope c.kernel) body lowered)
    (hwatches : ∀ e < n, c.Watches a f n ⟨m, before, c.set.name, e⟩)
    (hcheck : c.kernel.check c.set = .ok ()) (hapart : c.kernel.Apart f body)
    (htargets : ∀ target ∈ c.targets, ∃ type, f.varType? target = some (.tensor type))
    (hlaid : m.Laid c.storages before) (hhidden : before.IndicesOverBuffers)
    (hfinal : a.lowerBody lowered = .ok final)
    (hchanges : before.Changes (c.written body) [c.kernel.element.name] mem)
    (hexec : (List.range n).foldlM
      (fun mem e => m.execAll final (mem.withLocal c.kernel.element.name (.ofCount e))) mem =
        .ok mem')
    {tensor : VarName} {type : TensorType} (htype : f.varType? tensor = some (.tensor type))
    {earlier : List (Option (List Int × BlockValue α))}
    (hsum : m.HoldsSum mem tensor type earlier) :
    m.HoldsSum mem' tensor type (earlier ++ (List.range n).flatMap fun e =>
      let v : ElementView α := ⟨m, before, c.set.name, e⟩
      v.contributions tensor type.block (v.names c.kernel) body) := by
  obtain ⟨known, hplaced, hknown⟩ := hapart.placed
  refine (Except.foldlM_prefix (P := fun done mem =>
    before.Changes (c.written body) [c.kernel.element.name] mem ∧
      m.HoldsSum mem tensor type (earlier ++ done.flatMap fun e =>
        let v : ElementView α := ⟨m, before, c.set.name, e⟩
        v.contributions tensor type.block (v.names c.kernel) body)) ?_ ⟨hchanges, ?_⟩ hexec).2
  · rintro done mem e next he ⟨hchanges, hsum⟩ hnext
    have h := hwatches e (List.mem_range.1 he)
    have hf := h.follows hapart htargets hlaid hhidden hknown hchanges
    refine ⟨hchanges.trans (hl.changes_element hfinal hnext), ?_⟩
    rw [List.flatMap_append, ← List.append_assoc]
    simpa using hl.holdsSum h (f.func_kernelScope c.kernel) (knowsKernel_kernelScope hcheck)
      (apart_kernelScope hcheck hapart hplaced) hf hfinal hnext htype (hsum.congr rfl)
  · simpa using hsum

end KernelContext

/-! ## All assemblies -/

section

variable [Scalar α]

/-- What a statement contributes to a tensor: for an assembly, what the kernel contributes at each
    element, given the memory from before the assembly. -/
def Machine.contributionsOf (m : Machine α) (tensor : VarName) (block : BlockShape)
    (before : Memory α) : Stmt α → List (Option (List Int × BlockValue α))
  | .assemble _ set kernel body =>
    match m.resolution.size set with
    | .ok n => (List.range n).flatMap fun e =>
        let v : ElementView α := ⟨m, before, set, e⟩
        v.contributions tensor block (v.names kernel) body
    | .error _ => []
  | _ => []

/-- What statements contribute to a tensor as a run goes through what they are lowered to. -/
def Machine.contributions (m : Machine α) (tensor : VarName) (block : BlockShape) :
    List (Stmt α × List (Stmt α)) → Memory α → List (Option (List Int × BlockValue α))
  | [], _ => []
  | (s, lowered) :: rest, mem =>
    m.contributionsOf tensor block mem s ++
      match m.execAll lowered mem with
      | .ok next => m.contributions tensor block rest next
      | .error _ => []

theorem Machine.contributionsOf_eq_nil {m : Machine α} {s : Stmt α} (h : s.isAssemble = false)
    (tensor : VarName) (block : BlockShape) (mem : Memory α) :
    m.contributionsOf tensor block mem s = [] := by
  cases s <;> first | rfl | cases h

theorem Machine.contributions_eq_nil {m : Machine α} {tensor : VarName} {block : BlockShape}
    {pairs : List (Stmt α × List (Stmt α))} (h : ∀ pair ∈ pairs, pair.1.isAssemble = false)
    (mem : Memory α) : m.contributions tensor block pairs mem = [] := by
  induction pairs generalizing mem with
  | nil => rfl
  | cons pair rest ih =>
      rw [contributions, contributionsOf_eq_nil (h pair (List.mem_cons_self ..)), List.nil_append]
      split
      · exact ih (fun pair hpair => h pair (List.mem_cons_of_mem _ hpair)) _
      · rfl

/-- The targets that an assembly clears are those that have not been cleared before. -/
theorem mem_freshTargets_iff {zeroed targets : List VarName} {target : VarName} :
    target ∈ freshTargets zeroed targets ↔ target ∈ targets ∧ target ∉ zeroed := by
  induction targets generalizing zeroed with
  | nil => simp [freshTargets]
  | cons first rest ih =>
      by_cases hzeroed : first ∈ zeroed
      · rw [freshTargets, if_pos (by simpa using hzeroed), ih]
        constructor
        · exact fun ⟨hrest, hnew⟩ => ⟨List.mem_cons_of_mem _ hrest, hnew⟩
        · rintro ⟨hmem, hnew⟩
          rcases List.mem_cons.1 hmem with rfl | hrest
          · exact absurd hzeroed hnew
          · exact ⟨hrest, hnew⟩
      · rw [freshTargets, if_neg (by simpa using hzeroed), List.mem_cons, ih]
        by_cases heq : target = first
        · subst heq
          simp [hzeroed]
        · simp [heq]

omit [Scalar α] in
theorem Stmt.writesOfList_zeros (targets : List VarName) :
    writesOfList (targets.map (zero : VarName → Stmt α)) = targets := by
  induction targets with
  | nil => rfl
  | cons target rest ih => rw [List.map_cons, writesOfList, ih, writes, List.singleton_append]

omit [Scalar α] in
theorem Stmt.bindsOfList_zeros (targets : List VarName) :
    bindsOfList (targets.map (zero : VarName → Stmt α)) = [] := by
  induction targets with
  | nil => rfl
  | cons target rest ih => rw [List.map_cons, bindsOfList, ih, binds, List.append_nil]

theorem Machine.holdsSum_of_zeros {m : Machine α} {storages : Storages} {tensor : VarName}
    {type : TensorType} (hdescribes : m.Describes storages)
    (htype : m.func.varType? tensor = some (.tensor type)) {targets : List VarName}
    {mem mem' : Memory α} (hlaid : m.Laid storages mem)
    (h : m.execAll (targets.map .zero) mem = .ok mem')
    (hsum : tensor ∈ targets ∨ m.HoldsSum mem tensor type []) : m.HoldsSum mem' tensor type [] := by
  induction targets generalizing mem with
  | nil =>
      obtain rfl := Except.ok.inj h
      exact hsum.resolve_left List.not_mem_nil
  | cons target rest ih =>
      obtain ⟨next, hnext, h⟩ := execAll_cons_eq_ok_iff.1 h
      refine ih (hlaid.changes (changes_exec _ hnext)) h ?_
      rw [exec] at hnext
      obtain ⟨b, hb, hnext⟩ := Outcome.bind_eq_ok_iff.1 hnext
      obtain rfl := Except.ok.inj hnext
      have hb := Outcome.orFail_eq_ok_iff.1 hb
      by_cases heq : tensor = target
      · subst heq
        obtain ⟨s, b', _, hblock, hb', hshaped⟩ := hlaid.shaped hdescribes htype
        obtain rfl : b = b' := Option.some.inj (hb.symm.trans hb')
        exact Or.inr (.cleared htype hshaped hblock)
      · rcases hsum with hmem | hsum
        · exact Or.inl ((List.mem_cons.1 hmem).resolve_left heq)
        · exact Or.inr (hsum.congr (by simp [Memory.withBuffer, Table.get?_insert, Ne.symm heq]))

theorem KernelContext.Lowers.contributions_eq_nil {c : KernelContext} {scope : TypeScope α}
    {body lowered : List (Stmt α)} (hl : c.Lowers scope body lowered) {tensor : VarName}
    (htarget : tensor ∉ c.targets) (v : ElementView α) (block : BlockShape) (names : Names α) :
    v.contributions tensor block names body = [] := by
  induction hl generalizing names with
  | nil => rfl
  | assign _ _ _ _ ih => exact ih _
  | accumulate _ _ _ _ _ ih => exact ih _
  | write hmem _ _ _ ih =>
      have hne : ¬ _ = tensor := fun heq => htarget (heq ▸ hmem)
      rw [ElementView.contributions, if_neg hne]
      exact ih _

/-- What a run of a lowered function works with: descriptors that suit its tensors, and sets that
    words count. -/
structure Func.Carries (f : Func α) (storages : Storages) (m : Machine α) : Prop where
  /-- The run has lowered against inferred descriptors. -/
  runs : ∀ decl, f.set? decl.name = some decl → ∀ targets kernel,
    ∃ n, (KernelContext.mk storages targets decl kernel).Runs f m n
  /-- Words count the elements of every set. -/
  words : ∀ set k, m.resolution.size set = .ok k → k < Word.bound
  /-- The descriptors suit the tensors. -/
  describes : m.Describes storages
  /-- The machine runs a function with the same variables. -/
  types : ∀ var, m.func.varType? var = f.varType? var

section

variable {f : Func α} {storages : Storages} {search : Search} {assembled contracted : List (Stmt α)}
  {m : Machine α} {mem mem' : Memory α} {tensor : VarName} {type : TensorType}
  {earlier : List (Option (List Int × BlockValue α))}

/-- **A lowered assembly** adds what its kernels contribute, if it is not the first for the tensor,
    to the sum that the tensor holds, and else to nothing. -/
theorem Func.holdsSum_of_assembly (hcarries : f.Carries storages m)
    (htype : f.varType? tensor = some (.tensor type)) {zeroed targets : List VarName}
    {set : SetName} {kernel : KernelVars} {body : List (Stmt α)} {loop lowered : Stmt α}
    (hapart : kernel.Apart f body)
    (hloop : f.lowerAssembly storages targets set kernel body = .ok loop)
    (hlowered : (AccessContext.mk (f.withBody contracted) storages search).lowerStmt loop =
      .ok lowered)
    (hlaid : m.Laid storages mem) (hhidden : mem.IndicesOverBuffers)
    (hexec : m.execAll ((freshTargets zeroed targets).map .zero ++ [lowered]) mem = .ok mem')
    (hsum : tensor ∈ zeroed → m.HoldsSum mem tensor type earlier)
    (hnone : tensor ∉ zeroed → earlier = []) :
    (tensor ∈ zeroed ++ freshTargets zeroed targets → m.HoldsSum mem' tensor type
        (earlier ++ m.contributionsOf tensor type.block mem (.assemble targets set kernel body))) ∧
      (tensor ∉ zeroed ++ freshTargets zeroed targets →
        m.contributionsOf tensor type.block mem (.assemble targets set kernel body) = []) := by
  obtain ⟨decl, kernelBody, hdecl, hcheck, htargets, hkernel, rfl⟩ := lowerAssembly_eq_loop hloop
  obtain ⟨rfl, _⟩ := name_of_set? hdecl
  obtain ⟨n, hruns⟩ := hcarries.runs decl hdecl targets kernel
  have hsize : m.resolution.size decl.name = .ok n := Resolution.size_eq_ok_iff.2 hruns.size
  have hlowers := KernelContext.lowers_of_lowerBody hkernel
  simp only [Machine.contributionsOf, hsize]
  refine ⟨fun hmem => ?_, fun hmem => ?_⟩
  · obtain ⟨header, final, hheader, hfinal, rfl⟩ :=
      AccessContext.lowerStmt_loop_eq_ok_iff.1 hlowered
    obtain rfl := Except.ok.inj hheader
    obtain ⟨cleared, hcleared, hexec⟩ := Machine.execAll_append_eq_ok.1 hexec
    obtain ⟨next, hnext, hexec⟩ := Machine.execAll_cons_eq_ok_iff.1 hexec
    obtain rfl := Except.ok.inj hexec
    rw [Machine.exec_elements hsize] at hnext
    have hzeros := Machine.changes_execAll _ hcleared
    rw [Stmt.writesOfList_zeros, Stmt.bindsOfList_zeros] at hzeros
    have hcleared : m.HoldsSum cleared tensor type earlier := by
      by_cases hfresh : tensor ∈ freshTargets zeroed targets
      · rw [hnone (mem_freshTargets_iff.1 hfresh).2]
        exact Machine.holdsSum_of_zeros hcarries.describes ((hcarries.types tensor).trans htype)
          hlaid hcleared (Or.inl hfresh)
      · exact (hsum ((List.mem_append.1 hmem).resolve_right hfresh)).congr
          (hzeros.buffer_eq hfresh)
    have hfresh : freshTargets zeroed targets ⊆ targets :=
      fun target htarget => (mem_freshTargets_iff.1 htarget).1
    refine hlowers.holdsSum_elements (fun e he => ?_) hcheck hapart (fun target htarget => ?_) hlaid
      hhidden hfinal (hzeros.mono (List.Subset.trans hfresh (List.subset_append_left _ _)) (List.nil_subset _))
      hnext htype hcleared
    · exact ⟨hruns, hcarries.words, hcarries.describes, rfl, fun _ => rfl, rfl, he⟩
    · obtain ⟨_, htensor, _⟩ := Outcome.bind_eq_ok_iff.1 (htargets target htarget)
      exact ⟨_, Func.varType?_of_tensorType? (Outcome.orFail_eq_ok_iff.1 htensor)⟩
  · have htarget : tensor ∉ targets := fun hin =>
      hmem (by
        by_cases hzeroed : tensor ∈ zeroed
        · exact List.mem_append_left _ hzeroed
        · exact List.mem_append_right _ (mem_freshTargets_iff.2 ⟨hin, hzeroed⟩))
    exact List.flatMap_eq_nil_iff.2 fun e _ => hlowers.contributions_eq_nil htarget _ _ _

/-- What a run keeps between the statements before and those of `body`: the tensor holds what has been
    contributed once it is cleared, and an assembly of the body clears it otherwise. -/
structure Machine.Assembling (m : Machine α) (storages : Storages) (tensor : VarName)
    (type : TensorType) (zeroed : List VarName) (body : List (Stmt α)) (mem : Memory α)
    (earlier : List (Option (List Int × BlockValue α))) : Prop where
  /-- The memory is laid out. -/
  laid : m.Laid storages mem
  /-- Only loop variables hide buffers. -/
  hidden : mem.IndicesOverBuffers
  /-- A cleared tensor holds a sum. -/
  sum : tensor ∈ zeroed → m.HoldsSum mem tensor type earlier
  /-- Before, nothing has been contributed. -/
  fresh : tensor ∉ zeroed → earlier = []
  /-- An assembly of the body clears it, if none has. -/
  target : tensor ∈ zeroed ∨ ∃ targets set kernel kernelBody,
    .assemble targets set kernel kernelBody ∈ body ∧ tensor ∈ targets

namespace Machine.Assembling

variable {zeroed : List VarName} {rest : List (Stmt α)} {group : List (Stmt α)} {next : Memory α}

/-- **A statement that is no assembly** leaves the tensor alone. -/
theorem other {s : Stmt α}
    (h : m.Assembling storages tensor type zeroed (s :: rest) mem earlier)
    (hassemble : s.isAssemble = false) (hwrites : tensor ∉ Stmt.writesOfList group)
    (hexec : m.execAll group mem = .ok next) :
    m.Assembling storages tensor type zeroed rest next earlier where
  laid := h.laid.changes (changes_execAll _ hexec)
  hidden := (changes_execAll _ hexec).indicesOverBuffers h.hidden
  sum hzeroed := (h.sum hzeroed).congr ((changes_execAll _ hexec).buffer_eq hwrites)
  fresh := h.fresh
  target := h.target.imp_right fun ⟨targets, set, kernel, body, hmem, htarget⟩ => by
    refine ⟨targets, set, kernel, body, (List.mem_cons.1 hmem).resolve_left fun heq => ?_, htarget⟩
    rw [← heq] at hassemble
    cases hassemble

/-- **An assembly** adds what its kernels contribute. -/
theorem assembly {targets : List VarName} {set : SetName} {kernel : KernelVars}
    {body : List (Stmt α)} {loop lowered : Stmt α}
    (h : m.Assembling storages tensor type zeroed (.assemble targets set kernel body :: rest) mem
      earlier)
    (hcarries : f.Carries storages m) (htype : f.varType? tensor = some (.tensor type))
    (hapart : kernel.Apart f body)
    (hloop : f.lowerAssembly storages targets set kernel body = .ok loop)
    (hlowered : (AccessContext.mk (f.withBody contracted) storages search).lowerStmt loop =
      .ok lowered)
    (hexec : m.execAll ((freshTargets zeroed targets).map .zero ++ [lowered]) mem = .ok next) :
    m.Assembling storages tensor type (zeroed ++ freshTargets zeroed targets) rest next
      (earlier ++
        m.contributionsOf tensor type.block mem (.assemble targets set kernel body)) := by
  obtain ⟨hadds, hnothing⟩ := Func.holdsSum_of_assembly hcarries htype hapart hloop hlowered h.laid
    h.hidden hexec h.sum h.fresh
  have hchanges := changes_execAll _ hexec
  refine ⟨h.laid.changes hchanges, hchanges.indicesOverBuffers h.hidden, hadds, fun hnew => ?_, ?_⟩
  · rw [hnothing hnew, h.fresh fun hzeroed => hnew (List.mem_append_left _ hzeroed)]
    rfl
  · rcases h.target with hzeroed | ⟨targets', set', kernel', body', hmem, htarget⟩
    · exact Or.inl (List.mem_append_left _ hzeroed)
    · rcases List.mem_cons.1 hmem with heq | hmem
      · obtain ⟨rfl, rfl, rfl, rfl⟩ := Stmt.assemble.inj heq
        by_cases hzeroed : tensor ∈ zeroed
        · exact Or.inl (List.mem_append_left _ hzeroed)
        · exact Or.inl (List.mem_append_right _ (mem_freshTargets_iff.2 ⟨htarget, hzeroed⟩))
      · exact Or.inr ⟨targets', set', kernel', body', hmem, htarget⟩

end Machine.Assembling

/-- **All lowered statements** leave a tensor that only assemblies write with the sum of what the
    assemblies contribute. -/
theorem Func.Groups.holdsSum {zeroed : List VarName} {names : Nat} {body : List (Stmt α)}
    {groups : List (List (Stmt α))}
    (h : f.Groups storages search assembled contracted zeroed names body groups)
    (hcarries : f.Carries storages m) (htype : f.varType? tensor = some (.tensor type))
    (hapart : ∀ targets set kernel kernelBody,
      .assemble targets set kernel kernelBody ∈ body → kernel.Apart f kernelBody)
    (hothers : ∀ s ∈ body, s.isAssemble = false → tensor ∉ s.writes)
    (hassembling : m.Assembling storages tensor type zeroed body mem earlier)
    (hexec : m.execAll groups.flatten mem = .ok mem') :
    m.HoldsSum mem' tensor type
      (earlier ++ m.contributions tensor type.block (body.zip groups) mem) := by
  induction h generalizing mem earlier with
  | nil =>
      obtain rfl := Except.ok.inj hexec
      rw [List.zip_nil_left, Machine.contributions, List.append_nil]
      refine hassembling.sum (hassembling.target.resolve_right ?_)
      rintro ⟨_, _, _, _, hmem, _⟩
      cases hmem
  | @assembly zeroed targets names set kernel kernelBody rest loop lowered groups hloop hlowered _
      ih =>
      rw [List.flatten_cons] at hexec
      obtain ⟨next, hnext, hexec⟩ := Machine.execAll_append_eq_ok.1 hexec
      rw [List.zip_cons_cons, Machine.contributions, hnext, ← List.append_assoc]
      exact ih (fun _ _ _ _ hmem => hapart _ _ _ _ (List.mem_cons_of_mem _ hmem))
        (fun s hs => hothers s (List.mem_cons_of_mem _ hs))
        (hassembling.assembly hcarries htype (hapart _ _ _ _ (List.mem_cons_self ..)) hloop hlowered
          hnext) hexec
  | @contraction zeroed names names' target free body rest nests lowered groups hnests hlowered _
      ih =>
      rw [List.flatten_cons] at hexec
      obtain ⟨next, hnext, hexec⟩ := Machine.execAll_append_eq_ok.1 hexec
      have hwrites : tensor ∉ Stmt.writesOfList lowered := by
        rw [(AccessContext.names_of_lowerBody nests hlowered).1]
        exact fun hmem => hothers _ (List.mem_cons_self ..) rfl
          ((Func.names_of_lowerContraction hnests).1 hmem)
      rw [List.zip_cons_cons, Machine.contributions, hnext, Machine.contributionsOf_eq_nil rfl,
        List.nil_append]
      exact ih (fun _ _ _ _ hmem => hapart _ _ _ _ (List.mem_cons_of_mem _ hmem))
        (fun s hs => hothers s (List.mem_cons_of_mem _ hs)) (hassembling.other rfl hwrites hnext)
        hexec
  | @other zeroed names s lowered rest groups hassemble hcontraction hlowered _ ih =>
      rw [List.flatten_cons] at hexec
      obtain ⟨next, hnext, hexec⟩ := Machine.execAll_append_eq_ok.1 hexec
      have hwrites : tensor ∉ Stmt.writesOfList [lowered] := by
        rw [Stmt.writesOfList, Stmt.writesOfList, List.append_nil,
          (AccessContext.names_of_lowerStmt s hlowered).1]
        exact hothers s (List.mem_cons_self ..) hassemble
      rw [List.zip_cons_cons, Machine.contributions, hnext,
        Machine.contributionsOf_eq_nil hassemble, List.nil_append]
      exact ih (fun _ _ _ _ hmem => hapart _ _ _ _ (List.mem_cons_of_mem _ hmem))
        (fun s hs => hothers s (List.mem_cons_of_mem _ hs))
        (hassembling.other hassemble hwrites hnext) hexec

theorem Func.Groups.target_isTensor {zeroed : List VarName} {names : Nat} {body : List (Stmt α)}
    {groups : List (List (Stmt α))}
    (h : f.Groups storages search assembled contracted zeroed names body groups)
    (htarget : ∃ targets set kernel kernelBody,
      .assemble targets set kernel kernelBody ∈ body ∧ tensor ∈ targets) :
    ∃ type, f.varType? tensor = some (.tensor type) := by
  obtain ⟨targets, set, kernel, kernelBody, hmem, htarget⟩ := htarget
  obtain ⟨earlier, later, rfl⟩ := List.append_of_mem hmem
  obtain ⟨_, _, _, _, _, hsplit, _⟩ := h.split
  cases hsplit with
  | other hassemble => cases hassemble
  | assembly hloop _ _ =>
      obtain ⟨_, _, _, _, htargets, _⟩ := lowerAssembly_eq_loop hloop
      obtain ⟨_, htensor, _⟩ := Outcome.bind_eq_ok_iff.1 (htargets tensor htarget)
      exact ⟨_, varType?_of_tensorType? (Outcome.orFail_eq_ok_iff.1 htensor)⟩

end

/-- Every set that is bound has a word of elements. -/
def Bindings.Counted (b : Bindings α) : Prop :=
  ∀ set data, b.set set = .ok data → data.size < Word.bound

omit [Scalar α] in
theorem Bindings.counted_empty : (Bindings.empty : Bindings α).Counted := fun _ _ h => by cases h

omit [Scalar α] in
theorem Bindings.Counted.withSet {b : Bindings α} (h : b.Counted) {set : SetName}
    {data : SetData α} (hdata : data.size < Word.bound) : (b.withSet set data).Counted := by
  intro other found hfound
  have hget := Outcome.orFail_eq_ok_iff.1 hfound
  rw [Bindings.withSet, Table.get?_insert] at hget
  split at hget
  · exact Option.some.inj hget ▸ hdata
  · exact h other found (Outcome.orFail_eq_ok_iff.2 hget)

/-- A run of a function that is lowered against its inferred descriptors. -/
theorem Func.carries_of_machine {f : Func α} {storages : Storages} {l : LoweredFunc α}
    {b : Bindings α} {config : SolverConfig α} {m : Machine α} (hdistinct : f.DistinctNames)
    (hstorages : f.inferStorage = .ok storages) {body : List (Stmt α)}
    (hl : l = ⟨f.withBody body, storages⟩) (hmachine : l.machine b config = .ok m)
    (hcounted : b.Counted) : f.Carries storages m := by
  obtain ⟨_, _, _, _, hfits⟩ := LoweredFunc.machine_spec hmachine
  refine ⟨fun decl hdecl targets kernel => ?_, fun set k hk => ?_, ?_, fun var => ?_⟩
  · exact KernelContext.runs_of_machine hdistinct hstorages hl hmachine hdecl targets kernel
  · obtain ⟨data, hdata, rfl⟩ := hfits.sizes set k (Resolution.size_eq_ok_iff.1 hk)
    exact hcounted set data hdata
  · exact LoweredFunc.describes_machine hdistinct hstorages (hl ▸ hmachine)
  · exact LoweredFunc.varType?_machine (hl ▸ hmachine) var

omit [Scalar α] in
theorem Memory.Apart.indicesOverBuffers {mem : Memory α} (h : mem.Apart) :
    mem.IndicesOverBuffers := by
  intro var b value hb hvalue
  rw [h var b hb] at hvalue
  cases hvalue

/-- At entry the locals are parameters, and no parameter is a tensor. -/
theorem Machine.apart_of_start {storages : Storages} {m : Machine α} {start : Memory α}
    (hdistinct : m.func.DistinctNames) (h : m.start storages = .ok start) : start.Apart := by
  obtain ⟨hlaid, hlocals⟩ := start_spec hdistinct h
  intro name b hb
  obtain ⟨type, htype⟩ := hlaid.onlyTensors name b hb
  cases hlocal : start.locals.get? name with
  | none => rfl
  | some value =>
      obtain ⟨type', htype', hnone⟩ := hlocals name value hlocal
      obtain rfl := Option.some.inj (htype.symm.trans htype')
      cases hnone

omit [Scalar α] in
theorem Memory.get?_results {mem : Memory α} {vars : List Variable} {results : Results α}
    (h : mem.results vars = .ok results) {var : Variable} (hvar : var ∈ vars) :
    ∃ b, mem.result var.name = .ok b ∧ results.get? var.name = some b := by
  refine Except.foldlM_prefix (P := fun done (results : Results α) => ∀ var ∈ done,
    ∃ b, mem.result var.name = .ok b ∧ results.get? var.name = some b) ?_ (by simp) h var hvar
  intro done results var results' _ hdone hstep other hother
  obtain ⟨b, hb, hstep⟩ := Outcome.bind_eq_ok_iff.1 hstep
  obtain rfl := Except.ok.inj hstep
  by_cases heq : var.name = other.name
  · exact ⟨b, heq ▸ hb, by simp [Table.get?_insert, heq]⟩
  · obtain ⟨b', hb', hget⟩ := hdone other ((List.mem_append.1 hother).resolve_right fun hmem =>
      heq (by rw [List.mem_singleton.1 hmem]))
    exact ⟨b', hb', by simpa [Table.get?_insert, heq] using hget⟩

/-- **Assemblies compute sums.** When a run of a lowered function succeeds, a tensor that is a target
    of assemblies and that no other statement writes holds at each tuple of its dimensions the sum of
    what the kernels of all assemblies contribute there, over all elements in order and from zero.

    Every kernel has to be `KernelVars.Apart`: its names are not declared, and a position that a read
    names is a local bound before the read (`Stmt.Placed`), or is neither a tensor nor bound by the
    kernel. Locals outlive an element, so a read at a local that is bound too late goes where the
    element before has left it. -/
theorem Func.assembled_holdsSum {f : Func α} {options : LowerOptions} {l : LoweredFunc α}
    {b : Bindings α} {config : SolverConfig α} {results : Results α} {tensor : VarName}
    (hdistinct : f.DistinctNames) (hlower : f.lower options = .ok l)
    (hapart : ∀ targets set kernel body,
      .assemble targets set kernel body ∈ f.body → kernel.Apart f body)
    (htarget : ∃ targets set kernel body,
      .assemble targets set kernel body ∈ f.body ∧ tensor ∈ targets)
    (hothers : ∀ s ∈ f.body, s.isAssemble = false → tensor ∉ s.writes)
    (hcounted : b.Counted) (hexecute : (l.execute b config).2 = .ok results) :
    ∃ type m start mem assembled contracted groups, f.varType? tensor = some (.tensor type) ∧
      f.Groups l.storages options.search assembled contracted [] 0 f.body groups ∧
      l.func.body = groups.flatten ∧ l.machine b config = .ok m ∧
      m.start l.storages = .ok start ∧ m.execAll l.func.body start = .ok mem ∧
      m.HoldsSum mem tensor type (m.contributions tensor type.block (f.body.zip groups) start) ∧
      ∀ result ∈ f.results, result.name = tensor →
        results.get? tensor = mem.buffers.get? tensor := by
  obtain ⟨storages, hstorages, hlower⟩ := Outcome.bind_eq_ok_iff.1 hlower
  obtain ⟨assembled, contracted, groups, hgroups, rfl⟩ := groups_of_lowerWith hlower
  obtain ⟨m, start, mem, hmachine, hstart, hexec, hresults, _⟩ := LoweredFunc.execute_eq_ok hexecute
  have hcarries := carries_of_machine hdistinct hstorages rfl hmachine hcounted
  obtain ⟨type, htype⟩ := hgroups.target_isTensor htarget
  have hmdistinct : m.func.DistinctNames := by
    rw [(LoweredFunc.machine_spec hmachine).1]
    exact hdistinct
  obtain ⟨hlaid, _⟩ := Machine.start_spec hmdistinct hstart
  have hhidden : start.IndicesOverBuffers :=
    (Machine.apart_of_start hmdistinct hstart).indicesOverBuffers
  refine ⟨type, m, start, mem, assembled, contracted, groups, htype, hgroups, rfl, hmachine, hstart,
    hexec, ?_, fun result hresult hname => ?_⟩
  · exact hgroups.holdsSum hcarries htype hapart hothers
      ⟨hlaid, hhidden, fun h => (List.not_mem_nil h).elim, fun _ => rfl, Or.inr htarget⟩ hexec
  · obtain ⟨buffer, hbuffer, hget⟩ := Memory.get?_results hresults hresult
    obtain ⟨_, _, b', _, _, hb', _⟩ := (hlaid.changes (Machine.changes_execAll _ hexec)).tensor
      tensor type ((hcarries.types tensor).trans htype)
    rw [hname] at hbuffer hget
    rw [Memory.result, hb'] at hbuffer
    rw [hget, hb', Except.ok.inj hbuffer]

end

/-! ## Two assemblies into one matrix -/

/-- Edges and vertices of a graph are counted in one matrix, an edge at its two ends and a vertex on
    the diagonal. -/
def incidenceCounts : Func Float :=
  let one : Expr Float := .literal (.float 1)
  (Func.named "f").withSet (.plain "V")
    |>.withSet (.relation "E" "V" 2)
    |>.withResult "a" (.matrix "V" "V" .scalar)
    |>.withAssembly ["a"] "E" (fun k =>
      [.contribute "a" [k.endpointExpr 0, k.endpointExpr 1] one])
    |>.withAssembly ["a"] "V" (fun k => [.contribute "a" [k.elementExpr, k.elementExpr] one])

/-- Two vertices, two edges between them and an edge from the second to itself. -/
def parallelEdges : Bindings Float :=
  Bindings.empty.withSet "V" (.plain 2)
    |>.withSet "E" (.relation 2 #[0, 1, 0, 1, 1, 1])

/-- The counts once they are lowered: the matrix is cleared once. -/
def incidenceCountsLowered : LoweredFunc Float :=
  let pattern : PatternRef := .square "E" "V"
  let count (row col : Expr Float) : Stmt Float :=
    .sparseStore "a" (.locate pattern row col .binary) (.literal (.float 1)) true .scalar
  let endpoint (slot : Nat) : Expr Float := .endpointOf "E" (.var "E.e") slot
  ⟨incidenceCounts.withBody [.zero "a",
      .loop (.elements "E" "E.e") [count (endpoint 0) (endpoint 1)],
      .loop (.elements "V" "V.e") [count (.var "V.e") (.var "V.e")]],
    ⟨[("a", ⟨.sparse pattern, .scalar⟩)]⟩⟩

theorem incidenceCounts_lower : incidenceCounts.lower .standard = .ok incidenceCountsLowered := by
  let inf := incidenceCounts.inference Table.empty
  let evidence : Evidence := ⟨[("a", .square "E" "V")]⟩
  have hsettled : inf.propagate evidence.keys evidence = .ok evidence := by
    rw [Inference.propagate]
    rfl
  show (inf.propagate evidence.keys evidence >>= fun _ => _) >>= _ = _
  rw [hsettled]
  rfl

/-- The matrix holds the sum of all counts, those of the parallel edges and of the loop included. -/
theorem incidenceCounts_holdsSum :
    ∃ results m start mem groups,
      (incidenceCountsLowered.execute parallelEdges .standard).2 = .ok results ∧
        incidenceCountsLowered.machine parallelEdges .standard = .ok m ∧
        m.start incidenceCountsLowered.storages = .ok start ∧
        m.execAll incidenceCountsLowered.func.body start = .ok mem ∧
        m.HoldsSum mem "a" (.matrix "V" "V" .scalar)
          (m.contributions "a" .scalar (incidenceCounts.body.zip groups) start) ∧
        results.get? "a" = mem.buffers.get? "a" := by
  have hapart : ∀ targets set kernel body,
      .assemble targets set kernel body ∈ incidenceCounts.body →
        kernel.Apart incidenceCounts body := by
    intro targets set kernel body hmem
    have hnames : ∀ {indices : List (Expr Float)} {value : Expr Float},
        ∀ s ∈ [Stmt.contribute "a" indices value], s.boundName? = none := by
      intro indices value s hs
      rw [List.mem_singleton.1 hs]
      rfl
    rcases List.mem_cons.1 hmem with heq | hmem
    · obtain ⟨rfl, rfl, rfl, rfl⟩ := Stmt.assemble.inj heq
      refine ⟨rfl, fun ep hep => ?_, fun s hs name hname => ?_, fun s hs name hname => ?_,
        [], ⟨by decide, trivial⟩, by simp⟩
      · obtain rfl := Option.some.inj hep
        rfl
      · rw [hnames s hs] at hname
        cases hname
      · rw [hnames s hs] at hname
        cases hname
    · obtain ⟨rfl, rfl, rfl, rfl⟩ := Stmt.assemble.inj (List.mem_singleton.1 hmem)
      refine ⟨rfl, fun ep hep => ?_, fun s hs name hname => ?_, fun s hs name hname => ?_,
        [], ⟨by decide, trivial⟩, by simp⟩
      · cases hep
      · rw [hnames s hs] at hname
        cases hname
      · rw [hnames s hs] at hname
        cases hname
  have hothers : ∀ s ∈ incidenceCounts.body, s.isAssemble = false → "a" ∉ s.writes := by
    intro s hs hassemble
    rcases List.mem_cons.1 hs with rfl | hs
    · cases hassemble
    · rw [List.mem_singleton.1 hs] at hassemble
      cases hassemble
  have hcounted : parallelEdges.Counted :=
    (Bindings.counted_empty.withSet (by decide)).withSet (by decide)
  have hruns : (incidenceCountsLowered.execute parallelEdges .standard).2.isOk = true := by
    decide +kernel
  cases hexecute : (incidenceCountsLowered.execute parallelEdges .standard).2 with
  | error fault =>
      rw [hexecute] at hruns
      cases hruns
  | ok results =>
      obtain ⟨type, m, start, mem, _, _, groups, htype, _, _, hmachine, hstart, hexec, hsum,
        hresult⟩ := Func.assembled_holdsSum
          (show incidenceCounts.DistinctNames from List.nodup_singleton _) incidenceCounts_lower
          hapart ⟨_, _, _, _, List.mem_cons_self .., List.mem_singleton_self _⟩ hothers hcounted
          hexecute
      have hdeclared : incidenceCounts.varType? "a" = some (.tensor (.matrix "V" "V" .scalar)) := rfl
      obtain rfl : TensorType.matrix "V" "V" .scalar = type :=
        ValueType.tensor.inj (Option.some.inj (hdeclared.symm.trans htype))
      exact ⟨results, m, start, mem, groups, rfl, hmachine, hstart, hexec, hsum,
        hresult _ (List.mem_singleton_self _) rfl⟩

/-! ## A position that is bound too late -/

namespace LatePosition

/-- A kernel reads at the position that a local names, and binds the local only then. -/
def body : List (Stmt ℚ) :=
  [.contribute "y" [.var "V.e"]
      (.tensorRead "A" [.literal (.int 0), .literal (.int 0)] (some "p")),
    .assign "p" (.literal (.int 1))]

/-- A kernel before it puts weights on the diagonal of the matrix that is read, and binds a local of
    that name as well. -/
def func : Func ℚ :=
  (Func.named "f").withSet ((SetDecl.plain "V").withField "w" (.float .scalar))
    |>.withLocal "A" (.matrix "V" "V" .scalar)
    |>.withResult "y" (.vector "V" .scalar)
    |>.withAssembly ["A"] "V" (fun k =>
      [.contribute "A" [k.elementExpr, k.elementExpr] (k.fieldExpr "w"),
        .assign "p" (.literal (.int 0))])
    |>.withAssembly ["y"] "V" (fun _ => body)

/-- Two vertices and their weights. -/
def vertices : Bindings ℚ :=
  Bindings.empty.withSet "V" ((SetData.plain 2).withScalars "w" #[10, 20])

/-- What the first assembly is lowered to. -/
def weigh : List (Stmt ℚ) :=
  [.zero "A", .loop (.elements "V" "V.e")
    [.sparseStore "A" (.locate (.diagonal "V") (.var "V.e") (.var "V.e") .binary)
        (.fieldLoad "V" "w" (.var "V.e")) true .scalar,
      .assign "p" (.literal (.int 0))]]

/-- What the second assembly is lowered to: the position is no search, but the local. -/
def reading : List (Stmt ℚ) :=
  [.zero "y", .loop (.elements "V" "V.e")
    [.store "y" (.var "V.e") (.sparseLoad "A" (.var "p") .scalar) true,
      .assign "p" (.literal (.int 1))]]

/-- The function once it is lowered. -/
def lowered : LoweredFunc ℚ :=
  ⟨func.withBody (weigh ++ reading),
    ⟨[("A", ⟨.sparse (.diagonal "V"), .scalar⟩), ("y", ⟨.dense, .scalar⟩)]⟩⟩

theorem lower_eq : func.lower .standard = .ok lowered := by
  let inf := func.inference Table.empty
  let evidence : Evidence := ⟨[("A", .diagonal "V")]⟩
  have hsettled : inf.propagate evidence.keys evidence = .ok evidence := by
    rw [Inference.propagate]
    rfl
  show (inf.propagate evidence.keys evidence >>= fun _ => _) >>= _ = _
  rw [hsettled]
  rfl

end LatePosition

open LatePosition in
/-- The position of a read is not looked up when a kernel is lowered. By itself each element contributes
    the weight of the first, but the second reads at the position that the first has left behind, and
    the vector does not hold the sum. -/
theorem latePosition_carries_over :
    LatePosition.func.DistinctNames ∧ LatePosition.func.lower .standard = .ok lowered ∧
      vertices.Counted ∧
      (∀ targets set kernel body, .assemble targets set kernel body ∈ LatePosition.func.body →
        LatePosition.func.varType? kernel.element.name = none ∧ kernel.endpoints = none ∧
          kernel.KeptBy body ∧ ∀ s ∈ body, ∀ name ∈ s.boundName?, LatePosition.func.varType? name = none) ∧
      ∃ m start mem results, lowered.machine vertices ⟨.lu, 0⟩ = .ok m ∧
        m.start lowered.storages = .ok start ∧ m.execAll lowered.func.body start = .ok mem ∧
        (lowered.execute vertices ⟨.lu, 0⟩).2 = .ok results ∧
        results.get? "y" = some (.dense .scalar #[10, 20]) ∧
        m.contributions "y" .scalar (LatePosition.func.body.zip [weigh, reading]) start =
          [some ([0], .scalar 10), some ([1], .scalar 10)] ∧
        ¬ m.HoldsSum mem "y" (.vector "V" .scalar)
          (m.contributions "y" .scalar (LatePosition.func.body.zip [weigh, reading]) start) := by
  obtain ⟨m, hmachine, start, hstart, mem, hexec, hentry, hcontributions⟩ :
      ∃ m, lowered.machine vertices ⟨.lu, 0⟩ = .ok m ∧
        ∃ start, m.start lowered.storages = .ok start ∧
          ∃ mem, m.execAll lowered.func.body start = .ok mem ∧
            m.entryAt? mem "y" [1] = some (.scalar 20) ∧
            m.contributions "y" .scalar (LatePosition.func.body.zip [weigh, reading]) start =
              [some ([0], .scalar 10), some ([1], .scalar 10)] := by
    decide +kernel
  obtain ⟨results, hresults, hget⟩ : ∃ results, (lowered.execute vertices ⟨.lu, 0⟩).2 = .ok results ∧
      results.get? "y" = some (.dense .scalar #[10, 20]) := by
    decide +kernel
  obtain ⟨_, hmachine', extent, hextent, rfl⟩ :
      ∃ m, lowered.machine vertices ⟨.lu, 0⟩ = .ok m ∧
        ∃ extent, m.resolution.extent (.set "V") = .ok extent ∧ extent = 2 := by
    decide +kernel
  obtain rfl := Except.ok.inj (hmachine'.symm.trans hmachine)
  refine ⟨?distinct, lower_eq, Bindings.counted_empty.withSet (by decide), ?kernels, _, start, mem,
    results, hmachine, hstart, hexec, hresults, hget, hcontributions, fun hsum => ?sum⟩
  case distinct =>
    unfold Func.DistinctNames
    decide
  case kernels =>
    intro targets set kernel body hmem
    rcases List.mem_cons.1 hmem with heq | hmem
    · obtain ⟨rfl, rfl, rfl, rfl⟩ := Stmt.assemble.inj heq
      refine ⟨rfl, rfl, ?_, by decide⟩
      unfold KernelVars.KeptBy
      decide
    · obtain ⟨rfl, rfl, rfl, rfl⟩ := Stmt.assemble.inj (List.mem_singleton.1 hmem)
      refine ⟨rfl, rfl, ?_, by decide⟩
      unfold KernelVars.KeptBy
      decide
  case sum =>
    -- at the second vertex the contributions make ten, and the entry is twenty
    have hextents : Machine.Extents _ [.set "V"] [2] := .cons hextent .nil
    obtain ⟨value, hvalue, hadded⟩ := hsum [2] [1] hextents (.cons (by decide) .nil)
    obtain rfl := Option.some.inj (hentry.symm.trans hvalue)
    rw [hcontributions] at hadded
    revert hadded
    decide +kernel

end GraphTensor
