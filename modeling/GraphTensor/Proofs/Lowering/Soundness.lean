import GraphTensor.Proofs.Lowering.TypedKernels
set_option autoImplicit false

/-! # Lowered kernels keep to their types

A run reaches each assembly in a memory where every declared variable holds what its type says
(`Machine.Ready`). From there the loop goes through the elements: each kernel starts in the scope
that it is checked in, and leaves the declared variables as they were, so that the loop ends in no
error but those that depend on the numbers. For this the names that loops bind, and those that
kernels assign to, must not be declared ones (`Func.NamesApart`, `Func.KernelsApart`). -/

namespace GraphTensor

variable {α : Type} [Scalar α]

/-! ## Between statements -/

/-- Every tensor has its buffer, which no local hides, and every other declared variable has a value of
    its type. -/
structure Machine.Ready (m : Machine α) (storages : Storages) (mem : Memory α) : Prop where
  /-- The buffers are laid out. -/
  laid : m.Laid storages mem
  /-- No local hides a buffer. -/
  apart : mem.Apart
  /-- A variable that is no tensor has a value of its type. -/
  declared : ∀ name type, m.func.varType? name = some type → type.asTensor? = none →
    ∃ v, mem.locals.get? name = some v ∧ v.HasType type

namespace Machine

variable {m : Machine α} {storages : Storages} {mem mem' : Memory α}

/-- What writes tensors and names that are not declared, and binds names that are not declared. -/
theorem Ready.changes {stored bound : List VarName} (h : m.Ready storages mem)
    (hchanges : mem.Changes stored bound mem')
    (hstored : ∀ name ∈ stored, ∀ type, m.func.varType? name = some type → type.asTensor? ≠ none)
    (hbound : ∀ name ∈ bound, m.func.varType? name = none) : m.Ready storages mem' where
  laid := h.laid.changes hchanges
  apart := hchanges.apart h.apart fun name hname =>
    h.laid.buffer_none fun type htype => by
      rw [hbound name hname] at htype
      cases htype
  declared := fun name type htype htensor => by
    rw [hchanges.local_eq (fun hmem => hstored name hmem type htype htensor)
      fun hmem => by rw [hbound name hmem] at htype; cases htype]
    exact h.declared name type htype htensor

/-- A run starts with its parameters bound, and nothing else that is declared is without a buffer. -/
theorem ready_of_start (hdistinct : m.func.DistinctNames)
    (htensors : ∀ v ∈ m.func.locals ++ m.func.results, v.type.asTensor? ≠ none)
    (hparams : ∀ p ∈ m.func.params, ∃ v, m.bindings.param p.name = .ok v ∧ v.HasType p.type)
    (hstart : m.start storages = .ok mem) : m.Ready storages mem where
  laid := (start_spec hdistinct hstart).1
  apart := apart_of_start hdistinct hstart
  declared := fun name type htype htensor => by
    obtain ⟨v, hv, rfl, rfl⟩ := (Func.varType?_eq_some_iff hdistinct).1 htype
    rw [Func.allVars, List.append_assoc] at hv
    rcases List.mem_append.1 hv with hv | hv
    · obtain ⟨value, hvalue, hlocal⟩ := local_of_start hstart hv
      obtain ⟨value', hvalue', htyped⟩ := hparams v hv
      obtain rfl := Except.ok.inj (hvalue.symm.trans hvalue')
      exact ⟨value, hlocal, htyped⟩
    · exact absurd htensor (htensors v hv)

end Machine

/-! ## The elements of an assembly -/

namespace KernelContext

variable {c : KernelContext} {a : AccessContext α} {f : Func α} {m : Machine α} {mem mem' : Memory α}
  {body lowered final : List (Stmt α)}

omit [Scalar α] in
/-- The types of names at the start of a kernel: those of the kernel's own variables, and else those
    that are declared. -/
theorem lookup_kernelScope_eq_ok {k : KernelVars} {name : VarName} {type : ValueType}
    (h : (f.kernelScope k).lookup name = .ok type) :
    (∃ ep, k.endpoints = some ep ∧ type = ep.type) ∨
      (name = k.element.name ∧ type = k.element.type) ∨
        (name ≠ k.element.name ∧ f.varType? name = some type) := by
  have hdeclared : ((TypeScope.ofFunc f).bindVariable k.element).lookup name = .ok type →
      (name = k.element.name ∧ type = k.element.type) ∨
        (name ≠ k.element.name ∧ f.varType? name = some type) := by
    intro hlookup
    rw [TypeScope.bindVariable, lookup_bind] at hlookup
    split at hlookup
    · next heq => exact Or.inl ⟨heq.symm, (Except.ok.inj hlookup).symm⟩
    · next hne => exact Or.inr ⟨fun heq => hne heq.symm, Outcome.orFail_eq_ok_iff.1 hlookup⟩
  unfold Func.kernelScope at h
  split at h
  · next ep hep =>
      rw [TypeScope.bindVariable, lookup_bind] at h
      split at h
      · exact Or.inl ⟨ep, hep, (Except.ok.inj h).symm⟩
      · exact Or.inr (hdeclared h)
  · exact Or.inr (hdeclared h)

omit [Scalar α] in
theorem type_of_check (h : c.kernel.check c.set = .ok ()) :
    c.kernel.element.type = .element c.set.name ∧
      ∀ ep, c.kernel.endpoints = some ep → ep.type = .endpoints c.set.name := by
  obtain ⟨_, helement, hendpoints⟩ := Outcome.bind_eq_ok_iff.1 h
  refine ⟨by simpa using Outcome.failIf_eq_ok_iff.1 helement, fun ep hep => ?_⟩
  rw [hep] at hendpoints
  have hep := Outcome.failIf_eq_ok_iff.1 hendpoints
  simpa using (Bool.or_eq_false_iff.1 hep).2

/-- A kernel is checked in a scope of its own, as no declared variable stands for endpoints. -/
theorem Serves.within_kernelScope (h : c.Serves a f m) (hready : m.Ready c.storages mem) :
    c.Within f (f.kernelScope c.kernel) where
  func := Func.func_kernelScope f c.kernel
  element := (knowsKernel_kernelScope h.checked).element
  endpoints := fun name set hset => by
    obtain ⟨helement, hendpoints⟩ := type_of_check h.checked
    rcases lookup_kernelScope_eq_ok hset with ⟨ep, hep, htype⟩ | ⟨_, htype⟩ | ⟨_, hdeclared⟩
    · exact ValueType.endpoints.inj (htype.trans (hendpoints ep hep))
    · cases htype.trans helement
    · obtain ⟨v, _, hv⟩ := hready.declared name _ ((h.types name).trans hdeclared) rfl
      cases v <;> cases hv

theorem Serves.holds_element (h : c.Serves a f m) (hready : m.Ready c.storages mem)
    (hbinder : f.varType? c.kernel.element.name = none) (e : Nat) :
    c.Holds m (f.kernelScope c.kernel) (mem.withLocal c.kernel.element.name (.ofCount e)) := by
  have hindex : mem.Changes [] [c.kernel.element.name]
      (mem.withLocal c.kernel.element.name (.ofCount e)) :=
    .single (.index (List.mem_singleton_self _))
  have hready' := hready.changes hindex (fun _ hmem => (List.not_mem_nil hmem).elim)
    (by simpa [h.types] using hbinder)
  refine ⟨hready'.laid, hready'.apart, ⟨_, by simp [Memory.withLocal, Table.get?_insert]; rfl⟩, ?_⟩
  intro name type htype hvalue
  obtain ⟨helement, hendpoints⟩ := type_of_check h.checked
  rcases lookup_kernelScope_eq_ok htype with ⟨ep, hep, rfl⟩ | ⟨rfl, rfl⟩ | ⟨_, hdeclared⟩
  · -- endpoints are no value, and no local stands for them
    rw [hendpoints ep hep] at hvalue
    cases hvalue
  · refine ⟨.ofCount e, by simp [Memory.withLocal, Table.get?_insert], ?_⟩
    rw [helement]
    trivial
  · refine hready'.declared name type ((h.types name).trans hdeclared) ?_
    cases type with
    | tensor _ => cases hvalue
    | _ => rfl

/-- **An element** leaves every declared variable with a value of its type. -/
theorem Serves.yields_element (h : c.Serves a f m) (hl : c.Lowers (f.kernelScope c.kernel) body lowered)
    (hfinal : a.lowerBody lowered = .ok final) (hready : m.Ready c.storages mem)
    (hbinder : f.varType? c.kernel.element.name = none)
    (htargets : ∀ target ∈ c.targets, ∃ type, f.varType? target = some (.tensor type))
    (hadmits : c.Admits f m.bindings body)
    (huse : Stmt.AllUsedAsTyped (f.kernelScope c.kernel) body) (e : Nat) :
    (m.execAll final (mem.withLocal c.kernel.element.name (.ofCount e))).Yields
      (m.Ready c.storages) := by
  have hrun := h.yields_take hl hfinal (h.within_kernelScope hready) (h.holds_element hready hbinder e)
    hadmits huse final.length
  rw [List.take_length] at hrun
  refine hrun.imp fun mem' hexec _ =>
    hready.changes (hl.changes_element hfinal hexec) (fun name hname type htype => ?_) ?_
  · rw [h.types] at htype
    rcases List.mem_append.1 hname with hmem | hmem
    · obtain ⟨type', htarget⟩ := htargets name hmem
      obtain rfl := Option.some.inj (htarget.symm.trans htype)
      exact Option.some_ne_none type'
    · obtain ⟨s, hs, hbound⟩ := List.mem_filterMap.1 hmem
      rw [hadmits.undeclared s hs name hbound] at htype
      cases htype
  · simpa [h.types] using hbinder

theorem Serves.yields_elements (h : c.Serves a f m)
    (hl : c.Lowers (f.kernelScope c.kernel) body lowered) (hfinal : a.lowerBody lowered = .ok final)
    (hready : m.Ready c.storages mem) (hbinder : f.varType? c.kernel.element.name = none)
    (htargets : ∀ target ∈ c.targets, ∃ type, f.varType? target = some (.tensor type))
    (hadmits : c.Admits f m.bindings body)
    (huse : Stmt.AllUsedAsTyped (f.kernelScope c.kernel) body) (es : List Nat) :
    (es.foldlM (fun mem e =>
      m.execAll final (mem.withLocal c.kernel.element.name (.ofCount e))) mem).Yields
        (m.Ready c.storages) :=
  Ran.yields_foldlM (fun _ e _ hready =>
    h.yields_element hl hfinal hready hbinder htargets hadmits huse e) hready

end KernelContext

/-! ## Functions -/

/-- The names that a function declares are kept apart from those that its loops bind, and no statement
    but those of kernels writes a parameter. -/
structure Func.NamesApart (f : Func α) : Prop where
  /-- No two variables share a name. -/
  distinct : f.DistinctNames
  /-- No name is one that lowering makes up. -/
  plain : f.PlainNames
  /-- Only parameters are no tensors. -/
  tensors : ∀ v ∈ f.locals ++ f.results, v.type.asTensor? ≠ none
  /-- No kernel or loop binds a declared name. -/
  binders : ∀ name ∈ Stmt.bindsOfList f.body, f.varType? name = none
  /-- A statement that is no assembly writes no parameter. -/
  params : ∀ s ∈ f.body, s.isAssemble = false → ∀ p ∈ f.params, p.name ∉ s.writes

/-- No kernel assigns to a declared variable or to one of its own, or adds to one. -/
def Func.KernelsApart (f : Func α) : Prop :=
  ∀ targets set kernel body, .assemble targets set kernel body ∈ f.body →
    kernel.KeptBy body ∧ ∀ s ∈ body, ∀ name, s.boundName? = some name → f.varType? name = none

section

variable {f : Func α} {storages : Storages} {search : Search} {assembled contracted : List (Stmt α)}

/-- Groups leave alone a declared variable that is no tensor, if neither a kernel nor any other
    statement writes it. -/
theorem Func.Groups.spares {zeroed : List VarName} {names : Nat} {body : List (Stmt α)}
    {groups : List (List (Stmt α))}
    (h : f.Groups storages search assembled contracted zeroed names body groups) {name : VarName}
    (htensor : f.tensorType? name = none)
    (hothers : ∀ s ∈ body, s.isAssemble = false → name ∉ s.writes)
    (hkernels : ∀ targets set kernel kernelBody, .assemble targets set kernel kernelBody ∈ body →
      ∀ s ∈ kernelBody, s.boundName? ≠ some name) :
    name ∉ Stmt.writesOfList groups.flatten := by
  induction h with
  | nil => exact List.not_mem_nil
  | @assembly zeroed targets names set kernel body rest loop lowered groups hloop hlowered _ ih =>
      have hrest := ih (fun s hs => hothers s (List.mem_cons_of_mem _ hs))
        fun _ _ _ _ hmem => hkernels _ _ _ _ (List.mem_cons_of_mem _ hmem)
      obtain ⟨decl, kernelBody, _, _, htargets, hbody, rfl⟩ := lowerAssembly_eq_loop hloop
      have htarget : name ∉ targets := by
        intro hmem
        obtain ⟨_, htype, _⟩ := Outcome.bind_eq_ok_iff.1 (htargets name hmem)
        rw [Outcome.orFail_eq_ok_iff.1 htype] at htensor
        cases htensor
      have hlocal : name ∉ Stmt.writesOfList kernelBody := by
        intro hmem
        rcases (KernelContext.lowers_of_lowerBody hbody).names.1 name hmem with hmem | ⟨s, hs, hbound⟩
        · exact htarget hmem
        · exact hkernels _ _ _ _ (List.mem_cons_self ..) s hs hbound
      rw [List.flatten_cons, Stmt.writesOfList_append, Stmt.writesOfList_append,
        Stmt.writesOfList_zeros, Stmt.writesOfList, (AccessContext.names_of_lowerStmt _ hlowered).1]
      simp only [Stmt.writes, Stmt.writesOfList, List.append_nil, List.mem_append, not_or]
      exact ⟨⟨fun hmem => htarget (mem_freshTargets_iff.1 hmem).1, hlocal⟩, hrest⟩
  | contraction hnests hlowered _ ih =>
      have hrest := ih (fun s hs => hothers s (List.mem_cons_of_mem _ hs))
        fun _ _ _ _ hmem => hkernels _ _ _ _ (List.mem_cons_of_mem _ hmem)
      have hgroup := hothers _ (List.mem_cons_self ..) rfl
      rw [List.flatten_cons, Stmt.writesOfList_append,
        (AccessContext.names_of_lowerBody _ hlowered).1, List.mem_append, not_or]
      exact ⟨fun hmem => hgroup ((names_of_lowerContraction hnests).1 hmem), hrest⟩
  | @other zeroed names s lowered rest groups hassemble _ hlowered _ ih =>
      have hrest := ih (fun s hs => hothers s (List.mem_cons_of_mem _ hs))
        fun _ _ _ _ hmem => hkernels _ _ _ _ (List.mem_cons_of_mem _ hmem)
      have hgroup := hothers s (List.mem_cons_self ..) hassemble
      rw [List.flatten_cons, Stmt.writesOfList_append, Stmt.writesOfList,
        (AccessContext.names_of_lowerStmt _ hlowered).1]
      simp only [Stmt.writesOfList, List.append_nil, List.mem_append, not_or]
      exact ⟨hgroup, hrest⟩

/-- A run of a function whose names are apart goes through memories where every declared variable holds
    what its type says. -/
theorem Func.ready_of_execAll {l : LoweredFunc α} {b : Bindings α} {config : SolverConfig α}
    {m : Machine α} {groups : List (List (Stmt α))} {start mem : Memory α}
    (hgroups : f.Groups storages search assembled contracted [] 0 f.body groups)
    (hl : l = ⟨f.withBody groups.flatten, storages⟩) (hmachine : l.machine b config = .ok m)
    (hapart : f.NamesApart) (hkernels : f.KernelsApart)
    (hparams : ∀ p ∈ f.params, ∃ v, b.param p.name = .ok v ∧ v.HasType p.type)
    (hstart : m.start storages = .ok start) {earlier later : List (Stmt α)}
    (hbody : groups.flatten = earlier ++ later) (hexec : m.execAll earlier start = .ok mem) :
    m.Ready storages mem := by
  obtain ⟨hfunc, hbindings, _⟩ := LoweredFunc.machine_spec hmachine
  have hsame : m.func = f.withBody groups.flatten := by rw [hfunc, hl]
  have htypes : ∀ name, m.func.varType? name = f.varType? name := fun name => by rw [hsame]; rfl
  have hready : m.Ready storages start := by
    refine Machine.ready_of_start (hsame ▸ hapart.distinct) (hsame ▸ hapart.tensors) ?_ hstart
    rw [hbindings, hsame]
    exact hparams
  refine hready.changes (Machine.changes_execAll _ hexec) (fun name hname type htype htensor => ?_)
    fun name hname => ?_
  · rw [htypes] at htype
    have hnone : f.tensorType? name = none := by rw [tensorType?, htype]; exact htensor
    obtain ⟨v, hv, rfl, rfl⟩ := (varType?_eq_some_iff hapart.distinct).1 htype
    -- a variable that is no tensor is a parameter, and these are spared
    have hparam : v ∈ f.params := by
      rw [allVars, List.append_assoc] at hv
      exact (List.mem_append.1 hv).resolve_right fun hmem => hapart.tensors v hmem htensor
    refine hgroups.spares hnone (fun s hs hassemble => hapart.params s hs hassemble v hparam)
      (fun targets set kernel kernelBody hmem s hs hbound => ?_) ?_
    · rw [(hkernels _ _ _ _ hmem).2 s hs _ hbound] at htype
      cases htype
    · rw [hbody, Stmt.writesOfList_append]
      exact List.mem_append_left _ hname
  · rw [htypes]
    have hmem : name ∈ Stmt.bindsOfList groups.flatten := by
      rw [hbody, Stmt.bindsOfList_append]
      exact List.mem_append_left _ hname
    rcases hgroups.binds name hmem with hbinder | hfresh
    · exact hapart.binders name hbinder
    · cases htype : f.varType? name with
      | none => rfl
      | some type =>
          obtain ⟨v, hv, rfl, _⟩ := (varType?_eq_some_iff hapart.distinct).1 htype
          exact absurd hfresh (hapart.plain v hv)

/-- What a run has for the kernel of an assembly. -/
theorem KernelContext.serves_of_machine {l : LoweredFunc α} {b : Bindings α}
    {config : SolverConfig α} {m : Machine α} {body : List (Stmt α)} {decl : SetDecl}
    (hdistinct : f.DistinctNames) (hstorages : f.inferStorage = .ok storages)
    (hl : l = ⟨f.withBody body, storages⟩) (hmachine : l.machine b config = .ok m)
    (hdecl : f.set? decl.name = some decl) {kernel : KernelVars} (hcheck : kernel.check decl = .ok ())
    (targets : List VarName) (contracted : List (Stmt α)) (search : Search) :
    (KernelContext.mk storages targets decl kernel).Serves
      ⟨f.withBody contracted, storages, search⟩ f m := by
  subst hl
  obtain ⟨_, hbindings, _, hchecked, hfits⟩ := LoweredFunc.machine_spec hmachine
  have hdeclared : ∀ set decl, f.set? set = some decl → decl.name = set ∧ decl ∈ f.sets.decls :=
    fun _ _ => Func.name_of_set?
  refine ⟨hdecl, hcheck, LoweredFunc.varType?_machine hmachine, fun _ => rfl, rfl,
    LoweredFunc.describes_machine hdistinct hstorages hmachine, fun set decl hset => ?_,
    fun set decl ep hset hep => ?_, fun set decl field type data hset hfield hdata => ?_⟩
  · obtain ⟨rfl, hmem⟩ := hdeclared set decl hset
    obtain ⟨n, hn⟩ := Option.isSome_iff_exists.1 (hfits.declared decl hmem)
    exact ⟨n, Resolution.size_eq_ok_iff.2 hn⟩
  · obtain ⟨rfl, hmem⟩ := hdeclared set decl hset
    obtain ⟨t, ht, _⟩ := hfits.made decl hmem ep hep
    exact ⟨t, Resolution.topology_eq_ok_iff.2 ht⟩
  · obtain ⟨rfl, hmem⟩ := hdeclared set decl hset
    obtain ⟨found, hsuits⟩ := (Bindings.check_eq_ok_iff.1 hchecked).1 decl hmem
    exact (hsuits.fields (field, type) (Table.find?_eq_some_mem hfield) data (hbindings ▸ hdata)).1

/-- **Type soundness of kernels.** The loop of an assembly ends in no error but those that depend on the
    numbers, and at every point of every element's kernel each expression that is typed as a value comes
    to a value of its type, or ends in such an error. -/
theorem Func.assembly_keeps_types {options : LowerOptions} {l : LoweredFunc α} {b : Bindings α}
    {config : SolverConfig α} {m : Machine α} (hlower : f.lower options = .ok l)
    (hmachine : l.machine b config = .ok m) (hapart : f.NamesApart) (hkernels : f.KernelsApart)
    (hparams : ∀ p ∈ f.params, ∃ v, b.param p.name = .ok v ∧ v.HasType p.type)
    {targets : List VarName} {set : SetName} {kernel : KernelVars} {body : List (Stmt α)}
    (hmem : .assemble targets set kernel body ∈ f.body)
    (hfields : ∀ s ∈ body, ∀ e ∈ s.exprs, b.Supplies set e)
    (huse : Stmt.AllUsedAsTyped (f.kernelScope kernel) body) :
    ∃ decl contracted lowered final, f.set? set = some decl ∧
      f.lowerAssembly l.storages targets set kernel body =
        .ok (.loop (.elements set kernel.element.name) lowered) ∧
      (AccessContext.mk (f.withBody contracted) l.storages options.search).lowerBody lowered =
        .ok final ∧
      .loop (.elements set kernel.element.name) final ∈ l.func.body ∧
      ∀ earlier later start before,
        l.func.body = earlier ++ .loop (.elements set kernel.element.name) final :: later →
        m.start l.storages = .ok start → m.execAll earlier start = .ok before →
          (m.exec (.loop (.elements set kernel.element.name) final) before).Yields
            (m.Ready l.storages) ∧
          ∀ e k mem mem', (List.range e).foldlM (fun mem e =>
              m.execAll final (mem.withLocal kernel.element.name (.ofCount e))) before = .ok mem →
            m.execAll (final.take k) (mem.withLocal kernel.element.name (.ofCount e)) = .ok mem' →
            ∀ y y' y'' type, ((f.kernelScope kernel).after (body.take k)).typeOf y = .ok type →
              type.isValue = true →
              (KernelContext.mk l.storages targets decl kernel).resolve y = .ok y' →
              (AccessContext.mk (f.withBody contracted) l.storages options.search).lowerExpr y' =
                .ok y'' →
              b.Supplies set y → ((f.kernelScope kernel).after (body.take k)).Places y →
                (m.eval mem' y'').Yields (·.HasType type) := by
  obtain ⟨storages, hstorages, hlower⟩ := Outcome.bind_eq_ok_iff.1 hlower
  obtain ⟨decl, contracted, lowered, final, rfl, h⟩ := loops_of_lowerWith hlower hmem
  obtain ⟨_, _, groups, hgroups, rfl⟩ := groups_of_lowerWith hlower
  refine ⟨decl, contracted, lowered, final, h.declared, h.assembly, h.accesses, h.loop, ?_⟩
  intro earlier later start mem₀ hprefix hstart hearlier
  have hserves := KernelContext.serves_of_machine hapart.distinct hstorages rfl hmachine h.declared
    h.checked targets contracted options.search
  have hbindings := (LoweredFunc.machine_spec hmachine).2.1
  have hready := ready_of_execAll hgroups rfl hmachine hapart hkernels hparams hstart hprefix hearlier
  -- the element is among the names that the function's loops bind
  have hbinder : f.varType? kernel.element.name = none := by
    obtain ⟨before, after, hbody⟩ := List.append_of_mem hmem
    refine hapart.binders _ ?_
    rw [hbody, Stmt.bindsOfList_append, Stmt.bindsOfList, Stmt.binds]
    simp
  obtain ⟨hkept, hundeclared⟩ := hkernels _ _ _ _ hmem
  have hadmits : (KernelContext.mk storages targets decl kernel).Admits f m.bindings body :=
    ⟨hkept, hundeclared, hbindings ▸ hfields⟩
  have hloops := hserves.yields_elements h.lowers h.accesses hready hbinder h.tensors hadmits huse
  obtain ⟨n, hn⟩ := hserves.sized decl.name decl h.declared
  refine ⟨?_, ?_⟩
  · rw [Machine.exec_elements hn]
    exact hloops (List.range n)
  · intro e k mem mem' hreached htaken y y' y'' type htype hvalue hresolve hlowerExpr hsupplied hplaces
    have hready' := (hloops (List.range e)).of_eq_ok hreached
    have hwithin := hserves.within_kernelScope hready'
    have hholds := (hserves.yields_take h.lowers h.accesses hwithin
      (hserves.holds_element hready' hbinder e) hadmits huse k).of_eq_ok htaken
    have htensor := ValueType.asTensor?_of_isValue hvalue
    have htakes := KernelContext.takes_of_resolve y htype htensor hresolve
    exact hserves.yields_eval (hwithin.after hkept huse k) hholds y htakes hvalue hlowerExpr
      (hbindings ▸ hsupplied) hplaces

end

/-! ## Weights at the ends of edges -/

/-- The second end of an edge gets a share of the first end's weight, raised by the share. -/
def sharedWeightsBody : List (Stmt Float) :=
  [.assign "t" (.fieldLoad "V" "w" (.endpoint "E.ep" 0)), .accumulate "t" (.var "share"),
    .contribute "a" [.endpoint "E.ep" 1] (.binary .mul (.var "t") (.var "share"))]

/-- Weights are shared along the edges of a graph. -/
def sharedWeights : Func Float :=
  (Func.named "f").withSet ((SetDecl.plain "V").withField "w" (.float .scalar))
    |>.withSet (.relation "E" "V" 2)
    |>.withParam "share" .float
    |>.withResult "a" (.vector "V" .scalar)
    |>.withAssembly ["a"] "E" (fun _ => sharedWeightsBody)

/-- Two weighted vertices and an edge between them. -/
def weightedEdge : Bindings Float :=
  Bindings.empty.withSet "V" ((SetData.plain 2).withScalars "w" #[1, 2])
    |>.withSet "E" (.relation 2 #[0, 1])
    |>.withParam "share" (.scalar 3)

/-- What the kernel is lowered to. -/
def sharedWeightsKernel : List (Stmt Float) :=
  let endpoint (slot : Nat) : Expr Float := .endpointOf "E" (.var "E.e") slot
  [.assign "t" (.fieldLoad "V" "w" (endpoint 0)), .accumulate "t" (.var "share"),
    .store "a" (endpoint 1) (.binary .mul (.var "t") (.var "share")) true]

/-- The function once it is lowered. -/
def sharedWeightsLowered : LoweredFunc Float :=
  ⟨sharedWeights.withBody [.zero "a", .loop (.elements "E" "E.e") sharedWeightsKernel],
    ⟨[("a", ⟨.dense, .scalar⟩)]⟩⟩

theorem sharedWeights_lower : sharedWeights.lower .standard = .ok sharedWeightsLowered := by
  let inf := sharedWeights.inference Table.empty
  have hsettled : inf.propagate (Table.empty : Evidence).keys Table.empty = .ok Table.empty := by
    rw [Inference.propagate]
    rfl
  show (inf.propagate (Table.empty : Evidence).keys Table.empty >>= fun _ => _) >>= _ = _
  rw [hsettled]
  rfl

theorem sharedWeights_apart : sharedWeights.NamesApart := by
  have hplain : ∀ v ∈ sharedWeights.allVars, '%' ∉ v.name.toList := by decide +kernel
  have hdistinct : (sharedWeights.allVars.map Variable.name).Nodup := by decide +kernel
  refine ⟨hdistinct, hplain, ?_, by decide, fun s hs hassemble => ?_⟩
  · intro v hv
    rw [List.mem_singleton.1 hv]
    exact Option.some_ne_none _
  · rw [List.mem_singleton.1 hs] at hassemble
    cases hassemble

/-- The kernel of the edge keeps to its types: the sum in its second statement is a number, like the
    local and the parameter in it. -/
theorem sharedWeights_keeps_types :
    ∃ m start before mem, sharedWeightsLowered.machine weightedEdge .standard = .ok m ∧
      m.start sharedWeightsLowered.storages = .ok start ∧ m.exec (.zero "a") start = .ok before ∧
      (m.exec (.loop (.elements "E" "E.e") sharedWeightsKernel) before).Yields
        (m.Ready sharedWeightsLowered.storages) ∧
      m.execAll (sharedWeightsKernel.take 2) (before.withLocal "E.e" (.ofCount 0)) = .ok mem ∧
      (m.eval mem (.binary .mul (.var "t") (.var "share"))).Yields (·.HasType .float) := by
  obtain ⟨m, hmachine, start, hstart, before, hbefore, mem, hmem, _⟩ :
      ∃ m, sharedWeightsLowered.machine weightedEdge .standard = .ok m ∧
        ∃ start, m.start sharedWeightsLowered.storages = .ok start ∧
          ∃ before, m.exec (.zero "a") start = .ok before ∧
            ∃ mem, m.execAll (sharedWeightsKernel.take 2) (before.withLocal "E.e" (.ofCount 0)) =
              .ok mem ∧ True := by
    decide +kernel
  have hkernels : sharedWeights.KernelsApart := by
    intro targets set kernel body hmem
    obtain ⟨rfl, rfl, rfl, rfl⟩ := Stmt.assemble.inj (List.mem_singleton.1 hmem)
    have hkept : ∀ s ∈ sharedWeightsBody, ∀ name ∈ s.boundName?,
        name ≠ "E.e" ∧ ∀ ep ∈ some (Variable.mk "E.ep" (.endpoints "E")), name ≠ ep.name := by decide
    have hundeclared : ∀ s ∈ sharedWeightsBody, ∀ name ∈ s.boundName?,
        sharedWeights.varType? name = none := by decide
    exact ⟨hkept, hundeclared⟩
  have hparams : ∀ p ∈ sharedWeights.params,
      ∃ v, weightedEdge.param p.name = .ok v ∧ v.HasType p.type := by
    intro p hp
    rw [List.mem_singleton.1 hp]
    exact ⟨.scalar 3, rfl, rfl⟩
  have hfields : ∀ s ∈ sharedWeightsBody, ∀ e ∈ s.exprs, ∀ p ∈ e.fieldsRead "E",
      ∃ data, weightedEdge.field p.1 p.2 = .ok data ∧ True := by decide
  have huse : Stmt.AllUsedAsTyped (sharedWeights.kernelScope (sharedWeights.kernelVars "E"))
      sharedWeightsBody := by
    refine ⟨⟨fun _ h => (List.not_mem_nil h).elim, fun _ h => nomatch h⟩,
      ⟨fun _ h => (List.not_mem_nil h).elim, fun bound type hbound htype => ?_⟩,
      fun _ h => (List.not_mem_nil h).elim, trivial⟩
    exact Or.inr ⟨.scalar, (Except.ok.inj hbound).symm, (Except.ok.inj htype).symm⟩
  obtain ⟨_, _, _, final, _, _, _, hloop, hsound⟩ := Func.assembly_keeps_types
    sharedWeights_lower hmachine sharedWeights_apart hkernels hparams (List.mem_singleton_self _)
    (fun s hs e he p hp => (hfields s hs e he p hp).imp fun _ h => h.1) huse
  obtain rfl : sharedWeightsKernel = final := by
    rcases List.mem_cons.1 hloop with heq | hloop
    · cases heq
    · exact (Stmt.loop.inj (List.mem_singleton.1 hloop)).2.symm
  have hbefore : m.execAll [.zero "a"] start = .ok before := by
    rw [Machine.execAll_singleton]
    exact hbefore
  obtain ⟨hsafe, hexpr⟩ := hsound [.zero "a"] [] start before rfl hstart hbefore
  refine ⟨m, start, before, mem, hmachine, hstart, ?_, hsafe, hmem, ?_⟩
  · rwa [Machine.execAll_singleton] at hbefore
  · exact hexpr 0 2 before mem rfl hmem (.binary .mul (.var "t") (.var "share")) _ _ .float rfl rfl
      rfl rfl (fun _ h => (List.not_mem_nil h).elim) fun _ h => (List.not_mem_nil h).elim

/-! ## A sum of unlike values -/

/-- A number is added to a local that is an integer. -/
def unlikeSumBody : List (Stmt Float) :=
  [.assign "t" (.literal (.int 1)), .accumulate "t" (.literal (.float 1)),
    .contribute "a" [.var "V.e"] (.literal (.float 1))]

/-- The sum is taken at each vertex. -/
def unlikeSum : Func Float :=
  (Func.named "f").withSet (.plain "V")
    |>.withResult "a" (.vector "V" .scalar)
    |>.withAssembly ["a"] "V" (fun _ => unlikeSumBody)

/-- The function once it is lowered. -/
def unlikeSumLowered : LoweredFunc Float :=
  ⟨unlikeSum.withBody [.zero "a", .loop (.elements "V" "V.e")
      [.assign "t" (.literal (.int 1)), .accumulate "t" (.literal (.float 1)),
        .store "a" (.var "V.e") (.literal (.float 1)) true]],
    ⟨[("a", ⟨.dense, .scalar⟩)]⟩⟩

theorem unlikeSum_lower : unlikeSum.lower .standard = .ok unlikeSumLowered := by
  let inf := unlikeSum.inference Table.empty
  have hsettled : inf.propagate (Table.empty : Evidence).keys Table.empty = .ok Table.empty := by
    rw [Inference.propagate]
    rfl
  show (inf.propagate (Table.empty : Evidence).keys Table.empty >>= fun _ => _) >>= _ = _
  rw [hsettled]
  rfl

/-- A sum of an integer and a number is lowered all the same. The kernel reads no field and assigns to
    its own local alone, there is no parameter, and the bindings pass their check; but the run ends in
    a mismatch of types. -/
theorem unlikeSum_mismatches :
    unlikeSum.lower .standard = .ok unlikeSumLowered ∧ unlikeSum.KernelsApart ∧
      unlikeSum.params = [] ∧ (∀ s ∈ unlikeSumBody, ∀ e ∈ s.exprs, e.fieldsRead "V" = []) ∧
      (Bindings.empty.withSet "V" (.plain 1)).check unlikeSum = .ok () ∧
      (unlikeSumLowered.execute (Bindings.empty.withSet "V" (.plain 1)) .standard).2 =
        .error (.error (.typeMismatch (.operation .add) .int (.shape .scalar))) := by
  refine ⟨unlikeSum_lower, ?_, rfl, by decide, rfl, rfl⟩
  intro targets set kernel body hmem
  obtain ⟨rfl, rfl, rfl, rfl⟩ := Stmt.assemble.inj (List.mem_singleton.1 hmem)
  have hkept : ∀ s ∈ unlikeSumBody, ∀ name ∈ s.boundName?,
      name ≠ "V.e" ∧ ∀ ep ∈ (none : Option Variable), name ≠ ep.name := by decide
  have hundeclared : ∀ s ∈ unlikeSumBody, ∀ name ∈ s.boundName?,
      unlikeSum.varType? name = none := by decide
  exact ⟨hkept, hundeclared⟩

end GraphTensor
