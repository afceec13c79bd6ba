import GraphTensor.Proofs.Lowering.Assemblies
import GraphTensor.Proofs.Machine.Snapshot
set_option autoImplicit false

/-! # Runs through the groups of a function

A run goes through the groups of a function's statements one after another. Kernels bind their
elements and loop nests bind fresh names, so that no tensor comes to be hidden by a local
(`Func.BindersApart`, `Func.PlainNames`). That is the invariant with which a run comes to each
statement, and `Func.Loops` is what it finds there for an assembly. -/

namespace GraphTensor

variable {α : Type}

/-- As long as no variable of a loop has a buffer, no local gets the name of a tensor. -/
theorem Memory.Changes.apart {stored bound : List VarName} {mem mem' : Memory α}
    (h : mem.Changes stored bound mem') (hmem : mem.Apart)
    (hbound : ∀ name ∈ bound, mem.buffers.get? name = none) : mem'.Apart := by
  refine (Changes.invariant (P := fun mem : Memory α => mem.Apart ∧
    ∀ name ∈ bound, mem.buffers.get? name = none) ?_ ⟨hmem, hbound⟩ h).1
  rintro mem mem' ⟨hapart, hnone⟩ hchange
  cases hchange with
  | @buffer var old values hvar hold hsize =>
      constructor
      · intro name b hb
        by_cases hname : var = name
        · exact hapart name old (hname ▸ hold)
        · rw [Memory.withBuffer, Table.get?_insert] at hb
          exact hapart name b (by simpa [hname] using hb)
      · intro name hmem
        have hne : var ≠ name := by
          rintro rfl
          cases (hnone _ hmem).symm.trans hold
        simp [Memory.withBuffer, Table.get?_insert, hne, hnone name hmem]
  | @value var value hvar hunbuffered =>
      refine ⟨fun name b hb => ?_, hnone⟩
      have hne : var ≠ name := by
        rintro rfl
        cases hunbuffered.symm.trans hb
      simp [Memory.withLocal, Table.get?_insert, hne, hapart name b hb]
  | @index var n hvar =>
      refine ⟨fun name b hb => ?_, hnone⟩
      have hne : var ≠ name := by
        rintro rfl
        cases (hnone _ hvar).symm.trans hb
      simp [Memory.withLocal, Table.get?_insert, hne, hapart name b hb]
  | update => exact ⟨hapart, hnone⟩

theorem Stmt.bindsOfList_append (first second : List (Stmt α)) :
    bindsOfList (first ++ second) = bindsOfList first ++ bindsOfList second := by
  induction first with
  | nil => rfl
  | cons s rest ih => rw [List.cons_append, bindsOfList, bindsOfList, ih, List.append_assoc]

theorem Stmt.writesOfList_append (first second : List (Stmt α)) :
    writesOfList (first ++ second) = writesOfList first ++ writesOfList second := by
  induction first with
  | nil => rfl
  | cons s rest ih => rw [List.cons_append, writesOfList, writesOfList, ih, List.append_assoc]

/-! ## Assemblies write no fields -/

theorem Stmt.withoutFieldWritesOfList_append (first second : List (Stmt α)) :
    withoutFieldWritesOfList (first ++ second) =
      withoutFieldWritesOfList first ++ withoutFieldWritesOfList second := by
  induction first with
  | nil => rfl
  | cons s rest ih =>
      rw [List.cons_append, withoutFieldWritesOfList, withoutFieldWritesOfList, ih,
        List.append_assoc]

theorem Stmt.withoutFieldWritesOfList_zeros (targets : List VarName) :
    withoutFieldWritesOfList (targets.map (zero : VarName → Stmt α)) = targets.map zero := by
  induction targets with
  | nil => rfl
  | cons target rest ih => rw [List.map_cons, withoutFieldWritesOfList, ih]; rfl

theorem KernelContext.Lowers.withoutFieldWrites {c : KernelContext} {a : AccessContext α}
    {scope : TypeScope α} {body lowered : List (Stmt α)} (h : c.Lowers scope body lowered)
    {final : List (Stmt α)} (hfinal : a.lowerBody lowered = .ok final) :
    Stmt.withoutFieldWritesOfList final = final := by
  have hcons : ∀ {s : Stmt α} {rest : List (Stmt α)}, s.withoutFieldWrites = [s] →
      Stmt.withoutFieldWritesOfList rest = rest →
        Stmt.withoutFieldWritesOfList (s :: rest) = s :: rest := by
    intro s rest hs hrest
    rw [Stmt.withoutFieldWritesOfList, hs, hrest]
    rfl
  induction h generalizing final with
  | nil =>
      obtain rfl := Except.ok.inj hfinal
      rfl
  | assign _ _ _ _ ih =>
      obtain ⟨s, rest, hs, hrest, rfl⟩ := AccessContext.lowerBody_cons_eq_ok.1 hfinal
      obtain ⟨value, _, rfl⟩ := AccessContext.lowerStmt_assign_eq_ok_iff.1 hs
      exact hcons rfl (ih hrest)
  | accumulate _ _ _ _ _ ih =>
      obtain ⟨s, rest, hs, hrest, rfl⟩ := AccessContext.lowerBody_cons_eq_ok.1 hfinal
      obtain ⟨value, _, rfl⟩ := AccessContext.lowerStmt_accumulate_eq_ok_iff.1 hs
      exact hcons rfl (ih hrest)
  | write _ _ _ _ ih =>
      obtain ⟨s, rest, hs, hrest, rfl⟩ := AccessContext.lowerBody_cons_eq_ok.1 hfinal
      obtain ⟨value, address, _, _, rfl⟩ := AccessContext.lowerStmt_tensorWrite_eq_ok_iff.1 hs
      cases address <;> exact hcons rfl (ih hrest)

/-- **An assembly** has no statement that writes a field once it is lowered. -/
theorem Func.withoutFieldWrites_of_lowerAssembly {f : Func α} {storages : Storages}
    {targets cleared : List VarName} {set : SetName} {kernel : KernelVars} {body : List (Stmt α)}
    {loop lowered : Stmt α} {a : AccessContext α}
    (hloop : f.lowerAssembly storages targets set kernel body = .ok loop)
    (hlowered : a.lowerStmt loop = .ok lowered) :
    Stmt.withoutFieldWritesOfList (cleared.map .zero ++ [lowered]) =
      cleared.map .zero ++ [lowered] := by
  obtain ⟨decl, kernelBody, _, _, _, hbody, rfl⟩ := lowerAssembly_eq_loop hloop
  obtain ⟨header, final, _, hfinal, rfl⟩ := AccessContext.lowerStmt_loop_eq_ok_iff.1 hlowered
  rw [Stmt.withoutFieldWritesOfList_append, Stmt.withoutFieldWritesOfList_zeros,
    Stmt.withoutFieldWritesOfList, Stmt.withoutFieldWrites,
    (KernelContext.lowers_of_lowerBody hbody).withoutFieldWrites hfinal]
  rfl

section

variable [Scalar α] {f : Func α} {storages : Storages} {search : Search}
  {assembled contracted body : List (Stmt α)} {zeroed : List VarName} {names : Nat}
  {groups : List (List (Stmt α))}

namespace Func.Groups

theorem length_eq (h : f.Groups storages search assembled contracted zeroed names body groups) :
    groups.length = body.length := by
  induction h with
  | nil => rfl
  | assembly _ _ _ ih => rw [List.length_cons, List.length_cons, ih]
  | contraction _ _ _ ih => rw [List.length_cons, List.length_cons, ih]
  | other _ _ _ _ ih => rw [List.length_cons, List.length_cons, ih]

/-- The loops of the groups bind what the statements bind, and fresh names. -/
theorem binds (h : f.Groups storages search assembled contracted zeroed names body groups) :
    ∀ name ∈ Stmt.bindsOfList groups.flatten,
      name ∈ Stmt.bindsOfList body ∨ '%' ∈ name.toList := by
  induction h with
  | nil => exact fun _ hname => absurd hname List.not_mem_nil
  | assembly hloop hlowered _ ih =>
      intro name hname
      rw [List.flatten_cons, Stmt.bindsOfList_append] at hname
      rcases List.mem_append.1 hname with hname | hname
      · obtain ⟨decl, kernelBody, _, _, _, hbody, rfl⟩ := lowerAssembly_eq_loop hloop
        have hbinds := (AccessContext.names_of_lowerStmt _ hlowered).2
        rw [Stmt.bindsOfList_append, Stmt.bindsOfList_zeros, Stmt.bindsOfList, hbinds,
          Stmt.binds, (KernelContext.Lowers.names (KernelContext.lowers_of_lowerBody hbody)).2] at hname
        refine Or.inl (List.mem_append_left _ ?_)
        rw [Stmt.binds]
        simpa [Loop.binders, Stmt.bindsOfList] using Or.inl hname
      · exact (ih name hname).imp_left (List.mem_append_right _)
  | contraction hnests hlowered _ ih =>
      intro name hname
      rw [List.flatten_cons, Stmt.bindsOfList_append] at hname
      rcases List.mem_append.1 hname with hname | hname
      · rw [(AccessContext.names_of_lowerBody _ hlowered).2] at hname
        exact Or.inr ((names_of_lowerContraction hnests).2 name hname)
      · exact (ih name hname).imp_left (List.mem_append_right _)
  | other _ _ hlowered _ ih =>
      intro name hname
      rw [List.flatten_cons, Stmt.bindsOfList_append] at hname
      rcases List.mem_append.1 hname with hname | hname
      · rw [Stmt.bindsOfList, (AccessContext.names_of_lowerStmt _ hlowered).2] at hname
        exact Or.inl (List.mem_append_left _ (by simpa [Stmt.bindsOfList] using hname))
      · exact (ih name hname).imp_left (List.mem_append_right _)

end Func.Groups

/-- The loop that an assembly has become, among the statements of the lowered function. -/
structure Func.Loops (f : Func α) (l : LoweredFunc α) (search : Search) (targets : List VarName)
    (kernel : KernelVars) (body : List (Stmt α)) (decl : SetDecl)
    (contracted lowered final : List (Stmt α)) : Prop where
  /-- The function declares the set. -/
  declared : f.set? decl.name = some decl
  /-- The kernel's variables suit the set. -/
  checked : kernel.check decl = .ok ()
  /-- The targets are tensors. -/
  tensors : ∀ target ∈ targets, ∃ type, f.varType? target = some (.tensor type)
  /-- The loop before its accesses are lowered. -/
  assembly : f.lowerAssembly l.storages targets decl.name kernel body =
    .ok (.loop (.elements decl.name kernel.element.name) lowered)
  /-- The kernel is lowered statement by statement. -/
  lowers : (KernelContext.mk l.storages targets decl kernel).Lowers (f.kernelScope kernel) body lowered
  /-- Its accesses are lowered. -/
  accesses : (AccessContext.mk (f.withBody contracted) l.storages search).lowerBody lowered = .ok final
  /-- The loop is a statement of the lowered function. -/
  loop : .loop (.elements decl.name kernel.element.name) final ∈ l.func.body

/-- **Every assembly** becomes a loop. -/
theorem Func.loops_of_lowerWith {options : LowerOptions} {l : LoweredFunc α}
    (h : f.lowerWith storages options = .ok l) {targets : List VarName} {set : SetName}
    {kernel : KernelVars} {body : List (Stmt α)} (hmem : .assemble targets set kernel body ∈ f.body) :
    ∃ decl contracted lowered final, decl.name = set ∧
      f.Loops l options.search targets kernel body decl contracted lowered final := by
  obtain ⟨assembled, contracted, groups, hgroups, rfl⟩ := groups_of_lowerWith h
  obtain ⟨before, after, hbody⟩ := List.append_of_mem hmem
  obtain ⟨_, _, _, _, _, hsplit, heq⟩ := Func.Groups.split (f := f) (hbody ▸ hgroups)
  cases hsplit with
  | other hassemble => cases hassemble
  | assembly hloop hlowered _ =>
      obtain ⟨decl, lowered, hdecl, hcheck, htargets, hkernel, rfl⟩ := lowerAssembly_eq_loop hloop
      obtain ⟨rfl, _⟩ := name_of_set? hdecl
      obtain ⟨header, final, hheader, hfinal, rfl⟩ :=
        AccessContext.lowerStmt_loop_eq_ok_iff.1 hlowered
      obtain rfl := Except.ok.inj hheader
      refine ⟨decl, contracted, lowered, final, rfl, hdecl, hcheck, fun target htarget => ?_, hloop,
        KernelContext.lowers_of_lowerBody hkernel, hfinal, ?_⟩
      · obtain ⟨_, htype, _⟩ := Outcome.bind_eq_ok_iff.1 (htargets target htarget)
        exact ⟨_, varType?_of_tensorType? (Outcome.orFail_eq_ok_iff.1 htype)⟩
      · rw [heq]
        simp [withBody]

/-- No declared variable has a percent sign in its name. -/
def Func.PlainNames (f : Func α) : Prop :=
  ∀ v ∈ f.allVars, '%' ∉ v.name.toList

/-- No kernel or loop binds the name of a tensor. -/
def Func.BindersApart (f : Func α) : Prop :=
  ∀ name ∈ Stmt.bindsOfList f.body, ∀ type, f.varType? name ≠ some (.tensor type)

theorem Func.func_of_lower {options : LowerOptions} {l : LoweredFunc α}
    (h : f.lower options = .ok l) : l.func = f.withBody l.func.body := by
  obtain ⟨_, _, h⟩ := Outcome.bind_eq_ok_iff.1 h
  obtain ⟨_, _, _, _, rfl⟩ := groups_of_lowerWith h
  rfl

/-- **A run reaches every statement** in a memory where each tensor has its buffer and is hidden by no
    local, and goes on from what the group of the statement makes of it. -/
theorem Func.Groups.reaches {l : LoweredFunc α} {b : Bindings α} {config : SolverConfig α}
    {m : Machine α} {start final : Memory α}
    (h : f.Groups storages search assembled contracted zeroed names f.body groups)
    (hdistinct : f.DistinctNames) (hplain : f.PlainNames) (hbinders : f.BindersApart)
    (hfunc : l.func = f.withBody groups.flatten) (hmachine : l.machine b config = .ok m)
    (hstart : m.start storages = .ok start) (hexec : m.execAll groups.flatten start = .ok final)
    {k : Nat} {group : List (Stmt α)} (hgroup : groups[k]? = some group) :
    ∃ before mem, m.execAll (groups.take k).flatten start = .ok before ∧
      m.execAll group before = .ok mem ∧
      m.execAll (groups.drop (k + 1)).flatten mem = .ok final ∧ m.Laid storages before ∧
      before.Apart := by
  have hsame : m.func = f.withBody groups.flatten := (LoweredFunc.machine_spec hmachine).1.trans hfunc
  have hmdistinct : m.func.DistinctNames := hsame ▸ hdistinct
  have hlaid : m.Laid storages start := (Machine.start_spec hmdistinct hstart).1
  have hapart : start.Apart := Machine.apart_of_start hmdistinct hstart
  have hsplit : groups = groups.take k ++ group :: groups.drop (k + 1) := by
    obtain ⟨hk, rfl⟩ := List.getElem?_eq_some_iff.1 hgroup
    rw [← List.drop_eq_getElem_cons hk, List.take_append_drop]
  have hflatten : groups.flatten =
      (groups.take k).flatten ++ (group ++ (groups.drop (k + 1)).flatten) := by
    conv => lhs; rw [hsplit]
    rw [List.flatten_append, List.flatten_cons]
  rw [hflatten] at hexec
  obtain ⟨before, hbefore, hexec⟩ := Machine.execAll_append_eq_ok.1 hexec
  obtain ⟨mem, hmem, hlater⟩ := Machine.execAll_append_eq_ok.1 hexec
  have hchanges := Machine.changes_execAll _ hbefore
  refine ⟨before, mem, hbefore, hmem, hlater, hlaid.changes hchanges, hchanges.apart hapart ?_⟩
  refine fun name hname => hlaid.buffer_none fun type htype => ?_
  have htype : f.varType? name = some (.tensor type) := by
    rw [hsame] at htype
    exact htype
  have hbound : name ∈ Stmt.bindsOfList groups.flatten := by
    rw [hflatten, Stmt.bindsOfList_append]
    exact List.mem_append_left _ hname
  rcases h.binds name hbound with hbinder | hfresh
  · exact hbinders name hbinder type htype
  · obtain ⟨v, hv, rfl, _⟩ := (Func.varType?_eq_some_iff hdistinct).1 htype
    exact hplain v hv hfresh

end

end GraphTensor
