import GraphTensor.Proofs.Lowering.Runs
import GraphTensor.Proofs.Machine.Alike
import GraphTensor.Proofs.Scalar
import Mathlib.Algebra.Order.Ring.Rat
set_option autoImplicit false

/-! # Kernels are scoped

An assembly changes its targets, the locals of its kernel and its element, and nothing else. It only
adds to its targets. What it adds depends neither on what its targets hold nor on what the locals of
its kernel held before, as a kernel that is lowered reads its locals only after it has assigned
them: the locals of one element are gone for the next.

Two runs are followed side by side, in memories that are alike but for targets and for names out of
sight (`KernelContext.Conceals`). A statement that binds a local brings it into sight in both. All
this is of names that are not declared, and of reads whose positions the kernel can see
(`KernelContext.Sees`). A local that has the name of a declared variable is not a local: the
assignment goes to that variable. -/

namespace GraphTensor

variable {α : Type}

namespace KernelContext

/-! ## What a kernel sees -/

/-- The names that an expression of a kernel can read: the element, positions, what is in scope as a
    value, and tensors that are no targets. -/
def Sees (c : KernelContext) (scope : TypeScope α) (positions : List VarName) (name : VarName) :
    Prop :=
  name = c.kernel.element.name ∨ name ∈ positions ∨
    (∃ type, scope.lookup name = .ok type ∧ type.asTensor? = none) ∨
      ((∃ type, scope.func.varType? name = some (.tensor type)) ∧ name ∉ c.targets)

variable {c : KernelContext} {scope : TypeScope α} {positions : List VarName}

mutual

/-- **An expression** that a kernel takes reads only what the kernel sees. -/
theorem sees_of_takes (e : Expr α) {e' : Expr α} {type : ValueType} (htakes : c.Takes scope e type e')
    (hpositions : e.positions ⊆ positions) : ∀ name ∈ e'.reads, c.Sees scope positions name := by
  match e, htakes with
  | .literal _, .literal _ => exact fun _ hname => (List.not_mem_nil hname).elim
  | .setSize _, .setSize _ => exact fun _ hname => (List.not_mem_nil hname).elim
  | .var name, .var htype htensor =>
      intro other hother
      obtain rfl := List.mem_singleton.1 hother
      exact Or.inr (Or.inr (Or.inl ⟨_, htype, htensor⟩))
  | .endpoint _ _, .endpoint _ _ => exact fun _ hname => Or.inl (List.mem_singleton.1 hname)
  | .elementField _ _, .elementField _ _ => exact fun _ hname => Or.inl (List.mem_singleton.1 hname)
  | .endpointOf set element slot, .endpointOf helement _ _ =>
      rw [Expr.reads_endpointOf]
      exact sees_of_takes element helement hpositions
  | .fieldLoad set field element, .fieldLoad helement _ _ =>
      rw [Expr.reads_fieldLoad]
      exact sees_of_takes element helement hpositions
  | .tensorRead tensor indices position, .tensorRead htarget htype hindices =>
      rw [Expr.positions_tensorRead, List.append_subset] at hpositions
      intro name hname
      rw [Expr.reads_tensorRead] at hname
      rcases List.mem_cons.1 hname with rfl | hname
      · exact Or.inr (Or.inr (Or.inr ⟨⟨_, htype⟩, htarget⟩))
      · rcases List.mem_append.1 hname with hname | hname
        · exact Or.inr (Or.inl (hpositions.1 hname))
        · exact sees_of_takesAll indices hindices hpositions.2 name hname
  | .binary op lhs rhs, .binary hlhs hrhs _ =>
      have hsub : lhs.positions ⊆ positions ∧ rhs.positions ⊆ positions := by
        simpa [Expr.positions, Expr.subexprs, List.append_subset] using hpositions
      intro name hname
      rw [Expr.reads_binary] at hname
      rcases List.mem_append.1 hname with hname | hname
      · exact sees_of_takes lhs hlhs hsub.1 name hname
      · exact sees_of_takes rhs hrhs hsub.2 name hname
  | .neg inner, .neg hinner _ =>
      rw [Expr.reads_neg]
      exact sees_of_takes inner hinner hpositions
termination_by structural e

theorem sees_of_takesAll (es : List (Expr α)) {es' : List (Expr α)} {dims : List IndexDomain}
    (htakes : c.TakesAll scope es dims es') (hpositions : Expr.positionsOfList es ⊆ positions) :
    ∀ name ∈ Expr.readsOfList es', c.Sees scope positions name := by
  match es, htakes with
  | [], .nil => exact fun _ hname => (List.not_mem_nil hname).elim
  | e :: rest, .cons he _ hrest =>
      have hsub : e.positions ⊆ positions ∧ Expr.positionsOfList rest ⊆ positions := by
        simpa [Expr.positionsOfList, List.append_subset] using hpositions
      intro name hname
      rw [Expr.readsOfList_cons] at hname
      rcases List.mem_append.1 hname with hname | hname
      · exact sees_of_takes e he hsub.1 name hname
      · exact sees_of_takesAll rest hrest hsub.2 name hname
termination_by structural es

end

theorem reads_roles (roles : List IndexRole) :
    Expr.readsOfList (roles.map (IndexRole.expr (α := α) c)) ⊆ [c.kernel.element.name] := by
  induction roles with
  | nil => exact List.nil_subset _
  | cons role rest ih =>
      rw [List.map_cons, Expr.readsOfList_cons, List.append_subset]
      refine ⟨?_, ih⟩
      cases role <;> exact List.Subset.refl _

/-! ## What a kernel does not see -/

/-- The hidden names are out of a kernel's sight, as are its targets. -/
structure Conceals (c : KernelContext) (scope : TypeScope α) (positions hidden : List VarName) :
    Prop where
  /-- A hidden name is not in scope. -/
  unknown : ∀ name ∈ hidden, ∀ type, scope.lookup name ≠ .ok type
  /-- The targets are tensors. -/
  targets : ∀ name ∈ c.targets, ∃ type, scope.func.varType? name = some (.tensor type)
  /-- The element can be read. -/
  element : c.kernel.element.name ∉ hidden ∧ c.kernel.element.name ∉ c.targets
  /-- Positions can be read. -/
  positions : ∀ name ∈ positions, name ∉ hidden ∧ name ∉ c.targets

variable {hidden : List VarName} {body : List (Stmt α)} {mem other : Memory α}

namespace Conceals

/-- What a kernel sees is neither hidden nor a target. -/
theorem apart_of_sees (h : c.Conceals scope positions hidden) (hapart : c.Apart scope positions body)
    {name : VarName} (hsees : c.Sees scope positions name) : name ∉ hidden ∧ name ∉ c.targets := by
  rcases hsees with rfl | hposition | ⟨type, hlookup, htensor⟩ | ⟨⟨type, htype⟩, htarget⟩
  · exact h.element
  · exact h.positions name hposition
  · refine ⟨fun hmem => h.unknown name hmem type hlookup, fun hmem => ?_⟩
    obtain ⟨found, hfound⟩ := h.targets name hmem
    obtain rfl := Except.ok.inj ((hapart.lookup_of_declared hfound).symm.trans hlookup)
    cases htensor
  · exact ⟨fun hmem => h.unknown name hmem _ (hapart.lookup_of_declared htype), htarget⟩

theorem agreeOn {a : AccessContext α} (h : c.Conceals scope positions hidden)
    (hapart : c.Apart scope positions body) (halike : mem.Alike hidden c.targets other)
    {e e' e'' : Expr α} {type : ValueType} (htakes : c.Takes scope e type e')
    (hlower : a.lowerExpr e' = .ok e'') (hpositions : e.positions ⊆ positions) :
    mem.AgreeOn e''.reads other :=
  halike.agreeOn fun name hname => h.apart_of_sees hapart
    (sees_of_takes e htakes hpositions name (AccessContext.reads_of_lowerExpr e' hlower hname))

theorem notTarget (h : c.Conceals scope positions hidden) {name : VarName}
    (hdeclared : scope.func.varType? name = none) : name ∉ c.targets := by
  intro hmem
  obtain ⟨type, htype⟩ := h.targets name hmem
  rw [hdeclared] at htype
  cases htype

/-- After a statement the local that it binds is hidden no longer. -/
theorem next (h : c.Conceals scope positions hidden) {scope' : TypeScope α} {name : VarName}
    (hfunc : scope'.func = scope.func) (hdeclared : scope.func.varType? name = none)
    (hlookup : ∀ other type, other ≠ name → scope'.lookup other = .ok type →
      scope.lookup other = .ok type) :
    c.Conceals scope' (name :: positions) (hidden.filter (· ≠ name)) where
  unknown := fun other hother type htype => by
    obtain ⟨hmem, hne⟩ := List.mem_filter.1 hother
    exact h.unknown other hmem type (hlookup other type (of_decide_eq_true hne) htype)
  targets := fun other hother => hfunc ▸ h.targets other hother
  element := ⟨fun hmem => h.element.1 (List.mem_of_mem_filter hmem), h.element.2⟩
  positions := fun other hother => by
    rcases List.mem_cons.1 hother with rfl | hother
    · exact ⟨by simp, h.notTarget hdeclared⟩
    · obtain ⟨hhidden, htarget⟩ := h.positions other hother
      exact ⟨fun hmem => hhidden (List.mem_of_mem_filter hmem), htarget⟩

end Conceals

/-! ## Statements -/

section

variable [Scalar α] {a : AccessContext α} {f : Func α} {m : Machine α} {mem' : Memory α}
  {lowered final : List (Stmt α)} {s : Stmt α} {rest : List (Stmt α)} {name : VarName}
  {value value' : Expr α} {type bound : ValueType}

/-- A local that is assigned gets the same value, whatever there is out of sight. -/
theorem Conceals.alongside_assign (h : c.Conceals scope positions hidden)
    (hapart : c.Apart scope positions (.assign name value :: rest))
    (htakes : c.Takes scope value type value') (hs : a.lowerStmt (.assign name value') = .ok s)
    (hnone : mem.buffers.get? name = none) (halike : mem.Alike hidden c.targets other)
    (hexec : m.exec s mem = .ok mem') :
    ∃ other', m.exec s other = .ok other' ∧
      Memory.Alongside (hidden.filter (· ≠ name)) c.targets mem other mem' other' := by
  obtain ⟨value'', hlower, rfl⟩ := AccessContext.lowerStmt_assign_eq_ok_iff.1 hs
  have hreads := h.agreeOn hapart halike htakes hlower
    (Stmt.positions_assign name value ▸ hapart.placed.1)
  rw [Machine.exec] at hexec ⊢
  exact Machine.alongside_bind halike hnone (fun h => nomatch h) hreads hexec

/-- A local that is added to comes to the same value, as it is in scope. -/
theorem Conceals.alongside_accumulate (h : c.Conceals scope positions hidden)
    (hapart : c.Apart scope positions (.accumulate name value :: rest))
    (htakes : c.Takes scope value type value') (hbound : scope.lookup name = .ok bound)
    (hs : a.lowerStmt (.accumulate name value') = .ok s) (hnone : mem.buffers.get? name = none)
    (halike : mem.Alike hidden c.targets other) (hexec : m.exec s mem = .ok mem') :
    ∃ other', m.exec s other = .ok other' ∧
      Memory.Alongside (hidden.filter (· ≠ name)) c.targets mem other mem' other' := by
  obtain ⟨value'', hlower, rfl⟩ := AccessContext.lowerStmt_accumulate_eq_ok_iff.1 hs
  have hreads := h.agreeOn hapart halike htakes hlower
    (Stmt.positions_accumulate name value ▸ hapart.placed.1)
  rw [Machine.exec] at hexec ⊢
  exact Machine.alongside_bind halike hnone (fun _ hmem => h.unknown name hmem bound hbound) hreads
    hexec

/-- A write adds the same block to its target, whatever there is out of sight. -/
theorem Conceals.alongside_write (h : c.Conceals scope positions hidden)
    {indices : List (Expr α)} {position : Option VarName} {tensorType : TensorType}
    {roles : List IndexRole} {storage : TensorStorage}
    (hapart : c.Apart scope positions (.tensorWrite name indices position value true :: rest))
    (htarget : name ∈ c.targets)
    (hfits : c.WriteFits scope name indices value tensorType roles storage)
    (htakes : c.Takes scope value (.block tensorType.block) value')
    (hstorages : a.storages = c.storages)
    (hs : a.lowerStmt (.tensorWrite name (roles.map (IndexRole.expr c)) none value' true) = .ok s)
    (halike : mem.Alike hidden c.targets other) (hexec : m.exec s mem = .ok mem') :
    ∃ other', m.exec s other = .ok other' ∧
      Memory.Alongside hidden c.targets mem other mem' other' := by
  obtain ⟨value'', hlower, hkind⟩ := lowerStmt_write (hstorages ▸ hfits.hasStorage) hs
  have hplaced := hapart.placed.1
  rw [Stmt.positions_tensorWrite, List.append_subset] at hplaced
  have hvalue := h.agreeOn hapart halike htakes hlower hplaced.2
  have hroles : mem.AgreeOn [c.kernel.element.name] other :=
    halike.agreeOn fun _ hname => List.mem_singleton.1 hname ▸ h.element
  cases hstorage : storage.kind with
  | dense =>
      rw [hstorage] at hkind
      obtain ⟨_, offset, _, _, hoffset, rfl⟩ := hkind
      have hreads := List.Subset.trans (AccessContext.reads_of_offset hoffset) (reads_roles roles)
      exact Machine.alongside_execStore halike htarget (hroles.mono hreads) hvalue hexec
  | sparse p =>
      rw [hstorage] at hkind
      obtain ⟨row, col, rfl, rfl⟩ := hkind
      have hreads := reads_roles (α := α) (c := c) [row, col]
      rw [List.map_cons, List.map_singleton, Expr.readsOfList_cons, Expr.readsOfList_cons,
        ← List.append_assoc, ← Expr.reads_locate, List.append_subset] at hreads
      exact Machine.alongside_execSparseStore halike htarget (hroles.mono hreads.1) hvalue hexec
  | register =>
      rw [hstorage] at hkind
      obtain rfl := hkind
      -- without a buffer the sum would go to a local, which is not hidden either
      have hname : name ∉ hidden := fun hmem =>
        h.unknown name hmem _ (hapart.lookup_of_declared hfits.isTensor)
      rw [Machine.exec] at hexec ⊢
      exact Machine.alongside_sum halike hname (Or.inl htarget) hvalue hexec

/-! ## Kernels -/

/-- **A kernel** does the same, whatever there is out of sight. -/
theorem Lowers.alongside (hl : c.Lowers scope body lowered) (h : c.Conceals scope positions hidden)
    (hapart : c.Apart scope positions body) (hstorages : a.storages = c.storages)
    (hfinal : a.lowerBody lowered = .ok final)
    (hnone : ∀ s ∈ body, ∀ name, s.boundName? = some name → mem.buffers.get? name = none)
    (halike : mem.Alike hidden c.targets other) (hexec : m.execAll final mem = .ok mem') :
    ∃ other', m.execAll final other = .ok other' ∧
      Memory.Alongside hidden c.targets mem other mem' other' := by
  induction hl generalizing positions hidden mem other final with
  | nil =>
      obtain rfl := Except.ok.inj hfinal
      obtain rfl := Except.ok.inj hexec
      exact ⟨other, rfl, .refl halike⟩
  | @assign scope name value value' type rest rest' htype htensor hresolve _ ih =>
      obtain ⟨s, final, hs, hrest, rfl⟩ := AccessContext.lowerBody_cons_eq_ok.1 hfinal
      obtain ⟨middle, hstep, hexec⟩ := Machine.execAll_cons_eq_ok_iff.1 hexec
      have hhead := List.mem_cons_self (a := Stmt.assign name value) (l := rest)
      have hundeclared := hapart.undeclared _ hhead name rfl
      obtain ⟨other', hstep', hpair⟩ := h.alongside_assign hapart
        (takes_of_resolve value htype htensor hresolve) hs (hnone _ hhead name rfl) halike hstep
      -- from here on the local is in scope, with the same value in both memories
      have hnext : c.Conceals (scope.bind name type) (name :: positions) _ :=
        h.next rfl hundeclared fun other found hne hlookup => by
          rwa [lookup_bind, if_neg (Ne.symm hne)] at hlookup
      obtain ⟨other'', hexec', hpair'⟩ := ih hnext (hapart.bind rfl htensor) hrest
        (fun s hs name hname => (Machine.changes_exec _ hstep).buffer_none
          (hnone s (List.mem_cons_of_mem _ hs) name hname)) hpair.alike hexec
      exact ⟨other'', Machine.execAll_cons_eq_ok_iff.2 ⟨other', hstep', hexec'⟩,
        (hpair.trans hpair').mono fun _ => List.mem_of_mem_filter⟩
  | @accumulate scope name value value' type bound rest rest' htype htensor hresolve hbound _ ih =>
      obtain ⟨s, final, hs, hrest, rfl⟩ := AccessContext.lowerBody_cons_eq_ok.1 hfinal
      obtain ⟨middle, hstep, hexec⟩ := Machine.execAll_cons_eq_ok_iff.1 hexec
      have hhead := List.mem_cons_self (a := Stmt.accumulate name value) (l := rest)
      have hundeclared := hapart.undeclared _ hhead name rfl
      obtain ⟨other', hstep', hpair⟩ := h.alongside_accumulate hapart
        (takes_of_resolve value htype htensor hresolve) hbound hs (hnone _ hhead name rfl) halike hstep
      -- the sum is that of a local in scope, so that nothing hidden goes into it
      have hnext : c.Conceals scope (name :: positions) _ :=
        h.next rfl hundeclared fun _ _ _ hlookup => hlookup
      obtain ⟨other'', hexec', hpair'⟩ := ih hnext hapart.tail hrest
        (fun s hs name hname => (Machine.changes_exec _ hstep).buffer_none
          (hnone s (List.mem_cons_of_mem _ hs) name hname)) hpair.alike hexec
      exact ⟨other'', Machine.execAll_cons_eq_ok_iff.2 ⟨other', hstep', hexec'⟩,
        (hpair.trans hpair').mono fun _ => List.mem_of_mem_filter⟩
  | @write scope target indices position value value' type roles storage rest rest' htarget hfits
      hresolve _ ih =>
      obtain ⟨s, final, hs, hrest, rfl⟩ := AccessContext.lowerBody_cons_eq_ok.1 hfinal
      obtain ⟨middle, hstep, hexec⟩ := Machine.execAll_cons_eq_ok_iff.1 hexec
      obtain ⟨other', hstep', hpair⟩ := h.alongside_write hapart htarget hfits
        (takes_of_resolve value hfits.isBlock rfl hresolve) hstorages hs halike hstep
      obtain ⟨other'', hexec', hpair'⟩ := ih h hapart.tail hrest
        (fun s hs name hname => (Machine.changes_exec _ hstep).buffer_none
          (hnone s (List.mem_cons_of_mem _ hs) name hname)) hpair.alike hexec
      exact ⟨other'', Machine.execAll_cons_eq_ok_iff.2 ⟨other', hstep', hexec'⟩, hpair.trans hpair'⟩

/-- A kernel only adds to what it does not assign. -/
theorem Lowers.adds (hl : c.Lowers scope body lowered) (hstorages : a.storages = c.storages)
    (hfinal : a.lowerBody lowered = .ok final) {name : VarName}
    (hassign : ∀ value, .assign name value ∉ body) (hexec : m.execAll final mem = .ok mem') :
    ∃ additions, Memory.Adds name additions mem mem' := by
  induction hl generalizing mem final with
  | nil =>
      obtain rfl := Except.ok.inj hfinal
      obtain rfl := Except.ok.inj hexec
      exact ⟨[], .of_eq rfl⟩
  | @assign scope var value value' type rest rest' _ _ _ _ ih =>
      obtain ⟨s, final, hs, hrest, rfl⟩ := AccessContext.lowerBody_cons_eq_ok.1 hfinal
      obtain ⟨middle, hstep, hrun⟩ := Machine.execAll_cons_eq_ok_iff.1 hexec
      obtain ⟨value'', _, rfl⟩ := AccessContext.lowerStmt_assign_eq_ok_iff.1 hs
      obtain ⟨additions, hadds⟩ := ih hrest
        (fun value hmem => hassign value (List.mem_cons_of_mem _ hmem)) hrun
      -- the local that is assigned is another one
      have hne : name ≠ var := fun heq => hassign value (heq ▸ List.mem_cons_self ..)
      have hsame : middle.buffers.get? name = mem.buffers.get? name :=
        (Machine.changes_exec _ hstep).buffer_eq (by simpa [Stmt.writes] using hne)
      exact ⟨additions, (Memory.Adds.of_eq hsame).trans hadds⟩
  | accumulate _ _ _ _ _ ih =>
      obtain ⟨s, final, hs, hrest, rfl⟩ := AccessContext.lowerBody_cons_eq_ok.1 hfinal
      obtain ⟨middle, hstep, hrun⟩ := Machine.execAll_cons_eq_ok_iff.1 hexec
      obtain ⟨value'', _, rfl⟩ := AccessContext.lowerStmt_accumulate_eq_ok_iff.1 hs
      obtain ⟨later, hlater⟩ := ih hrest
        (fun value hmem => hassign value (List.mem_cons_of_mem _ hmem)) hrun
      rw [Machine.exec] at hstep
      obtain ⟨first, hfirst⟩ := Machine.adds_assign hstep name
      exact ⟨first ++ later, hfirst.trans hlater⟩
  | @write scope target indices position value value' type roles storage rest rest' _ hfits _ _ ih =>
      obtain ⟨s, final, hs, hrest, rfl⟩ := AccessContext.lowerBody_cons_eq_ok.1 hfinal
      obtain ⟨middle, hstep, hrun⟩ := Machine.execAll_cons_eq_ok_iff.1 hexec
      obtain ⟨later, hlater⟩ := ih hrest
        (fun value hmem => hassign value (List.mem_cons_of_mem _ hmem)) hrun
      obtain ⟨first, hfirst⟩ : ∃ additions, Memory.Adds name additions mem middle := by
        obtain ⟨value'', _, hkind⟩ := lowerStmt_write (hstorages ▸ hfits.hasStorage) hs
        cases hstorage : storage.kind with
        | dense =>
            rw [hstorage] at hkind
            obtain ⟨_, offset, _, _, _, rfl⟩ := hkind
            exact Machine.adds_store hstep name
        | sparse p =>
            rw [hstorage] at hkind
            obtain ⟨row, col, _, rfl⟩ := hkind
            exact Machine.adds_sparseStore hstep name
        | register =>
            rw [hstorage] at hkind
            obtain rfl := hkind
            rw [Machine.exec] at hstep
            exact Machine.adds_assign hstep name
      exact ⟨first ++ later, hfirst.trans hlater⟩

/-! ## The elements of an assembly -/

omit [Scalar α] in
theorem conceals_kernelScope (hapart : c.kernel.Apart f body)
    (htargets : ∀ target ∈ c.targets, ∃ type, f.varType? target = some (.tensor type))
    {known : List VarName} (hknown : ∀ name ∈ known,
      (∀ type, f.varType? name ≠ some (.tensor type)) ∧ ∀ s ∈ body, s.boundName? ≠ some name) :
    c.Conceals (f.kernelScope c.kernel) known (body.filterMap Stmt.boundName?) where
  unknown := fun name hname type hlookup => by
    obtain ⟨s, hs, hbound⟩ := List.mem_filterMap.1 hname
    obtain ⟨helement, hendpoints⟩ := hapart.kept s hs name hbound
    rw [Func.lookup_kernelScope helement hendpoints, hapart.undeclared s hs name hbound] at hlookup
    cases hlookup
  targets := fun target htarget => by
    rw [Func.func_kernelScope]
    exact htargets target htarget
  element := by
    refine ⟨fun hmem => ?_, fun hmem => ?_⟩
    · obtain ⟨s, hs, hbound⟩ := List.mem_filterMap.1 hmem
      exact (hapart.kept s hs _ hbound).1 rfl
    · obtain ⟨type, htype⟩ := htargets _ hmem
      rw [hapart.element] at htype
      cases htype
  positions := fun name hname => by
    refine ⟨fun hmem => ?_, fun hmem => ?_⟩
    · obtain ⟨s, hs, hbound⟩ := List.mem_filterMap.1 hmem
      exact (hknown name hname).2 s hs hbound
    · obtain ⟨type, htype⟩ := htargets name hmem
      exact (hknown name hname).1 type htype

/-- **An element** keeps to its scope: what its kernel's locals hold beforehand does not matter. -/
theorem Lowers.scoped_element (hl : c.Lowers (f.kernelScope c.kernel) body lowered)
    (hcheck : c.kernel.check c.set = .ok ()) (hapart : c.kernel.Apart f body)
    (htargets : ∀ target ∈ c.targets, ∃ type, f.varType? target = some (.tensor type))
    (hstorages : a.storages = c.storages) (hfinal : a.lowerBody lowered = .ok final) (m : Machine α)
    (e : Nat) :
    Memory.Scoped (body.filterMap Stmt.boundName?) c.targets fun mem =>
      m.execAll final (mem.withLocal c.kernel.element.name (.ofCount e)) := by
  intro mem other mem' hhidden halike hexec
  obtain ⟨known, hplaced, hknown⟩ := hapart.placed
  have hbind : Memory.Alongside (body.filterMap Stmt.boundName?) c.targets mem other
      (mem.withLocal c.kernel.element.name (.ofCount e))
      (other.withLocal c.kernel.element.name (.ofCount e)) :=
    (halike.alongside_withLocal _ _).mono fun _ hmem => List.mem_of_mem_filter hmem
  have hnone : ∀ s ∈ body, ∀ name, s.boundName? = some name →
      (mem.withLocal c.kernel.element.name (.ofCount e)).buffers.get? name = none :=
    fun s hs name hname => hhidden name (List.mem_filterMap.2 ⟨s, hs, hname⟩)
  obtain ⟨other', hexec', hpair⟩ := hl.alongside (conceals_kernelScope hapart htargets hknown)
    (apart_kernelScope hcheck hapart hplaced) hstorages hfinal hnone hbind.alike hexec
  exact ⟨other', hexec', hbind.trans hpair⟩

theorem Lowers.scoped_loop (hl : c.Lowers (f.kernelScope c.kernel) body lowered)
    (hcheck : c.kernel.check c.set = .ok ()) (hapart : c.kernel.Apart f body)
    (htargets : ∀ target ∈ c.targets, ∃ type, f.varType? target = some (.tensor type))
    (hstorages : a.storages = c.storages) (hfinal : a.lowerBody lowered = .ok final)
    (m : Machine α) :
    Memory.Scoped (body.filterMap Stmt.boundName?) c.targets
      (m.exec (.loop (.elements c.set.name c.kernel.element.name) final)) := by
  intro mem other mem' hhidden halike hexec
  obtain ⟨n, hn, hexec⟩ := Machine.exec_elements_eq_ok_iff.1 hexec
  rw [Machine.exec_elements hn]
  exact Memory.Scoped.foldlM
    (fun e => hl.scoped_element hcheck hapart htargets hstorages hfinal m e)
    (fun hstep _ hnone => (hl.changes_element hfinal hstep).buffer_none hnone) (List.range n)
    mem other mem' hhidden halike hexec

/-- All elements of an assembly only add to what the kernel does not assign. -/
theorem Lowers.adds_loop (hl : c.Lowers scope body lowered) (hstorages : a.storages = c.storages)
    (hfinal : a.lowerBody lowered = .ok final) {name : VarName}
    (hassign : ∀ value, .assign name value ∉ body)
    (hexec : m.exec (.loop (.elements c.set.name c.kernel.element.name) final) mem = .ok mem') :
    ∃ additions, Memory.Adds name additions mem mem' := by
  obtain ⟨n, _, hexec⟩ := Machine.exec_elements_eq_ok_iff.1 hexec
  refine Except.foldlM_invariant (P := fun next => ∃ additions, Memory.Adds name additions mem next)
    ?_ ⟨[], .of_eq rfl⟩ hexec
  rintro next e next' ⟨first, hfirst⟩ hstep
  obtain ⟨later, hlater⟩ := hl.adds hstorages hfinal hassign hstep
  exact ⟨first ++ later, hfirst.trans hlater⟩

end

end KernelContext

/-! ## Functions -/

section

variable [Scalar α] {f : Func α} {storages : Storages}

/-- **Kernels are scoped.** The loop of an assembly changes no buffer and no local but those of its
    targets, of names that its kernel assigns or adds to, and of its element; it only adds to what the
    kernel does not assign. If the kernel is `KernelVars.Apart`, its locals are those of one element:
    neither the loop nor any element depends on what they, or the targets, hold beforehand. For this
    nothing that the kernel binds may be declared, and no read may name a position that the kernel binds
    only after it, since a position is read without a look at what is in scope. -/
theorem Func.assembly_scoped {options : LowerOptions} {l : LoweredFunc α}
    (hlower : f.lowerWith storages options = .ok l) {targets : List VarName} {set : SetName}
    {kernel : KernelVars} {body : List (Stmt α)} (hmem : .assemble targets set kernel body ∈ f.body) :
    ∃ contracted lowered final,
      f.lowerAssembly l.storages targets set kernel body =
        .ok (.loop (.elements set kernel.element.name) lowered) ∧
      (AccessContext.mk (f.withBody contracted) l.storages options.search).lowerBody lowered =
        .ok final ∧
      .loop (.elements set kernel.element.name) final ∈ l.func.body ∧
      ∀ m : Machine α,
        (∀ mem mem', m.exec (.loop (.elements set kernel.element.name) final) mem = .ok mem' →
          ∀ name,
            (name ∉ targets → (∀ s ∈ body, s.boundName? ≠ some name) →
              mem'.buffers.get? name = mem.buffers.get? name ∧
                (name ≠ kernel.element.name →
                  mem'.locals.get? name = mem.locals.get? name)) ∧
            ((∀ value, .assign name value ∉ body) →
              ∃ additions, Memory.Adds name additions mem mem')) ∧
        (kernel.Apart f body →
          Memory.Scoped (body.filterMap Stmt.boundName?) targets
              (m.exec (.loop (.elements set kernel.element.name) final)) ∧
            ∀ e, Memory.Scoped (body.filterMap Stmt.boundName?) targets fun mem =>
              m.execAll final (mem.withLocal kernel.element.name (.ofCount e))) := by
  obtain ⟨decl, contracted, lowered, final, rfl, h⟩ := loops_of_lowerWith hlower hmem
  refine ⟨contracted, lowered, final, h.assembly, h.accesses, h.loop, fun m => ⟨?_, fun hapart => ?_⟩⟩
  · refine fun mem mem' hexec name => ⟨fun htarget hbound => ?_, fun hassign =>
      h.lowers.adds_loop rfl h.accesses hassign hexec⟩
    -- what the lowered kernel writes is a target or what the kernel assigns or adds to
    have hchanges := Machine.changes_exec _ hexec
    have hwritten : name ∉ (Stmt.loop (.elements decl.name kernel.element.name) final).writes := by
      rw [Stmt.writes, (AccessContext.names_of_lowerBody _ h.accesses).1]
      intro hmem
      rcases h.lowers.names.1 name hmem with hmem | ⟨s, hs, hname⟩
      · exact htarget hmem
      · exact hbound s hs hname
    refine ⟨hchanges.buffer_eq hwritten, fun hne => hchanges.local_eq hwritten ?_⟩
    rw [Stmt.binds, (AccessContext.names_of_lowerBody _ h.accesses).2, h.lowers.names.2]
    simpa [Loop.binders] using hne
  · exact ⟨h.lowers.scoped_loop h.checked hapart h.tensors rfl h.accesses m,
      fun e => h.lowers.scoped_element h.checked hapart h.tensors rfl h.accesses m e⟩

end

/-! ## A local, and what is none -/

namespace KernelLocal

/-- A name is assigned and added to, and each vertex contributes one. -/
def body (name : VarName) : List (Stmt ℚ) :=
  [.assign name (.literal (.float 5)), .accumulate name (.literal (.float 2)),
    .contribute "a" [.var "V.e"] (.literal (.float 1))]

/-- The kernel is run at each vertex, next to a result that is no target. -/
def func (name : VarName) : Func ℚ :=
  (Func.named "f").withSet (.plain "V")
    |>.withResult "y" (.vector "V" .scalar)
    |>.withResult "a" (.vector "V" .scalar)
    |>.withAssembly ["a"] "V" (fun _ => body name)

/-- One vertex. -/
def vertex : Bindings ℚ :=
  Bindings.empty.withSet "V" (.plain 1)

/-- What the kernel is lowered to. -/
def kernel (name : VarName) : List (Stmt ℚ) :=
  [.assign name (.literal (.float 5)), .accumulate name (.literal (.float 2)),
    .store "a" (.var "V.e") (.literal (.float 1)) true]

/-- The function once it is lowered. -/
def lowered (name : VarName) : LoweredFunc ℚ :=
  ⟨(func name).withBody [.zero "a", .loop (.elements "V" "V.e") (kernel name)],
    ⟨[("y", ⟨.dense, .scalar⟩), ("a", ⟨.dense, .scalar⟩)]⟩⟩

theorem lowerWith_eq {name : VarName} (h : name = "t" ∨ name = "y") :
    (func name).lowerWith (lowered name).storages .standard = .ok (lowered name) := by
  rcases h with rfl | rfl <;> rfl

theorem lower_eq {name : VarName} (h : name = "t" ∨ name = "y") :
    (func name).lower .standard = .ok (lowered name) := by
  let inf := (func name).inference Table.empty
  have hsettled : inf.propagate (Table.empty : Evidence).keys Table.empty = .ok Table.empty := by
    rw [Inference.propagate]
    rfl
  show (inf.propagate (Table.empty : Evidence).keys Table.empty >>= fun _ => _) >>= _ = _
  rw [hsettled]
  exact lowerWith_eq h

end KernelLocal

open KernelLocal in
/-- A name that is not declared is a local, and the other result stays as it is. -/
theorem kernelLocal_scoped :
    (KernelLocal.func "t").lower .standard = .ok (lowered "t") ∧
      ∃ m start before after, (lowered "t").machine vertex ⟨.lu, 0⟩ = .ok m ∧
        m.start (lowered "t").storages = .ok start ∧ m.exec (.zero "a") start = .ok before ∧
        m.exec (.loop (.elements "V" "V.e") (kernel "t")) before = .ok after ∧
        after.buffers.get? "y" = before.buffers.get? "y" ∧
        (∃ additions, Memory.Adds "a" additions before after) ∧
        Memory.Scoped ["t", "t"] ["a"] (m.exec (.loop (.elements "V" "V.e") (kernel "t"))) := by
  obtain ⟨m, hmachine, start, hstart, before, hbefore, after, hafter, _⟩ :
      ∃ m, (lowered "t").machine vertex ⟨.lu, 0⟩ = .ok m ∧
        ∃ start, m.start (lowered "t").storages = .ok start ∧
          ∃ before, m.exec (.zero "a") start = .ok before ∧
            ∃ after, m.exec (.loop (.elements "V" "V.e") (kernel "t")) before = .ok after ∧ True := by
    decide +kernel
  have hkept : ∀ s ∈ KernelLocal.body "t", ∀ name ∈ s.boundName?,
      name ≠ "V.e" ∧ ∀ ep ∈ (none : Option Variable), name ≠ ep.name := by decide
  have hundeclared : ∀ s ∈ KernelLocal.body "t", ∀ name ∈ s.boundName?,
      (KernelLocal.func "t").varType? name = none := by decide
  have hplaced : Stmt.Placed [] (KernelLocal.body "t") :=
    ⟨List.Subset.refl _, List.nil_subset _, List.nil_subset _, trivial⟩
  have hapart : ((KernelLocal.func "t").kernelVars "V").Apart (KernelLocal.func "t")
      (KernelLocal.body "t") :=
    ⟨rfl, fun _ h => (nomatch h), hkept, hundeclared, [], hplaced, fun _ h => (nomatch h)⟩
  obtain ⟨_, _, final, _, _, hloop, hall⟩ :=
    Func.assembly_scoped (lowerWith_eq (Or.inl rfl)) (List.mem_singleton_self _)
  obtain rfl : kernel "t" = final := by
    rcases List.mem_cons.1 hloop with heq | hloop
    · cases heq
    · exact (Stmt.loop.inj (List.mem_singleton.1 hloop)).2.symm
  obtain ⟨hframe, hscoped⟩ := hall m
  have hnames := hframe before after hafter
  refine ⟨lower_eq (Or.inl rfl), m, start, before, after, hmachine, hstart, hbefore, hafter, ?_, ?_,
    (hscoped hapart).1⟩
  · exact ((hnames "y").1 (by decide) (by decide)).1
  · exact (hnames "a").2 fun _ h => by simp [KernelLocal.body, Stmt.contribute] at h

open KernelLocal in
/-- A declared name is bound in scope like a local, but it is none: the other result, which is no target,
    is overwritten. -/
theorem kernelLocal_overwrites :
    (KernelLocal.func "y").lower .standard = .ok (lowered "y") ∧
      ∃ m start before after, (lowered "y").machine vertex ⟨.lu, 0⟩ = .ok m ∧
        m.start (lowered "y").storages = .ok start ∧ m.exec (.zero "a") start = .ok before ∧
        m.exec (.loop (.elements "V" "V.e") (kernel "y")) before = .ok after ∧
        before.buffers.get? "y" = some (.dense .scalar #[0]) ∧
        after.buffers.get? "y" = some (.dense .scalar #[7]) := by
  obtain ⟨m, hmachine, start, hstart, before, hbefore, after, hafter, hzero, hseven⟩ :
      ∃ m, (lowered "y").machine vertex ⟨.lu, 0⟩ = .ok m ∧
        ∃ start, m.start (lowered "y").storages = .ok start ∧
          ∃ before, m.exec (.zero "a") start = .ok before ∧
            ∃ after, m.exec (.loop (.elements "V" "V.e") (kernel "y")) before = .ok after ∧
              before.buffers.get? "y" = some (.dense .scalar #[0]) ∧
              after.buffers.get? "y" = some (.dense .scalar #[7]) := by
    decide +kernel
  exact ⟨lower_eq (Or.inr rfl), m, start, before, after, hmachine, hstart, hbefore, hafter, hzero,
    hseven⟩

end GraphTensor
