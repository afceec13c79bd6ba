import GraphTensor.Proofs.Lowering.Addresses
import GraphTensor.Proofs.Lowering.Groups
import GraphTensor.Proofs.Table
import Mathlib.Data.List.Forall2
set_option autoImplicit false

/-! # What becomes of a kernel

A kernel that is lowered consists of local assignments and of writes that add to targets
(`KernelContext.Lowers`). Each index of a write has a role, the element or one of its endpoints
(`IndexRole.expr`), and the role says which set the index ranges over; what the index is lowered to
depends on the role alone.

The scope of a kernel hides declared names by the kernel's own, and a statement that binds a local
hides one more. `KernelContext.KnowsKernel` is what stays known of such a scope. -/

namespace GraphTensor

variable {α : Type}

/-! ## Roles -/

/-- The expression that stands for a role once the kernel is lowered. -/
def IndexRole.expr (c : KernelContext) : IndexRole → Expr α
  | element => c.element
  | endpoint slot => .endpointOf c.set.name c.element slot

/-- The set that a role ranges over. -/
def SetDecl.roleSet? (d : SetDecl) : IndexRole → Option SetName
  | .element => some d.name
  | .endpoint slot => d.endpoints.bind fun ep => if slot < ep.arity then some ep.set else none

namespace KernelContext

/-- An index is lowered to what stands for its role. -/
theorem resolve_of_role {c : KernelContext} {index : Expr α} {role : IndexRole}
    (h : c.kernel.role? index = some role) : c.resolve index = .ok (role.expr c) := by
  unfold KernelVars.role? at h
  split at h
  · next name =>
      split at h
      · next heq =>
          cases h
          rw [resolve, heq]
          rfl
      · cases h
  · next endpoints slot =>
      split at h
      · cases h
        rw [resolve]
        rfl
      · cases h
  · cases h

/-- A scope has the variables of a kernel as the kernel binds them, but for an endpoint variable that
    hides the element. -/
structure KnowsKernel (c : KernelContext) (scope : TypeScope α) : Prop where
  /-- The element is one of the set, unless it is hidden. -/
  element : ∀ set, scope.lookup c.kernel.element.name = .ok (.element set) → set = c.set.name
  /-- The endpoints are those of the set. -/
  endpoints : ∀ ep, c.kernel.endpoints = some ep →
    scope.lookup ep.name = .ok (.endpoints c.set.name)

theorem lookup_bind {scope : TypeScope α} {name other : VarName} {type : ValueType} :
    (scope.bind name type).lookup other =
      if name = other then .ok type else scope.lookup other := by
  unfold TypeScope.lookup TypeScope.bind
  rw [Table.get?_insert]
  by_cases h : name = other <;> simp [h]

theorem KnowsKernel.bind {c : KernelContext} {scope : TypeScope α} (h : c.KnowsKernel scope)
    {name : VarName} {type : ValueType} (helement : name ≠ c.kernel.element.name)
    (hendpoints : ∀ ep, c.kernel.endpoints = some ep → name ≠ ep.name) :
    c.KnowsKernel (scope.bind name type) where
  element := fun set hset => by
    rw [lookup_bind, if_neg helement] at hset
    exact h.element set hset
  endpoints := fun ep hep => by
    rw [lookup_bind, if_neg (hendpoints ep hep)]
    exact h.endpoints ep hep

theorem knowsKernel_kernelScope {c : KernelContext} {f : Func α}
    (h : c.kernel.check c.set = .ok ()) : c.KnowsKernel (f.kernelScope c.kernel) := by
  obtain ⟨_, helement, h⟩ := Outcome.bind_eq_ok_iff.1 h
  have helement : c.kernel.element.type = .element c.set.name := by
    simpa using Outcome.failIf_eq_ok_iff.1 helement
  unfold Func.kernelScope
  cases hep : c.kernel.endpoints with
  | none =>
      refine ⟨fun set hset => ?_, fun ep hsome => by rw [hep] at hsome; cases hsome⟩
      simp only [TypeScope.bindVariable] at hset
      rw [lookup_bind, if_pos rfl, helement] at hset
      cases hset
      rfl
  | some ep =>
      rw [hep] at h
      have htype : ep.type = .endpoints c.set.name := by
        have := Outcome.failIf_eq_ok_iff.1 h
        simpa using (Bool.or_eq_false_iff.1 this).2
      refine ⟨fun set hset => ?_, fun ep' hsome => ?_⟩
      · simp only [TypeScope.bindVariable, lookup_bind, htype, helement] at hset
        split at hset
        · cases hset
        · cases hset
          rfl
      · rw [hep] at hsome
        cases hsome
        simp only [TypeScope.bindVariable, lookup_bind, if_true, htype]

/-- The roles of indices, each index being typed as an element of its dimension's set. -/
inductive RolesFit (c : KernelContext) (scope : TypeScope α) :
    List (Expr α) → List IndexDomain → List IndexRole → Prop where
  /-- There are no indices. -/
  | nil : RolesFit c scope [] [] []
  /-- An index before the others. -/
  | cons {index : Expr α} {indices : List (Expr α)} {set : SetName} {dims : List IndexDomain}
      {role : IndexRole} {roles : List IndexRole} (hrole : c.kernel.role? index = some role)
      (htype : scope.typeOf index = .ok (.element set)) (hrest : RolesFit c scope indices dims roles) :
      RolesFit c scope (index :: indices) (.set set :: dims) (role :: roles)

theorem rolesFit_of_roles {c : KernelContext} {scope : TypeScope α} {target : VarName}
    {indices : List (Expr α)} {dims : List IndexDomain} {place : Nat} {roles : List IndexRole}
    (hlength : indices.length = dims.length)
    (h : c.roles scope target indices dims place = .ok roles) :
    c.RolesFit scope indices dims roles := by
  induction indices generalizing dims place roles with
  | nil =>
      cases dims with
      | nil =>
          cases h
          exact .nil
      | cons dim dims => cases hlength
  | cons index indices ih =>
      cases dims with
      | nil => cases hlength
      | cons dim dims =>
          rw [KernelContext.roles] at h
          obtain ⟨role, hrole, htyped⟩ := Outcome.bind_eq_ok_iff.1 h
          obtain ⟨type, htype, hfits⟩ := Outcome.bind_eq_ok_iff.1 htyped
          split at hfits
          · next set =>
              split at hfits
              · next hdim =>
                  obtain ⟨rest, hrest, hroles⟩ := Outcome.bind_eq_ok_iff.1 hfits
                  cases hroles
                  rw [← hdim]
                  exact .cons (Outcome.orFail_eq_ok_iff.1 hrole) htype
                    (ih (Nat.succ.inj hlength) hrest)
              · cases hfits
          · cases hfits

/-- The set that a typed index ranges over is that of its role. -/
theorem roleSet_of_typeOf {c : KernelContext} {scope : TypeScope α} (hknows : c.KnowsKernel scope)
    (hset : scope.func.set? c.set.name = some c.set) {index : Expr α} {role : IndexRole}
    {set : SetName} (hrole : c.kernel.role? index = some role)
    (htype : scope.typeOf index = .ok (.element set)) : c.set.roleSet? role = some set := by
  unfold KernelVars.role? at hrole
  split at hrole
  · next name =>
      split at hrole
      · next heq =>
          cases hrole
          rw [TypeScope.typeOf, heq] at htype
          rw [SetDecl.roleSet?, hknows.element set htype]
      · cases hrole
  · next endpoints slot =>
      split at hrole
      · next hany =>
          cases hrole
          obtain ⟨ep, hep, hname⟩ := (Option.any_eq_true _ _).1 hany
          have hname : ep.name = endpoints := by simpa using hname
          rw [TypeScope.typeOf] at htype
          obtain ⟨found, hfound, htype⟩ := Outcome.bind_eq_ok_iff.1 htype
          rw [← hname, hknows.endpoints ep hep] at hfound
          cases hfound
          obtain ⟨decl, hdecl, htype⟩ := Outcome.bind_eq_ok_iff.1 htype
          have hdecl : scope.func.set? c.set.name = some decl := Outcome.orFail_eq_ok_iff.1 hdecl
          obtain rfl : c.set = decl := Option.some.inj (hset.symm.trans hdecl)
          split at htype
          · cases htype
          · next endpoints hendpoints =>
              split at htype
              · cases htype
              · next hslot =>
                  cases htype
                  simp only [SetDecl.roleSet?, hendpoints, Option.bind_some]
                  rw [if_pos (by omega)]
      · cases hrole
  · cases hrole

theorem RolesFit.resolveList {c : KernelContext} {scope : TypeScope α} {indices : List (Expr α)}
    {dims : List IndexDomain} {roles : List IndexRole} (h : c.RolesFit scope indices dims roles) :
    c.resolveList indices = .ok (roles.map (IndexRole.expr c)) := by
  induction h with
  | nil => rfl
  | cons hrole _ _ ih =>
      rw [KernelContext.resolveList, resolve_of_role hrole, ih]
      rfl

/-- The dimensions of a write are the sets of its roles. -/
theorem RolesFit.dims_eq {c : KernelContext} {scope : TypeScope α} (hknows : c.KnowsKernel scope)
    (hset : scope.func.set? c.set.name = some c.set) {indices : List (Expr α)}
    {dims : List IndexDomain} {roles : List IndexRole} (h : c.RolesFit scope indices dims roles) :
    List.Forall₂ (fun role dim => ∃ set, c.set.roleSet? role = some set ∧ dim = .set set) roles
      dims := by
  induction h with
  | nil => exact .nil
  | cons hrole htype _ ih =>
      exact .cons ⟨_, roleSet_of_typeOf hknows hset hrole htype, rfl⟩ ih

theorem RolesFit.pair {c : KernelContext} {scope : TypeScope α} {indices : List (Expr α)}
    {dims : List IndexDomain} {row col : IndexRole}
    (h : c.RolesFit scope indices dims [row, col]) :
    ∃ i j, indices = [i, j] ∧ c.kernel.role? i = some row ∧ c.kernel.role? j = some col := by
  cases h with
  | cons hrow _ hrest =>
      cases hrest with
      | cons hcol _ hrest =>
          cases hrest
          exact ⟨_, _, rfl, hrow, hcol⟩

/-! ## Writes -/

theorem tensor_eq_ok {scope : TypeScope α} {name : VarName} {type : TensorType}
    (h : scope.tensor name = .ok type) : scope.func.varType? name = some (.tensor type) := by
  unfold TypeScope.tensor at h
  split at h
  · next found hfound =>
      obtain rfl := Except.ok.inj h
      exact hfound
  · cases h
  · cases h

/-- What is known of a kernel write that passes its check. -/
structure WriteFits (c : KernelContext) (scope : TypeScope α) (target : VarName)
    (indices : List (Expr α)) (value : Expr α) (type : TensorType) (roles : List IndexRole)
    (storage : TensorStorage) : Prop where
  /-- The target is a tensor. -/
  isTensor : scope.func.varType? target = some (.tensor type)
  /-- The indices have roles. -/
  hasRoles : c.RolesFit scope indices type.dims roles
  /-- The value is a block of the target. -/
  isBlock : scope.typeOf value = .ok (.block type.block)
  /-- The target has a descriptor. -/
  hasStorage : c.storages.get? target = some storage
  /-- The places written range over the pattern of a sparse target. -/
  covered : ∀ p, storage.kind = .sparse p →
    ∃ row col rest, roles = row :: col :: rest ∧ c.set.covers p row col = true

theorem writeFits_of_checkWrite {c : KernelContext} {scope : TypeScope α} {target : VarName}
    {indices : List (Expr α)} {value : Expr α}
    (h : c.checkWrite scope target indices value = .ok ()) :
    ∃ type roles storage, c.WriteFits scope target indices value type roles storage := by
  obtain ⟨type, htype, hcount⟩ := Outcome.bind_eq_ok_iff.1 h
  obtain ⟨_, hlength, hroles⟩ := Outcome.bind_eq_ok_iff.1 hcount
  obtain ⟨roles, hroles, hvalue⟩ := Outcome.bind_eq_ok_iff.1 hroles
  obtain ⟨block, hvalue, hblock⟩ := Outcome.bind_eq_ok_iff.1 hvalue
  obtain ⟨_, hblock, hstorage⟩ := Outcome.bind_eq_ok_iff.1 hblock
  obtain ⟨storage, hstorage, hcovered⟩ := Outcome.bind_eq_ok_iff.1 hstorage
  have hlength : indices.length = type.rank := by
    simpa using Outcome.failIf_eq_ok_iff.1 hlength
  have hblock : block = type.block := by simpa using Outcome.failIf_eq_ok_iff.1 hblock
  refine ⟨type, roles, storage, ?_, rolesFit_of_roles hlength hroles, ?_,
    Outcome.orFail_eq_ok_iff.1 hstorage, fun p hp => ?_⟩
  · exact tensor_eq_ok htype
  · obtain ⟨found, hfound, hshape⟩ := Outcome.bind_eq_ok_iff.1 hvalue
    split at hshape
    · cases hshape
      rw [hfound, hblock]
    · cases hshape
  · rw [hp] at hcovered
    simp only at hcovered
    unfold checkCovered at hcovered
    split at hcovered
    · next row col rest =>
        split at hcovered
        · next hcovers => exact ⟨row, col, rest, rfl, hcovers⟩
        · cases hcovered
    · cases hcovered

/-! ## Statements -/

/-- The statements of a kernel and what they are lowered to, each in the scope that the statements
    before it leave. -/
inductive Lowers (c : KernelContext) : TypeScope α → List (Stmt α) → List (Stmt α) → Prop where
  /-- There is nothing to lower. -/
  | nil {scope : TypeScope α} : Lowers c scope [] []
  /-- A local is assigned, and bound in what follows. -/
  | assign {scope : TypeScope α} {name : VarName} {value value' : Expr α} {type : ValueType}
      {rest rest' : List (Stmt α)} (htype : scope.typeOf value = .ok type)
      (htensor : type.asTensor? = none) (hvalue : c.resolve value = .ok value')
      (hrest : Lowers c (scope.bind name type) rest rest') :
      Lowers c scope (.assign name value :: rest) (.assign name value' :: rest')
  /-- A local is added to. -/
  | accumulate {scope : TypeScope α} {name : VarName} {value value' : Expr α}
      {type bound : ValueType} {rest rest' : List (Stmt α)} (htype : scope.typeOf value = .ok type)
      (htensor : type.asTensor? = none) (hvalue : c.resolve value = .ok value') (hbound : scope.lookup name = .ok bound)
      (hrest : Lowers c scope rest rest') :
      Lowers c scope (.accumulate name value :: rest) (.accumulate name value' :: rest')
  /-- A target is added to. -/
  | write {scope : TypeScope α} {target : VarName} {indices : List (Expr α)}
      {position : Option VarName} {value value' : Expr α} {type : TensorType}
      {roles : List IndexRole} {storage : TensorStorage} {rest rest' : List (Stmt α)}
      (htarget : target ∈ c.targets)
      (hfits : c.WriteFits scope target indices value type roles storage)
      (hvalue : c.resolve value = .ok value') (hrest : Lowers c scope rest rest') :
      Lowers c scope (.tensorWrite target indices position value true :: rest)
        (.tensorWrite target (roles.map (IndexRole.expr c)) none value' true :: rest')

theorem localType_eq_ok {scope : TypeScope α} {name : VarName} {value : Expr α} {type : ValueType}
    (h : localType scope name value = .ok type) :
    scope.typeOf value = .ok type ∧ type.asTensor? = none := by
  obtain ⟨found, hfound, h⟩ := Outcome.bind_eq_ok_iff.1 h
  split at h
  · cases h
  · next hne =>
      obtain rfl := Except.ok.inj h
      refine ⟨hfound, ?_⟩
      cases found with
      | tensor t => exact absurd rfl (hne t)
      | _ => rfl

/-- **Kernels.** A kernel that is lowered consists of local assignments and of checked writes that
    add to targets. -/
theorem lowers_of_lowerBody {c : KernelContext} {scope : TypeScope α} {body lowered : List (Stmt α)}
    (h : c.lowerBody scope body = .ok lowered) : c.Lowers scope body lowered := by
  induction body generalizing scope lowered with
  | nil =>
      cases h
      exact .nil
  | cons s rest ih =>
      obtain ⟨⟨scope', s'⟩, hs, hbody⟩ := Outcome.bind_eq_ok_iff.1 h
      obtain ⟨rest', hrest, hbody⟩ := Outcome.bind_eq_ok_iff.1 hbody
      cases hbody
      unfold lowerStmt at hs
      split at hs
      · obtain ⟨type, htype, hs⟩ := Outcome.bind_eq_ok_iff.1 hs
        obtain ⟨value', hvalue, hs⟩ := Outcome.bind_eq_ok_iff.1 hs
        cases hs
        obtain ⟨htyped, htensor⟩ := localType_eq_ok htype
        exact .assign htyped htensor hvalue (ih hrest)
      · obtain ⟨type, htype, hs⟩ := Outcome.bind_eq_ok_iff.1 hs
        obtain ⟨value', hvalue, hs⟩ := Outcome.bind_eq_ok_iff.1 hs
        obtain ⟨bound, hbound, hs⟩ := Outcome.bind_eq_ok_iff.1 hs
        cases hs
        obtain ⟨htyped, htensor⟩ := localType_eq_ok htype
        exact .accumulate htyped htensor hvalue hbound (ih hrest)
      · next target indices position value accumulate =>
          split at hs
          · cases hs
          · next htarget =>
              split at hs
              · cases hs
              · next haccumulate =>
                  obtain ⟨_, hcheck, hs⟩ := Outcome.bind_eq_ok_iff.1 hs
                  obtain ⟨indices', hindices, hs⟩ := Outcome.bind_eq_ok_iff.1 hs
                  obtain ⟨value', hvalue, hs⟩ := Outcome.bind_eq_ok_iff.1 hs
                  cases hs
                  obtain ⟨type, roles, storage, hfits⟩ := writeFits_of_checkWrite hcheck
                  have hresolve := hfits.hasRoles.resolveList
                  rw [hresolve] at hindices
                  cases hindices
                  obtain rfl : accumulate = true := by simpa using haccumulate
                  exact .write (by simpa using htarget) hfits hvalue (ih hrest)
      · cases hs

/-! ## Accesses of writes -/

theorem lowerExprs_roles {a : AccessContext α} {c : KernelContext} (roles : List IndexRole) :
    a.lowerExprs (roles.map (IndexRole.expr c)) = .ok (roles.map (IndexRole.expr c)) := by
  induction roles with
  | nil => rfl
  | cons role rest ih =>
      rw [List.map_cons, AccessContext.lowerExprs, ih]
      cases role <;> rfl

/-- A kernel write becomes a store at a row-major offset, a store at the position of its place, or
    an addition to a register, by the storage of its target. -/
theorem lowerStmt_write {a : AccessContext α} {c : KernelContext} {target : VarName}
    {roles : List IndexRole} {value : Expr α} {storage : TensorStorage} {lowered : Stmt α}
    (hstorage : a.storages.get? target = some storage)
    (h : a.lowerStmt (.tensorWrite target (roles.map (IndexRole.expr c)) none value true) =
      .ok lowered) :
    ∃ value', a.lowerExpr value = .ok value' ∧
      match storage.kind with
      | .dense => ∃ type offset, a.func.tensorType? target = some type ∧
          roles.length = type.rank ∧
          AccessContext.offset type storage.block (roles.map (IndexRole.expr c)) = .ok offset ∧
          lowered = .store target offset value' true
      | .sparse p => ∃ row col, roles = [row, col] ∧
          lowered = .sparseStore target (.locate p (row.expr c) (col.expr c) a.search) value' true
            storage.block
      | .register => lowered = .accumulate target value' := by
  obtain ⟨value', address, hvalue, haddress, rfl⟩ :=
    AccessContext.lowerStmt_tensorWrite hstorage h
  refine ⟨value', hvalue, ?_⟩
  cases haddress with
  | @dense _ type es offset hkind htype hcount hes hoffset =>
      rw [lowerExprs_roles] at hes
      obtain rfl := Except.ok.inj hes
      rw [hkind]
      exact ⟨type, offset, htype, by simpa using hcount, hoffset, rfl⟩
  | @search p row col hkind hcount hes =>
      obtain ⟨row', col', rfl⟩ := List.length_eq_two.1 ((List.length_map _).symm.trans hcount)
      rw [lowerExprs_roles] at hes
      obtain ⟨rfl, rfl⟩ : row'.expr c = row ∧ col'.expr c = col := by
        simpa using Except.ok.inj hes
      rw [hkind]
      exact ⟨row', col', rfl, rfl⟩
  | register hkind =>
      rw [hkind]
      rfl

end KernelContext

end GraphTensor
