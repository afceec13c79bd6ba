import GraphTensor.Proofs.Lowering.Assemblies
import GraphTensor.Proofs.Lowering.Checks
import GraphTensor.Proofs.Lowering.Expressions
import GraphTensor.Proofs.Lowering.Factors
import GraphTensor.Proofs.Lowering.Settled
import GraphTensor.Proofs.Lowering.Terms
import GraphTensor.Proofs.Storage.Descriptors
set_option autoImplicit false

/-! # Errors that lie in the program

Lowering computes the descriptors of all tensors itself, and each of its passes removes one kind of
construct, so that nothing should be missing and nothing left over. That is so for assemblies and
index expressions, which are checked before they are lowered. Outside of them names and accesses are
taken as they are, and only the last pass meets what does not belong there.

For programs in order (`Func.InOrder`), which name declared tensors there and nest no assemblies
below a first loop, lowering ends in a lowered function or in an error that lies in the program.
Each pass leaves what the next one can take: the first leaves statements that assign index
expressions or are settled, the second leaves settled ones (`Stmt.Settled`), and the last leaves
plain code. An error of any check lies in the program; what is to be shown is that no other error is
met. -/

namespace GraphTensor

variable {α : Type}

open Outcome Lowered

/-! ## Storage inference -/

theorem Func.isConfiguration_of_checkInduces {f : Func α} {var : VarName} {p : PatternRef}
    {type : TensorType} {cause : LowerError} (h : f.checkInduces var p type = .error cause) :
    cause.isConfiguration = true := by
  simp only [checkInduces] at h
  split at h
  · cases h
    rfl
  · split at h
    · split at h
      · cases h
      · cases h
        rfl
    · split at h
      · cases h
        rfl
      · split at h
        · cases h
          rfl
        · split at h
          · cases h
          · cases h
            rfl

theorem isConfiguration_of_mergePatterns {var : VarName} {a b : PatternRef} {cause : LowerError}
    (h : mergePatterns var a b = .error cause) : cause.isConfiguration = true := by
  unfold mergePatterns at h
  split at h
  · cases h
  · split at h
    · cases h
    · cases h
      rfl

theorem Evidence.isConfiguration_of_merge {e : Evidence} {var : VarName} {p : PatternRef}
    {cause : LowerError} (h : e.merge var p = .error cause) : cause.isConfiguration = true := by
  unfold merge at h
  split at h
  · cases h
  · exact isConfiguration_of_mergePatterns (Except.eq_error_of_bind_ok h)

namespace Inference

variable {inf : Inference α} {cause : LowerError}

theorem isConfiguration_of_observeWrite {decl : SetDecl} {kernel : KernelVars} {e : Evidence}
    {write : VarName × List (Expr α)} (h : inf.observeWrite decl kernel e write = .error cause) :
    cause.isConfiguration = true := by
  unfold observeWrite at h
  dsimp only at h
  split at h
  · cases h
  · split at h
    · rcases Except.bind_eq_error h with h | ⟨_, _, h⟩
      · exact Func.isConfiguration_of_checkInduces h
      · exact Evidence.isConfiguration_of_merge h
    · cases h

theorem isConfiguration_of_assemblyEvidence (h : inf.assemblyEvidence = .error cause) :
    cause.isConfiguration = true := by
  obtain ⟨s, _, e, _, h⟩ :=
    Except.foldlM_error (P := fun _ => True) (fun _ _ _ _ _ _ => trivial) trivial h
  unfold observeAssembly at h
  split at h
  · split at h
    · cases h
      rfl
    · obtain ⟨_, _, _, _, h⟩ :=
        Except.foldlM_error (P := fun _ => True) (fun _ _ _ _ _ _ => trivial) trivial h
      exact isConfiguration_of_observeWrite h
  · cases h

theorem isConfiguration_of_sumMask {e : Evidence} {var : VarName} {free : List IndexVar}
    {mask : Option PatternRef} {terms : List (Term α)}
    (h : inf.sumMask e var free mask terms = .error cause) : cause.isConfiguration = true := by
  induction terms generalizing mask with
  | nil => cases h
  | cons t rest ih =>
      rw [sumMask] at h
      split at h
      · cases h
      · split at h
        · exact ih h
        · rcases Except.bind_eq_error h with h | ⟨_, _, h⟩
          · exact isConfiguration_of_mergePatterns h
          · exact ih h

variable [Scalar α]

theorem isConfiguration_of_observeIndex {decided : List VarName} {e : Evidence} {s : Stmt α}
    (h : inf.observeIndex decided e s = .error cause) : cause.isConfiguration = true := by
  unfold observeIndex at h
  split at h
  · split at h
    · cases h
    · split at h
      · rcases Except.bind_eq_error h with h | ⟨mask, _, h⟩
        · exact isConfiguration_of_sumMask h
        · split at h
          · cases h
          · split at h
            · cases h
            · rcases Except.bind_eq_error h with h | ⟨_, _, h⟩
              · exact Func.isConfiguration_of_checkInduces h
              · exact Evidence.isConfiguration_of_merge (Except.eq_error_of_bind_ok h)
      · cases h
  · cases h

theorem isConfiguration_of_round {decided : List VarName} {body : List (Stmt α)} {e : Evidence}
    (h : inf.round decided body e = .error cause) : cause.isConfiguration = true := by
  induction body generalizing e with
  | nil => cases h
  | cons s rest ih =>
      rcases Except.bind_eq_error h with h | ⟨_, _, h⟩
      · exact isConfiguration_of_observeIndex h
      · exact ih (Except.eq_error_of_bind_ok h)

theorem avoids_propagate {decided : List VarName} {e : Evidence} :
    (inf.propagate decided e).Avoids fun e => !e.isConfiguration := by
  fun_induction propagate inf decided e with
  | case1 e cause h => exact avoids_fail (congrArg Bool.not (isConfiguration_of_round h))
  | case2 => exact avoids_ok _
  | case3 _ _ _ _ ih => exact ih
  | case4 => exact ⟨fun _ h => nomatch h⟩

end Inference

/-- **Inference** describes all tensors, unless an error lies in the program. -/
theorem Func.yields_inferStorage [Scalar α] {f : Func α} (hdistinct : f.DistinctNames) :
    f.inferStorage.Yields fun storages => storages.Describe f.tensorType? := by
  refine ⟨?_, fun storages h var type htype => ?_⟩
  · refine Avoids.bind (avoids_ok _) fun _ _ => ?_
    refine Avoids.bind ?_ fun _ _ => Inference.avoids_propagate.bind fun _ _ => avoids_ok _
    cases h : (f.inference Table.empty).assemblyEvidence with
    | ok e =>
        show Avoids (ofExcept (f.inference Table.empty).assemblyEvidence) _
        rw [h]
        exact avoids_ok e
    | error cause =>
        show Avoids (ofExcept (f.inference Table.empty).assemblyEvidence) _
        rw [h]
        exact avoids_fail (congrArg Bool.not (Inference.isConfiguration_of_assemblyEvidence h))
  · rw [← tensors_get? hdistinct] at htype
    obtain ⟨s, hs, _⟩ := register_iff_of_inferStorage h htype
    refine ⟨s, hs, fun p hp => ?_⟩
    obtain ⟨type', htype', hsuits⟩ := suits_of_inferStorageWith h hs
    obtain rfl := Option.some.inj (htype.symm.trans htype')
    rw [TensorType.rank, dims_of_checkInduces (hsuits.pattern p hp)]
    rfl

/-! ## Kernels -/

theorem Func.tensorType?_of_varType? {f : Func α} {name : VarName} {type : TensorType}
    (h : f.varType? name = some (.tensor type)) : f.tensorType? name = some type := by
  rw [tensorType?, h]
  rfl

namespace KernelContext

variable {c : KernelContext} {scope : TypeScope α}

mutual

theorem Takes.settled {e e' : Expr α} {type : ValueType} (h : c.Takes scope e type e') :
    e'.Settled scope.func.tensorType? := by
  match h with
  | .literal _ => exact .literal _
  | .var _ _ => exact .var _
  | .setSize _ => exact .setSize _
  | .endpoint _ _ => exact .endpointOf (.var _)
  | .elementField _ _ => exact .fieldLoad (.var _)
  | .endpointOf helement _ _ => exact .endpointOf helement.settled
  | .fieldLoad helement _ _ => exact .fieldLoad helement.settled
  | .tensorRead _ htype hindices =>
      exact .tensorRead (Func.tensorType?_of_varType? htype) hindices.length_eq hindices.settled
  | .binary hlhs hrhs _ => exact .binary hlhs.settled hrhs.settled
  | .neg hinner _ => exact .neg hinner.settled

theorem TakesAll.settled {es es' : List (Expr α)} {dims : List IndexDomain}
    (h : c.TakesAll scope es dims es') : ∀ e ∈ es', e.Settled scope.func.tensorType? := by
  match h with
  | .nil => exact fun _ he => absurd he List.not_mem_nil
  | .cons h _ hrest => exact List.forall_mem_cons.2 ⟨h.settled, hrest.settled⟩

end

theorem RolesFit.length_eq {indices : List (Expr α)} {dims : List IndexDomain}
    {roles : List IndexRole} (h : c.RolesFit scope indices dims roles) :
    roles.length = dims.length := by
  induction h with
  | nil => rfl
  | cons _ _ _ ih => rw [List.length_cons, List.length_cons, ih]

theorem Lowers.settled {body lowered : List (Stmt α)} (h : c.Lowers scope body lowered) :
    ∀ s ∈ lowered, s.Settled scope.func.tensorType? := by
  induction h with
  | nil => exact fun _ hs => absurd hs List.not_mem_nil
  | assign htype htensor hvalue _ ih =>
      have hsettled := (takes_of_resolve _ htype htensor hvalue).settled
      exact List.forall_mem_cons.2 ⟨.assign hsettled, ih⟩
  | accumulate htype htensor hvalue _ _ ih =>
      have hsettled := (takes_of_resolve _ htype htensor hvalue).settled
      exact List.forall_mem_cons.2 ⟨.accumulate hsettled, ih⟩
  | write _ hfits hvalue _ ih =>
      have hsettled := (takes_of_resolve _ hfits.isBlock rfl hvalue).settled
      have htype := Func.tensorType?_of_varType? hfits.isTensor
      refine List.forall_mem_cons.2
        ⟨.tensorWrite htype ?_ (fun e he => ?_) hsettled, ih⟩
      · rw [List.length_map, hfits.hasRoles.length_eq]
        rfl
      · obtain ⟨role, _, rfl⟩ := List.mem_map.1 he
        cases role with
        | element => exact .var _
        | endpoint slot => exact .endpointOf (.var _)

theorem avoids_checkCovered (target : VarName) (pattern : PatternRef) (roles : List IndexRole) :
    (c.checkCovered target pattern roles).Avoids fun e => !e.isConfiguration := by
  unfold checkCovered
  split
  · split
    · exact avoids_ok ()
    · exact avoids_fail rfl
  · exact avoids_abort

theorem avoids_checkWrite {target : VarName} {s : TensorStorage}
    (hs : c.storages.get? target = some s) (indices : List (Expr α)) (value : Expr α) :
    (c.checkWrite scope target indices value).Avoids fun e => !e.isConfiguration := by
  refine (scope.onlyChecks_tensor target).configuration.bind fun type _ => ?_
  refine (avoids_failIf _ rfl).bind fun _ _ => ?_
  refine (c.onlyChecks_roles scope target indices type.dims 0).configuration.bind fun roles _ => ?_
  refine (scope.onlyChecks_blockOf value _).configuration.bind fun block _ => ?_
  refine (avoids_failIf _ rfl).bind fun _ _ => ?_
  rw [hs]
  refine (avoids_ok s).bind fun storage _ => ?_
  split
  · exact avoids_checkCovered target _ roles
  · exact avoids_ok ()

theorem avoids_lowerStmt (htargets : ∀ target ∈ c.targets, ∃ s, c.storages.get? target = some s)
    (s : Stmt α) : (c.lowerStmt scope s).Avoids fun e => !e.isConfiguration := by
  unfold lowerStmt
  split
  · exact (onlyChecks_localType ..).configuration.bind fun _ _ =>
      (c.onlyChecks_resolve _).configuration.bind fun _ _ => avoids_ok _
  · exact (onlyChecks_localType ..).configuration.bind fun _ _ =>
      (c.onlyChecks_resolve _).configuration.bind fun _ _ =>
        (scope.onlyChecks_lookup _).configuration.bind fun _ _ => avoids_ok _
  · next target indices _ value accumulate =>
      split
      · exact avoids_fail rfl
      · next htarget =>
          split
          · exact avoids_fail rfl
          · obtain ⟨s, hs⟩ := htargets target (by simpa using htarget)
            exact (avoids_checkWrite hs indices value).bind fun _ _ =>
              (c.onlyChecks_resolveList indices).configuration.bind fun _ _ =>
                (c.onlyChecks_resolve value).configuration.bind fun _ _ => avoids_ok _
  · exact avoids_fail rfl

/-- A kernel whose targets have descriptors is lowered, or an error lies in the program. -/
theorem yields_lowerBody (htargets : ∀ target ∈ c.targets, ∃ s, c.storages.get? target = some s)
    (scope : TypeScope α) (body : List (Stmt α)) :
    (c.lowerBody scope body).Yields fun lowered =>
      ∀ s ∈ lowered, s.Settled scope.func.tensorType? := by
  refine ⟨?_, fun lowered h => (lowers_of_lowerBody h).settled⟩
  induction body generalizing scope with
  | nil => exact avoids_ok _
  | cons s rest ih =>
      exact (avoids_lowerStmt htargets s).bind fun _ _ => (ih _).bind fun _ _ => avoids_ok _

end KernelContext

/-! ## Programs in order -/

/-- An expression whose type is found by looking at all of it, except for what is settled. -/
inductive Expr.Typable (types : VarName → Option TensorType) : Expr α → Prop where
  /-- A settled expression, which need not be looked at. -/
  | settled {e : Expr α} (h : e.Settled types) : Typable types e
  /-- An operand of an index expression. -/
  | indexed (operand : IndexedTensor) : Typable types (.indexed operand)
  /-- An index expression. -/
  | index (free : List IndexVar) (body : Expr α) : Typable types (.index free body)
  /-- An endpoint of an element that is worked out. -/
  | endpointOf {set : SetName} {element : Expr α} {slot : Nat} (h : Typable types element) :
      Typable types (.endpointOf set element slot)
  /-- A field of an element that is worked out. -/
  | fieldLoad {set : SetName} {name : FieldName} {element : Expr α} (h : Typable types element) :
      Typable types (.fieldLoad set name element)
  /-- An operation. -/
  | binary {op : BinaryOp} {lhs rhs : Expr α} (hlhs : Typable types lhs)
      (hrhs : Typable types rhs) : Typable types (.binary op lhs rhs)
  /-- A negative. -/
  | neg {inner : Expr α} (h : Typable types inner) : Typable types (.neg inner)
  /-- An entry of a tensor. -/
  | tensorRead {tensor : VarName} {indices : List (Expr α)} {position : Option VarName}
      (hindices : ∀ e ∈ indices, Typable types e) :
      Typable types (.tensorRead tensor indices position)

/-- A statement that the first pass may leave: one that assigns an index expression, one that is
    refused because it has index expressions elsewhere, or a settled one. -/
inductive Stmt.Contractible (types : VarName → Option TensorType) : Stmt α → Prop where
  /-- The assignment of an index expression. -/
  | contraction {target : VarName} {free : List IndexVar} {body : Expr α}
      (h : body.Typable types) : Contractible types (.assign target (.index free body))
  /-- A statement with index expressions elsewhere. -/
  | stray {s : Stmt α} (hs : s.isContraction = false) (h : s.hasIndexForm = true) :
      Contractible types s
  /-- A settled statement. -/
  | settled {s : Stmt α} (h : s.Settled types) : Contractible types s

/-- A statement of a program in order: an assembly, a statement that is refused because it has an
    assembly in it, or one that the first pass may leave. -/
inductive Stmt.InOrder (types : VarName → Option TensorType) : Stmt α → Prop where
  /-- An assembly. -/
  | assemble (targets : List VarName) (set : SetName) (kernel : KernelVars) (body : List (Stmt α)) :
      InOrder types (.assemble targets set kernel body)
  /-- A statement with an assembly in it. -/
  | nested {s : Stmt α} (h : s.children.any Stmt.isAssemble = true) : InOrder types s
  /-- Any other statement that the first pass may leave. -/
  | contractible {s : Stmt α} (h : s.Contractible types) : InOrder types s

/-- A program is in order: its variables have different names, and its statements are in order. -/
structure Func.InOrder (f : Func α) : Prop where
  /-- The names are different. -/
  distinct : f.DistinctNames
  /-- The statements are in order. -/
  body : ∀ s ∈ f.body, s.InOrder f.tensorType?

namespace Func

variable {f : Func α} {storages : Storages}

theorem avoids_checkTarget (hdescribed : storages.Describe f.tensorType?) (target : VarName) :
    (f.checkTarget storages target).Avoids fun e => !e.isConfiguration := by
  refine (avoids_orFail _ rfl).bind fun type htype => ?_
  obtain ⟨s, hs, _⟩ := hdescribed target type (orFail_eq_ok_iff.1 htype)
  rw [failIf, Table.contains, hs]
  exact avoids_ok ()

/-- An assembly becomes a settled loop, and its targets are declared. -/
theorem yields_lowerAssembly (hdescribed : storages.Describe f.tensorType?)
    (targets : List VarName) (set : SetName) (kernel : KernelVars) (body : List (Stmt α)) :
    (f.lowerAssembly storages targets set kernel body).Yields fun loop =>
      loop.Settled f.tensorType? ∧
        ∀ target ∈ targets, ∃ type, f.tensorType? target = some type := by
  refine (OnlyChecks.yields (avoids_orFail _ rfl)).bind fun decl _ => ?_
  refine (kernel.onlyChecks_check decl).yields.bind fun _ _ => ?_
  have htargets : Lowered.Yields (targets.forM (f.checkTarget storages)) fun _ =>
      ∀ target ∈ targets, ∃ type, f.tensorType? target = some type := by
    refine ⟨avoids_forM fun target _ => avoids_checkTarget hdescribed target, fun _ h => ?_⟩
    intro target htarget
    obtain ⟨type, htype, _⟩ := bind_eq_ok_iff.1 (Except.forM_mem h htarget)
    exact ⟨type, orFail_eq_ok_iff.1 htype⟩
  refine htargets.bind fun _ htypes => ?_
  refine (KernelContext.yields_lowerBody (c := ⟨storages, targets, decl, kernel⟩)
    (fun target htarget => ?_) (f.kernelScope kernel) body).bind fun lowered hlowered => ?_
  · obtain ⟨type, htype⟩ := htypes target htarget
    obtain ⟨s, hs, _⟩ := hdescribed target type htype
    exact ⟨s, hs⟩
  · rw [func_kernelScope] at hlowered
    exact yields_ok ⟨.loop (fun _ he => absurd he List.not_mem_nil) hlowered, htypes⟩

/-- **The first pass** leaves statements that the second one can lower. -/
theorem yields_lowerAssembliesFrom (hdescribed : storages.Describe f.tensorType?)
    {body : List (Stmt α)} (h : ∀ s ∈ body, s.InOrder f.tensorType?) (zeroed : List VarName) :
    (f.lowerAssembliesFrom storages zeroed body).Yields fun out =>
      ∀ s ∈ out, s.Contractible f.tensorType? := by
  induction body generalizing zeroed with
  | nil => exact yields_ok fun _ hs => absurd hs List.not_mem_nil
  | cons s rest ih =>
      obtain ⟨hs, hrest⟩ := List.forall_mem_cons.1 h
      unfold lowerAssembliesFrom
      split
      · contradiction
      · next targets set kernel body rest' heq =>
          cases heq
          refine (yields_lowerAssembly hdescribed targets set kernel body).bind fun loop hloop => ?_
          refine (ih hrest _).bind fun out hout => yields_ok fun s hs => ?_
          rcases List.mem_append.1 hs with hs | hs
          · obtain ⟨target, htarget, rfl⟩ := List.mem_map.1 hs
            obtain ⟨type, htype⟩ := hloop.2 target (mem_freshTargets_iff.1 htarget).1
            exact .settled (.zero htype)
          · rcases List.mem_cons.1 hs with rfl | hs
            · exact .settled hloop.1
            · exact hout s hs
      · next hother heq =>
          cases heq
          cases hs with
          | assemble targets set kernel body => exact absurd rfl (hother targets set kernel body)
          | nested hnested =>
              rw [hnested]
              exact yields_fail rfl
          | contractible hs =>
              refine (OnlyChecks.yields (avoids_failIf _ rfl)).bind fun _ _ => ?_
              exact (ih hrest _).bind fun out hout =>
                yields_ok (List.forall_mem_cons.2 ⟨hs, hout⟩)

end Func

/-! ## Coefficients -/

namespace TypeScope

variable {scope : TypeScope α}

theorem typeOf_of_checkIndices {tensor : VarName} {indices : List (Expr α)}
    {dims : List IndexDomain} {place : Nat} (hlength : indices.length = dims.length)
    (h : scope.checkIndices tensor indices dims place = .ok ()) :
    ∀ e ∈ indices, ∃ type, scope.typeOf e = .ok type := by
  induction indices generalizing dims place with
  | nil => exact fun _ he => absurd he List.not_mem_nil
  | cons index rest ih =>
      cases dims with
      | nil => cases hlength
      | cons dim dims =>
          obtain ⟨type, htype, hrest⟩ := bind_eq_ok_iff.1 h
          split at hrest
          · exact List.forall_mem_cons.2 ⟨⟨type, htype⟩, ih (Nat.succ.inj hlength) hrest⟩
          · cases hrest

/-- What has a type is settled: its accesses have been checked. -/
theorem settled_of_typeOf {e : Expr α} (h : e.Typable scope.func.tensorType?) {type : ValueType}
    (htype : scope.typeOf e = .ok type) : e.Settled scope.func.tensorType? := by
  induction h generalizing type with
  | settled h => exact h
  | indexed => cases htype
  | index => cases htype
  | endpointOf _ ih =>
      obtain ⟨_, helement, _⟩ := bind_eq_ok_iff.1 htype
      exact .endpointOf (ih helement)
  | fieldLoad _ ih =>
      obtain ⟨_, helement, _⟩ := bind_eq_ok_iff.1 htype
      exact .fieldLoad (ih helement)
  | binary _ _ ihl ihr =>
      obtain ⟨_, hlhs, hrest⟩ := bind_eq_ok_iff.1 htype
      obtain ⟨_, hrhs, _⟩ := bind_eq_ok_iff.1 hrest
      exact .binary (ihl hlhs) (ihr hrhs)
  | neg _ ih =>
      obtain ⟨_, hinner, _⟩ := bind_eq_ok_iff.1 htype
      exact .neg (ih hinner)
  | tensorRead _ ih =>
      obtain ⟨tensorType, htensor, hrest⟩ := bind_eq_ok_iff.1 htype
      split at hrest
      · cases hrest
      · next hcount =>
          have hcount := not_not.1 hcount
          obtain ⟨_, hchecked, _⟩ := bind_eq_ok_iff.1 hrest
          refine .tensorRead (Func.tensorType?_of_varType? (KernelContext.tensor_eq_ok htensor))
            hcount fun e he => ?_
          obtain ⟨found, hfound⟩ := typeOf_of_checkIndices hcount hchecked e he
          exact ih e he hfound

end TypeScope

namespace Expr

variable {types : VarName → Option TensorType}

theorem Typable.binary_inv {op : BinaryOp} {lhs rhs : Expr α}
    (h : (Expr.binary op lhs rhs).Typable types) : lhs.Typable types ∧ rhs.Typable types := by
  cases h with
  | settled h =>
      cases h with
      | binary hlhs hrhs => exact ⟨.settled hlhs, .settled hrhs⟩
  | binary hlhs hrhs => exact ⟨hlhs, hrhs⟩

theorem Typable.neg_inv {inner : Expr α} (h : (Expr.neg inner).Typable types) :
    inner.Typable types := by
  cases h with
  | settled h =>
      cases h with
      | neg h => exact .settled h
  | neg h => exact h

/-- The coefficients of an expanded body are parts of it, or reciprocals of parts. -/
theorem Expands.typable [Scalar α] {e : Expr α} {ts : List (Term α)} (h : e.Expands ts)
    (he : e.Typable types) :
    ∀ t ∈ ts, ∀ value, .scalar value ∈ t.factors → value.Typable types := by
  induction h with
  | scalar _ =>
      intro t ht value hvalue
      obtain rfl := List.mem_singleton.1 ht
      obtain rfl := Factor.scalar.inj (List.mem_singleton.1 hvalue)
      exact he
  | indexed operand =>
      intro t ht value hvalue
      obtain rfl := List.mem_singleton.1 ht
      cases List.mem_singleton.1 hvalue
  | neg _ _ ih =>
      intro t ht value hvalue
      obtain ⟨t', ht', rfl⟩ := List.mem_map.1 ht
      exact ih he.neg_inv t' ht' value hvalue
  | add _ _ _ ihl ihr =>
      intro t ht value hvalue
      rcases List.mem_append.1 ht with ht | ht
      · exact ihl he.binary_inv.1 t ht value hvalue
      · exact ihr he.binary_inv.2 t ht value hvalue
  | sub _ _ _ ihl ihr =>
      intro t ht value hvalue
      rcases List.mem_append.1 ht with ht | ht
      · exact ihl he.binary_inv.1 t ht value hvalue
      · obtain ⟨t', ht', rfl⟩ := List.mem_map.1 ht
        exact ihr he.binary_inv.2 t' ht' value hvalue
  | mul _ _ _ ihl ihr =>
      intro t ht value hvalue
      obtain ⟨l, hl, ht⟩ := List.mem_flatMap.1 ht
      obtain ⟨r, hr, rfl⟩ := List.mem_map.1 ht
      rcases List.mem_append.1 hvalue with hvalue | hvalue
      · exact ihl he.binary_inv.1 l hl value hvalue
      · exact ihr he.binary_inv.2 r hr value hvalue
  | div _ _ _ ih =>
      intro t ht value hvalue
      obtain ⟨t', ht', rfl⟩ := List.mem_map.1 ht
      rcases List.mem_append.1 hvalue with hvalue | hvalue
      · exact ih he.binary_inv.1 t' ht' value hvalue
      · obtain rfl := Factor.scalar.inj (List.mem_singleton.1 hvalue)
        exact .binary (.settled (.literal _)) he.binary_inv.2

end Expr

/-! ## Loop nests -/

/-- A factor of which the last pass leaves nothing: a declared tensor with an index for each
    dimension, or a settled coefficient. -/
def Factor.Settled (types : VarName → Option TensorType) : Factor α → Prop
  | tensor operand =>
      ∃ type, types operand.tensor = some type ∧ operand.indices.length = type.rank
  | scalar value => value.Settled types

variable {types : VarName → Option TensorType}

theorem Nest.settled_of_indices {n : Nest α} {is : List IndexVar} {es : List (Expr α)}
    (h : n.indices is = .ok es) : es.length = is.length ∧ ∀ e ∈ es, e.Settled types := by
  obtain ⟨vars, rfl, hvars⟩ := indices_eq_ok h
  refine ⟨(List.length_map _).trans hvars.length_eq.symm, fun e he => ?_⟩
  obtain ⟨var, _, rfl⟩ := List.mem_map.1 he
  exact .var var

theorem Nest.Generated.settled_wrap {n : Nest α} (h : n.Generated) {s : Stmt α}
    (hs : s.Settled types) : (n.wrap s).Settled types := by
  rw [Nest.Generated] at h
  rw [Nest.wrap]
  generalize n.loops = loops at h
  induction loops with
  | nil => exact hs
  | cons header rest ih =>
      obtain ⟨hheader, hrest⟩ := List.forall_mem_cons.1 h
      refine .loop (fun e he => ?_) (List.forall_mem_singleton.2 (ih hrest))
      obtain ⟨name, rfl⟩ := hheader.exprs e he
      exact .var name

namespace Contraction

variable {c : Contraction} {t : Term α}

theorem settled_of_typed {scope : TypeScope α} {factor : Factor α} (h : Typed scope factor)
    (htypable : ∀ value, factor = .scalar value → value.Typable scope.func.tensorType?) :
    factor.Settled scope.func.tensorType? := by
  cases factor with
  | tensor operand =>
      obtain ⟨type, htype, hdims⟩ := h
      refine ⟨type, Func.tensorType?_of_varType? (KernelContext.tensor_eq_ok htype), ?_⟩
      rw [TensorType.rank, ← hdims, List.length_map]
  | scalar value =>
      obtain ⟨block, hblock⟩ := h
      obtain ⟨type, htype, _⟩ := bind_eq_ok_iff.1 hblock
      exact TypeScope.settled_of_typeOf (htypable value rfl) htype

theorem settled_of_factorValue {n : Nest α} {place : Nat} {factor : Factor α} {e : Expr α}
    (hfactor : factor.Settled types) (h : factorValue n place factor = .ok e) :
    e.Settled types := by
  cases factor with
  | scalar value =>
      obtain rfl := Except.ok.inj h
      exact hfactor
  | tensor operand =>
      obtain ⟨type, htype, hcount⟩ := hfactor
      obtain ⟨indices, hindices, h⟩ := bind_eq_ok_iff.1 h
      obtain rfl := Except.ok.inj h
      obtain ⟨hlength, hsettled⟩ := Nest.settled_of_indices hindices
      exact .tensorRead htype (hlength.trans hcount) hsettled

theorem settled_of_productValue {n : Nest α} {place : Nat} {left e : Expr α}
    {factors : List (Factor α)} (hleft : left.Settled types)
    (hfactors : ∀ factor ∈ factors, factor.Settled types)
    (h : productValue n place left factors = .ok e) : e.Settled types := by
  induction factors generalizing place left with
  | nil => exact Except.ok.inj h ▸ hleft
  | cons factor rest ih =>
      obtain ⟨hfactor, hrest⟩ := List.forall_mem_cons.1 hfactors
      obtain ⟨value, hvalue, h⟩ := bind_eq_ok_iff.1 h
      exact ih (.binary hleft (settled_of_factorValue hfactor hvalue)) hrest h

theorem settled_of_termValue {n : Nest α} {e : Expr α}
    (hfactors : ∀ factor ∈ t.factors, factor.Settled types) (h : c.termValue n t = .ok e) :
    e.Settled types := by
  unfold termValue at h
  split at h
  · cases h
  · next factor rest heq =>
      rw [heq] at hfactors
      obtain ⟨hfactor, hrest⟩ := List.forall_mem_cons.1 hfactors
      obtain ⟨first, hfirst, h⟩ := bind_eq_ok_iff.1 h
      obtain ⟨product, hproduct, h⟩ := bind_eq_ok_iff.1 h
      have hsettled :=
        settled_of_productValue (settled_of_factorValue hfactor hfirst) hrest hproduct
      split at h
      · exact Except.ok.inj h ▸ .neg hsettled
      · exact Except.ok.inj h ▸ hsettled

theorem settled_of_lowerTerms {names names' : Nat} {checked : List (Term α × List IndexVar)}
    {nests : List (Stmt α)} (htarget : types c.target = some c.type)
    (hfree : c.free.length = c.type.rank)
    (hfactors : ∀ entry ∈ checked, ∀ factor ∈ entry.1.factors, factor.Settled types)
    (h : c.lowerTerms names checked = .ok (names', nests)) : ∀ s ∈ nests, s.Settled types := by
  induction checked generalizing names nests with
  | nil =>
      obtain ⟨rfl, rfl⟩ := Prod.mk.inj (Except.ok.inj h)
      exact fun _ hs => absurd hs List.not_mem_nil
  | cons entry rest ih =>
      obtain ⟨hentry, hrest⟩ := List.forall_mem_cons.1 hfactors
      obtain ⟨⟨middle, s⟩, hs, h⟩ := bind_eq_ok_iff.1 h
      obtain ⟨⟨last, nests'⟩, hnests, h⟩ := bind_eq_ok_iff.1 h
      obtain ⟨rfl, rfl⟩ := Prod.mk.inj (Except.ok.inj h)
      obtain ⟨outer, position, n, value, indices, houter, hn, hvalue, hindices, _, rfl⟩ :=
        lowerTerm_eq_ok hs
      obtain ⟨hlength, hindices⟩ := Nest.settled_of_indices hindices
      have hwrite : Stmt.Settled types (.tensorWrite c.target indices position value true) :=
        .tensorWrite htarget (hlength.trans hfree) hindices (settled_of_termValue hentry hvalue)
      exact List.forall_mem_cons.2
        ⟨(generated_of_lowerTerm houter hn).settled_wrap hwrite, ih hrest hnests⟩

/-! ## Checks -/

variable {scope : TypeScope α}

/-- The check of a term, that of its mask included, leaves factors that are typed. -/
theorem yields_checkTerm (c : Contraction) (scope : TypeScope α) (t : Term α) :
    (c.checkTerm scope t).Yields fun _ => ∀ factor ∈ t.factors, Typed scope factor := by
  refine ⟨?_, fun bound h => ?_⟩
  · refine (c.onlyChecks_checkFactors ..).configuration.bind fun (seen, product) _ => ?_
    cases product with
    | none => exact (c.onlyChecks_malformed _).configuration
    | some block =>
        refine (avoids_failIf _ rfl).bind fun _ _ => ?_
        refine (avoids_forM fun i _ => (c.onlyChecks_checkFree seen i).configuration).bind
          fun _ _ => ?_
        refine (c.onlyChecks_summed _).configuration.bind fun bound _ => ?_
        split
        · refine Avoids.bind ?_ fun _ _ => avoids_ok bound
          unfold checkMask
          dsimp only
          split
          · exact avoids_ok ()
          · exact avoids_fail rfl
        · exact avoids_ok bound
  · obtain ⟨_, hfactors, _⟩ := bind_eq_ok_iff.1 h
    exact (counted_of_checkFactors hfactors
      (show Counted Table.empty [] from ⟨rfl, List.nodup_nil⟩)).1

theorem yields_checkTerms (c : Contraction) (scope : TypeScope α) (terms : List (Term α)) :
    (c.checkTerms scope terms).Yields fun checked =>
      ∀ entry ∈ checked, entry.1 ∈ terms ∧ ∀ factor ∈ entry.1.factors, Typed scope factor := by
  induction terms with
  | nil => exact yields_ok fun _ hentry => absurd hentry List.not_mem_nil
  | cons t rest ih =>
      refine (c.yields_checkTerm scope t).bind fun bound ht => ih.bind fun checked hchecked => ?_
      refine yields_ok (List.forall_mem_cons.2 ⟨⟨List.mem_cons_self .., ht⟩, ?_⟩)
      intro entry hentry
      exact ⟨List.mem_cons_of_mem _ (hchecked entry hentry).1, (hchecked entry hentry).2⟩

end Contraction

/-! ## The second pass -/

namespace Func

variable [Scalar α] {f : Func α} {storages : Storages}

/-- The assignment of an index expression becomes settled statements. -/
theorem yields_lowerContraction (hdescribed : storages.Describe f.tensorType?) (names : Nat)
    (target : VarName) (free : List IndexVar) {body : Expr α} (h : body.Typable f.tensorType?) :
    (f.lowerContraction storages names target free body).Yields fun (_, out) =>
      ∀ s ∈ out, s.Settled f.tensorType? := by
  refine ((TypeScope.ofFunc f).onlyChecks_tensor target).yields.bind fun type htype => ?_
  have htype : f.tensorType? target = some type :=
    tensorType?_of_varType? (Contraction.tensor_of_ofFunc htype)
  obtain ⟨storage, hstorage, _⟩ := hdescribed target type htype
  rw [hstorage]
  refine (yields_ok (P := (· = storage)) rfl).bind fun _ h => ?_
  obtain rfl := h
  dsimp only
  split
  · exact yields_fail rfl
  · next hfree =>
      refine (Contraction.onlyChecks_checkDestination ..).yields.bind fun _ _ => ?_
      refine body.onlyChecks_terms.yields.bind fun terms hterms => ?_
      refine (Contraction.yields_checkTerms ..).bind fun checked hchecked => ?_
      refine (Contraction.onlyChecks_lowerTerms ..).yields.bind fun (names', nests) hnests => ?_
      have hexpands := body.expands_of_terms (ofExcept_eq_ok_iff.1 hterms)
      refine yields_ok (List.forall_mem_cons.2 ⟨.zero htype, ?_⟩)
      refine Contraction.settled_of_lowerTerms htype (not_not.1 hfree) ?_ hnests
      intro entry hentry
      obtain ⟨hterm, htyped⟩ := hchecked entry hentry
      intro factor hfactor
      have hsettled := Contraction.settled_of_typed (htyped factor hfactor) fun value heq =>
        hexpands.typable h entry.1 hterm value (heq ▸ hfactor)
      exact hsettled

/-- **The second pass** leaves settled statements. -/
theorem yields_lowerIndexExpressionsFrom (hdescribed : storages.Describe f.tensorType?)
    {body : List (Stmt α)} (h : ∀ s ∈ body, s.Contractible f.tensorType?) (names : Nat) :
    (f.lowerIndexExpressionsFrom storages names body).Yields fun out =>
      ∀ s ∈ out, s.Settled f.tensorType? := by
  induction body generalizing names with
  | nil => exact yields_ok fun _ hs => absurd hs List.not_mem_nil
  | cons s rest ih =>
      obtain ⟨hs, hrest⟩ := List.forall_mem_cons.1 h
      unfold lowerIndexExpressionsFrom
      split
      · contradiction
      · next target free body rest' heq =>
          cases heq
          cases hs with
          | contraction hbody =>
              refine (yields_lowerContraction hdescribed _ target free hbody).bind
                fun (names', out) hout => ?_
              refine (ih hrest _).bind fun out' hout' => yields_ok fun s hs => ?_
              rcases List.mem_append.1 hs with hs | hs
              · exact hout s hs
              · exact hout' s hs
          | stray hstray _ => cases hstray
          | settled hsettled =>
              cases hsettled with
              | assign hvalue => cases hvalue
      · next hother heq =>
          cases heq
          cases hs with
          | contraction => exact absurd rfl (hother _ _ _)
          | stray _ hform =>
              rw [hform]
              exact yields_fail rfl
          | settled hsettled =>
              refine (OnlyChecks.yields (avoids_failIf _ rfl)).bind fun _ _ => ?_
              exact (ih hrest _).bind fun out hout =>
                yields_ok (List.forall_mem_cons.2 ⟨hsettled, hout⟩)

/-! ## Lowering -/

/-- **Errors lie in the program.** Lowering a program in order does not end in an error that says
    that a descriptor is missing or that a pass has left something over. -/
theorem configuration_of_lower (hf : f.InOrder) (options : LowerOptions) {cause : LowerError}
    (h : f.lower options = .error (.error cause)) : cause.isConfiguration = true := by
  have hyields : (f.lower options).Yields fun _ => True := by
    refine (yields_inferStorage hf.distinct).bind fun storages hdescribed => ?_
    refine Yields.bind (P := fun g => ∃ body, g = f.withBody body ∧
      ∀ s ∈ body, s.Contractible f.tensorType?) ?_ ?_
    · exact (yields_lowerAssembliesFrom hdescribed hf.body []).bind fun body hbody =>
        yields_ok ⟨body, rfl, hbody⟩
    rintro _ ⟨assembled, rfl, hassembled⟩
    refine Yields.bind (P := fun g => ∃ body, g = f.withBody body ∧
      ∀ s ∈ body, s.Settled f.tensorType?) ?_ ?_
    · exact (yields_lowerIndexExpressionsFrom (f := f.withBody assembled) hdescribed hassembled
        0).bind fun body hbody => yields_ok ⟨body, rfl, hbody⟩
    rintro _ ⟨contracted, rfl, hcontracted⟩
    exact (yields_lowerAccesses (f := f.withBody contracted) hdescribed hcontracted _).bind
      fun _ _ => yields_ok trivial
  have hcause := hyields.configuration.error cause h
  simpa using hcause

end Func

/-- A matrix over edges is applied to a field, and the product is to be solved with a number instead
    of a matrix. The program is in order, and the last pass finds the error in it. -/
theorem numberForMatrix_configuration :
    let i : IndexVar := ⟨"i", .set "V"⟩
    let j : IndexVar := ⟨"j", .set "V"⟩
    let f := (Func.named "f").withSet ((SetDecl.plain "V").withField "x" (.float .scalar))
      |>.withSet (.relation "E" "V" 2)
      |>.withLocal "A" (.matrix "V" "V" .scalar)
      |>.withLocal "w" ⟨[], .scalar⟩
      |>.withLocal "b" (.vector "V" .scalar)
      |>.withResult "x" (.vector "V" .scalar)
      |>.withAssembly ["A"] "E" (fun k =>
        [.contribute "A" [k.endpointExpr 0, k.endpointExpr 1] (.literal (.float (1 : Float)))])
      |>.withStmt (.assign "x" (.field "V" "x"))
      |>.withStmt (.assign "b"
        (.index [i] (.binary .mul (.indexed ⟨"A", [i, j]⟩) (.indexed ⟨"x", [j]⟩))))
      |>.withStmt (.solve (.direct ⟨"w", "b", "x", none⟩))
    f.InOrder ∧
      ∃ cause, f.lower .standard = .error (.error cause) ∧ cause.isConfiguration = true := by
  intro i j f
  have hinOrder : f.InOrder := by
    refine ⟨by unfold Func.DistinctNames; decide, ?_⟩
    refine List.forall_mem_cons.2 ⟨.assemble _ _ _ _, List.forall_mem_cons.2
      ⟨.contractible (.settled (.assign (.field _ _))), List.forall_mem_cons.2
        ⟨.contractible (.contraction (.binary (.indexed _) (.indexed _))),
          List.forall_mem_singleton.2 (.contractible (.settled (.solve ?_)))⟩⟩⟩
    decide
  obtain ⟨cause, hcause, rfl⟩ : ∃ cause, f.lower .standard = .error cause ∧
      cause = .error (.unsupportedConstruct (.registerMatrix "w")) := by
    decide +kernel
  exact ⟨hinOrder, _, hcause, Func.configuration_of_lower hinOrder .standard hcause⟩

/-- An assembly in a loop is refused, but only where the loop stands by itself: in a loop inside of
    another one it comes to the last pass. Nor does anything ask whether the operands of a solve are
    declared before that pass looks for their descriptors. -/
theorem deepAssembly_unlowered :
    let range (body : Stmt Float) : Stmt Float := .loop (.range "i" (.dense 1)) [body]
    let contribution : Stmt Float := .contribute "y" [.var "V.e"] (.literal (.float 1))
    let assembly : Stmt Float := .assemble ["y"] "V" ⟨⟨"V.e", .element "V"⟩, none⟩ [contribution]
    let solve : Stmt Float := .solve (.direct ⟨"A", "b", "y", none⟩)
    let f (s : Stmt Float) := (Func.named "f").withSet (.plain "V")
      |>.withLocal "A" (.matrix "V" "V" .scalar)
      |>.withResult "y" (.vector "V" .scalar)
      |>.withStmt s
    (∃ e, (f (range assembly)).lower .standard = .error e ∧
      e = .error (.unsupportedConstruct .nestedAssembly)) ∧
    (∃ e, (f (range (range assembly))).lower .standard = .error e ∧
      e = .error (.unloweredAccess .assemblyReached)) ∧
    ∃ e, (f solve).lower .standard = .error e ∧ e = .error (.missingStorage "b") := by
  decide +kernel

end GraphTensor
