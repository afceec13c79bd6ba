import GraphTensor.Proofs.Lowering.Groups
import GraphTensor.Proofs.Lowering.Kernels
import GraphTensor.Proofs.Machine.Start
import GraphTensor.Proofs.Word
set_option autoImplicit false

/-! # Elements of an assembly

A kernel runs for one element after another. The loop binds the element, as a signed word; the roles
of the kernel's writes stand for the element and its endpoints (`Resolution.StandsFor`).

`KernelContext.Runs` is what a run knows of an assembly: the relation has its topology, the targets
their buffers, and the patterns are those that their references stand for. The lemmas on kernels
take this as their setting. -/

namespace GraphTensor

variable {α : Type}

/-- The index that a role stands for at an element of a set. -/
def Resolution.StandsFor (r : Resolution) (set : SetName) (e : Nat) : IndexRole → Nat → Prop
  | .element, i => i = e
  | .endpoint slot, i =>
      ∃ t, r.topology set = .ok t ∧ e < t.size ∧ (t.endpoints e)[slot]? = some i

namespace Machine

theorem asIndex_eq_ok {place : Place} {length e n : Nat}
    (h : (Value.ofCount e : Value α).asIndex place length = .ok n) :
    SignedWord.ofCount e = n ∧ n < length := by
  obtain ⟨k, hk, h⟩ := Outcome.bind_eq_ok_iff.1 h
  obtain rfl : SignedWord.ofCount e = k := Except.ok.inj hk
  split at h
  · next hin =>
      obtain rfl := Except.ok.inj h
      omega
  · cases h

variable [Scalar α] {m : Machine α} {mem : Memory α}

/-- What stands for a role comes to the index that it stands for. The element is read as a signed
    word. -/
theorem eval_roleExpr {c : KernelContext} {e : Nat} (role : IndexRole) {v : Value α}
    (helement : mem.locals.get? c.kernel.element.name = some (.ofCount e))
    (h : m.eval mem (role.expr c) = .ok v) :
    match role with
    | .element => v = .ofCount e
    | .endpoint slot => ∃ e' i : Nat, SignedWord.ofCount e = e' ∧ v = .ofCount i ∧
        m.resolution.StandsFor c.set.name e' (.endpoint slot) i := by
  have hread : m.eval mem (c.element : Expr α) = .ok (.ofCount e) := by
    rw [KernelContext.element, eval, Memory.read, helement]
  cases role with
  | element =>
      rw [IndexRole.expr, hread] at h
      cases h
      rfl
  | endpoint slot =>
      rw [IndexRole.expr, eval] at h
      obtain ⟨t, ht, h⟩ := Outcome.bind_eq_ok_iff.1 h
      obtain ⟨element, hvalue, h⟩ := Outcome.bind_eq_ok_iff.1 h
      obtain rfl : Value.ofCount e = element := Except.ok.inj (hread.symm.trans hvalue)
      obtain ⟨e', he', h⟩ := Outcome.bind_eq_ok_iff.1 h
      obtain ⟨heq, hlt⟩ := asIndex_eq_ok he'
      obtain ⟨found, hfound, h⟩ := Outcome.bind_eq_ok_iff.1 h
      obtain ⟨i, hi, h⟩ := Outcome.bind_eq_ok_iff.1 h
      obtain rfl := Except.ok.inj h
      rw [Outcome.orFail_eq_ok_iff.1 hi] at hfound
      exact ⟨e', i, heq, rfl, t, ht, hlt, Topology.getElem?_endpoints_of_endpoint hfound⟩

end Machine

/-! ## Kernels -/

/-- The local that a statement binds or adds to. -/
def Stmt.boundName? : Stmt α → Option VarName
  | assign var _ => some var
  | accumulate var _ => some var
  | _ => none

namespace KernelVars

/-- No statement of a kernel binds the kernel's own variables anew. -/
def KeptBy (k : KernelVars) (body : List (Stmt α)) : Prop :=
  ∀ s ∈ body, ∀ name, s.boundName? = some name →
    name ≠ k.element.name ∧ ∀ ep, k.endpoints = some ep → name ≠ ep.name

end KernelVars

theorem Func.name_of_set? {f : Func α} {set : SetName} {decl : SetDecl}
    (h : f.set? set = some decl) : decl.name = set ∧ decl ∈ f.sets.decls := by
  have hmem := Table.find?_eq_some_mem h
  exact ⟨f.sets.named _ hmem, List.mem_map.2 ⟨_, hmem, rfl⟩⟩

namespace KernelContext

variable [Scalar α]

/-- What a run knows of an assembly that has been lowered against inferred descriptors. -/
structure Runs (c : KernelContext) (f : Func α) (m : Machine α) (n : Nat) : Prop where
  /-- The descriptors suit the tensors. -/
  suits : ∀ var s, c.storages.get? var = some s →
    ∃ type, f.varType? var = some (.tensor type) ∧ s.Suits f var type
  /-- The machine runs a function with the same variables. -/
  types : ∀ var, m.func.varType? var = f.varType? var
  /-- The function declares the set. -/
  declared : f.set? c.set.name = some c.set
  /-- The topologies fit the sizes. -/
  topologies : m.resolution.TopologiesFit
  /-- The patterns resolved beforehand are those that their references stand for. -/
  patterns : m.resolution.PatternsFit
  /-- The set has its topology, if it is a relation. -/
  made : ∀ ep, c.set.endpoints = some ep →
    ∃ t, m.resolution.topology c.set.name = .ok t ∧ t.endpointSet = ep.set
  /-- The number of elements of the set. -/
  size : m.resolution.sizes.get? c.set.name = some n

/-- What a run knows of an assembly whose function has been lowered against inferred descriptors. -/
theorem runs_of_machine {f : Func α} {seed storages : Storages}
    {l : LoweredFunc α} {b : Bindings α} {config : SolverConfig α} {m : Machine α}
    (hdistinct : f.DistinctNames) (hstorages : f.inferStorageWith seed = .ok storages)
    {body : List (Stmt α)} (hl : l = ⟨f.withBody body, storages⟩)
    (hmachine : l.machine b config = .ok m) {decl : SetDecl}
    (hdecl : f.set? decl.name = some decl) (targets : List VarName) (kernel : KernelVars) :
    ∃ n, (KernelContext.mk storages targets decl kernel).Runs f m n := by
  obtain ⟨hfunc, _, _, _, hfits⟩ := LoweredFunc.machine_spec hmachine
  subst hl
  have hmem := (Func.name_of_set? hdecl).2
  obtain ⟨n, hn⟩ := Option.isSome_iff_exists.1 (hfits.declared decl hmem)
  refine ⟨n, fun var s hs => ?_, fun var => ?_, hdecl, hfits.topologies, hfits.patterns, ?_, hn⟩
  · obtain ⟨type, htype, hsuits⟩ := Func.suits_of_inferStorageWith hstorages hs
    rw [Func.tensors_get? hdistinct] at htype
    refine ⟨type, ?_, hsuits⟩
    obtain ⟨value, hvalue, htensor⟩ := Option.bind_eq_some_iff.1 htype
    cases value <;> cases htensor
    exact hvalue
  · rw [hfunc]
    rfl
  · intro ep hep
    obtain ⟨t, ht, hmade⟩ := hfits.made decl hmem ep hep
    exact ⟨t, Resolution.topology_eq_ok_iff.2 ht, hmade.1⟩

end KernelContext

end GraphTensor
