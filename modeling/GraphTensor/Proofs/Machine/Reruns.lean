import GraphTensor.Proofs.Lowering.Runs
import GraphTensor.Proofs.Machine.Commits
set_option autoImplicit false

/-! # Running again on what a run left

A write of a field checks that the tensor has a block for each element of the set, but not that its
block is the one that the field declares. The bindings that a run leaves suit the function again
just if the last write of every declared field has the declared block (`Func.Takes`); where all
writes of a lowered function copy tensors with the declared blocks (`LoweredFunc.WritesFit`), it can
be run any number of times.

That the written tensors have the blocks of their descriptors is known at entry (`Memory.BlocksFit`)
and kept by every statement, because layouts are. -/

namespace GraphTensor

variable {α : Type}

/-- The last of some updates of each declared field has the declared type. -/
def Func.Takes (f : Func α) (updates : List (FieldUpdate α)) : Prop :=
  ∀ decl ∈ f.sets.decls, ∀ entry ∈ decl.fields.entries, ∀ update,
    FieldUpdate.last? updates decl.name entry.1 = some update →
      update.values.kind = entry.2.kind

/-- The field that a statement writes, and the tensor that it copies. -/
def Stmt.fieldWrite? : Stmt α → Option (SetName × FieldName × VarName)
  | .fieldWrite set field var => some (set, field, var)
  | _ => none

/-- Every write of a declared field copies a tensor whose block is the declared one. -/
def LoweredFunc.WritesFit (l : LoweredFunc α) : Prop :=
  ∀ write ∈ (Stmt.substmtsOfList l.func.body).filterMap Stmt.fieldWrite?,
    ∀ decl ∈ l.func.sets.decls, decl.name = write.1 →
      ∀ entry ∈ decl.fields.entries, entry.1 = write.2.1 →
        (l.storages.get? write.2.2).map (fun s => FieldType.float s.block) = some entry.2

instance (l : LoweredFunc α) : Decidable l.WritesFit :=
  inferInstanceAs (Decidable (∀ write ∈ _, ∀ decl ∈ _, _ → ∀ entry ∈ _, _ → _ = some _))

/-- A run that succeeds leads from bindings to those that it leaves. -/
def LoweredFunc.Leads [Scalar α] (l : LoweredFunc α) (b b' : Bindings α) : Prop :=
  ∃ config results, l.execute b config = (b', .ok results)

/-! ## Bindings after updates -/

namespace Bindings

variable {b b' : Bindings α} {f : Func α} {updates : List (FieldUpdate α)}

/-- Updates with a value for each element of their sets leave bindings that suit a function just if
    they are of the declared types. -/
theorem Committed.check_iff (h : b.Committed updates b') (hcheck : b.check f = .ok ())
    (hcovers : ∀ update ∈ updates, ∃ data, b.set update.set = .ok data ∧
      update.values.covers data.size = .ok true) :
    b'.check f = .ok () ↔ f.Takes updates := by
  obtain ⟨hsets, hparams⟩ := check_eq_ok_iff.1 hcheck
  constructor
  · intro hcheck' decl hdecl entry hentry update hlast
    obtain ⟨data, hsuits⟩ := (check_eq_ok_iff.1 hcheck').1 decl hdecl
    have hfield : b'.field decl.name entry.1 = .ok update.values := by
      rw [h.fields, hlast]
    exact (hsuits.fields entry hentry update.values hfield).1
  · intro htakes
    refine check_eq_ok_iff.2 ⟨fun decl hdecl => ?_, fun p hp => ?_⟩
    · obtain ⟨data, hsuits⟩ := hsets decl hdecl
      obtain ⟨data', hdata', hsize, hendpoints⟩ := h.set_eq_ok hsuits.bound
      refine ⟨data', hdata', ?_, fun entry hentry values hvalues => ?_⟩
      · rw [checkEndpoints, hendpoints]
        exact hsuits.endpoints
      · rw [hsize]
        rw [h.fields] at hvalues
        cases hlast : FieldUpdate.last? updates decl.name entry.1 with
        | some update =>
            rw [hlast] at hvalues
            obtain rfl := Except.ok.inj hvalues
            obtain ⟨hmem, hset, _⟩ := FieldUpdate.last?_eq_some hlast
            obtain ⟨found, hfound, hfull⟩ := hcovers update hmem
            rw [hset, hsuits.bound] at hfound
            obtain rfl := Except.ok.inj hfound
            exact ⟨htakes decl hdecl entry hentry update hlast, hfull⟩
        | none =>
            rw [hlast] at hvalues
            exact hsuits.fields entry hentry values hvalues
    · obtain ⟨value, hvalue⟩ := hparams p hp
      refine ⟨value, ?_⟩
      rw [param, h.params]
      exact hvalue

end Bindings

/-! ## Blocks of buffers -/

section

variable [Scalar α] {m : Machine α} {storages : Storages} {mem mem' : Memory α}

/-- Every buffer has the block of its descriptor. -/
def Memory.BlocksFit (storages : Storages) (mem : Memory α) : Prop :=
  ∀ var buffer, mem.buffers.get? var = some buffer →
    ∃ s, storages.get? var = some s ∧ buffer.block = s.block

theorem Machine.block_of_allocate {dims : List IndexDomain} {s : TensorStorage} {b : Buffer α}
    (h : m.allocate dims s = .ok b) : b.block = s.block := by
  unfold allocate at h
  split at h
  · obtain ⟨size, _, h⟩ := Outcome.bind_eq_ok_iff.1 h
    obtain ⟨cells, _, h⟩ := Outcome.bind_eq_ok_iff.1 h
    obtain rfl := Except.ok.inj h
    rfl
  · obtain ⟨q, _, h⟩ := Outcome.bind_eq_ok_iff.1 h
    obtain ⟨matrix, hmatrix, h⟩ := Outcome.bind_eq_ok_iff.1 h
    obtain rfl := Except.ok.inj h
    obtain ⟨count, _, hmatrix⟩ := Option.bind_eq_some_iff.1 (Outcome.orAbort_eq_ok_iff.1 hmatrix)
    obtain ⟨cells, _, hmatrix⟩ := Option.bind_eq_some_iff.1 hmatrix
    obtain rfl := Option.some.inj hmatrix
    rfl
  · obtain ⟨block, hblock, h⟩ := Outcome.bind_eq_ok_iff.1 h
    obtain rfl := Except.ok.inj h
    obtain ⟨cells, _, rfl⟩ := Option.map_eq_some_iff.1 (Outcome.orAbort_eq_ok_iff.1 hblock)
    rfl

theorem Machine.blocksFit_start (h : m.start storages = .ok mem) : mem.BlocksFit storages := by
  obtain ⟨params, hparams, h⟩ := Outcome.bind_eq_ok_iff.1 h
  obtain ⟨_, _, hnone⟩ := addParams_spec hparams
  refine Except.foldlM_invariant (P := fun mem : Memory α => mem.BlocksFit storages)
    (fun mem var next hmem hnext => ?_) (fun var buffer hbuffer => ?_) h
  · rcases addBuffer_spec hnext with ⟨_, rfl⟩ | ⟨type, s, b, _, hs, hb, rfl⟩
    · exact hmem
    · intro other buffer hbuffer
      rw [Memory.withBuffer, Table.get?_insert] at hbuffer
      by_cases heq : var.name = other
      · rw [if_pos (by simpa using heq)] at hbuffer
        obtain rfl := Option.some.inj hbuffer
        exact ⟨s, heq ▸ hs, block_of_allocate hb⟩
      · rw [if_neg (by simpa using heq)] at hbuffer
        exact hmem other buffer hbuffer
  · rw [hnone] at hbuffer
    cases hbuffer

omit [Scalar α] in
theorem Memory.BlocksFit.changes {stored bound : List VarName} (h : mem.BlocksFit storages)
    (hchanges : mem.Changes stored bound mem') : mem'.BlocksFit storages := by
  intro var buffer hbuffer
  cases hbefore : mem.buffers.get? var with
  | none =>
      rw [hchanges.buffer_none hbefore] at hbuffer
      cases hbuffer
  | some before =>
      obtain ⟨s, hs, hblock⟩ := h var before hbefore
      obtain ⟨after, hafter, hlayout⟩ := hchanges.sameLayout hbefore
      obtain rfl := Option.some.inj (hbuffer.symm.trans hafter)
      exact ⟨s, hs, hlayout.block_eq.trans hblock⟩

/-! ## Runs -/

namespace LoweredFunc

variable {l : LoweredFunc α} {b b' : Bindings α} {config : SolverConfig α} {results : Results α}
  {updates : List (FieldUpdate α)}

theorem check_execute_iff (h : l.compute b config = .ok (results, updates)) :
    (l.execute b config).1.check l.func = .ok () ↔ l.func.Takes updates := by
  obtain ⟨b', m, start, mem, hexecute, hm, _, hmem, _, rfl, hcommitted⟩ := execute_of_compute h
  obtain ⟨_, _, _, hcheck, hfits⟩ := machine_spec hm
  rw [hexecute]
  refine hcommitted.check_iff hcheck fun update hupdate => ?_
  obtain ⟨_, _, _, _, _, data, _, _, _, _, hdata, hcovers⟩ := Machine.noted_spec hfits hmem hupdate
  exact ⟨data, hdata, hcovers⟩

/-- Writes that copy tensors with the declared blocks note updates of the declared types. -/
theorem takes_of_writesFit (hfit : l.WritesFit) (h : l.compute b config = .ok (results, updates)) :
    l.func.Takes updates := by
  intro decl hdecl entry hentry update hlast
  obtain ⟨b', m, start, mem, _, hm, hstart, hmem, _, rfl, _⟩ := execute_of_compute h
  obtain ⟨_, _, _, _, hfits⟩ := machine_spec hm
  obtain ⟨hnoted, hset, hfield⟩ := FieldUpdate.last?_eq_some hlast
  obtain ⟨_, var, mem₁, block, values, _, hwrite, hchanges, hbuffer, hvalues, _, _⟩ :=
    Machine.noted_spec hfits hmem hnoted
  -- the tensor has the block of its descriptor all along
  obtain ⟨s, hs, hblock⟩ := (Machine.blocksFit_start hstart).changes hchanges var _ hbuffer
  have hmatch := hfit (update.set, update.field, var)
    (List.mem_filterMap.2 ⟨_, hwrite, rfl⟩) decl hdecl hset.symm entry hentry hfield.symm
  rw [hs, Option.map_some, Option.some.injEq] at hmatch
  rw [hvalues, ← hmatch, ← hblock]
  rfl

theorem Leads.check_eq_ok (hleads : l.Leads b b') (hfit : l.WritesFit) :
    b'.check l.func = .ok () := by
  obtain ⟨config, results, hexecute⟩ := hleads
  obtain ⟨updates, hcompute⟩ := compute_of_execute (congrArg Prod.snd hexecute)
  have hcheck := (check_execute_iff hcompute).2 (takes_of_writesFit hfit hcompute)
  rwa [hexecute] at hcheck

end LoweredFunc

/-- **Running again.** A run of a lowered function leaves bindings that suit the function just if the
    last write of each declared field has the declared block. If every write copies a tensor with the
    declared block, this is so after any number of runs. -/
theorem Func.check_of_reruns {f : Func α} {options : LowerOptions} {l : LoweredFunc α}
    {b : Bindings α} (hlower : f.lower options = .ok l) (hcheck : b.check f = .ok ()) :
    (∀ config results updates, l.compute b config = .ok (results, updates) →
      ((l.execute b config).1.check f = .ok () ↔ f.Takes updates)) ∧
      (l.WritesFit → ∀ b', Relation.ReflTransGen l.Leads b b' → b'.check f = .ok ()) := by
  have hfunc := func_of_lower hlower
  have hsame : ∀ b : Bindings α, b.check l.func = b.check f := by
    intro b
    rw [hfunc]
    rfl
  have htakes : ∀ updates, l.func.Takes updates ↔ f.Takes updates := by
    intro updates
    rw [hfunc]
    rfl
  refine ⟨fun config results updates h => ?_, fun hfit b' hruns => ?_⟩
  · rw [← hsame, ← htakes]
    exact LoweredFunc.check_execute_iff h
  · induction hruns with
    | refl => exact hcheck
    | tail _ hleads _ =>
        rw [← hsame]
        exact hleads.check_eq_ok hfit

/-- Fields that have been exchanged can be exchanged back, and the set can be run on again. -/
theorem fieldExchange_runs_again :
    ∃ l b', FieldExchange.func.lower .standard = .ok l ∧
      Relation.ReflTransGen l.Leads FieldExchange.bindings b' ∧
      b'.field "V" "x" = .ok (.float .scalar #[1, 2]) ∧ b'.check FieldExchange.func = .ok () := by
  obtain ⟨l, hlower, _, hcheck, hfit, results, hfirst, again, hsecond, _, hx, rfl⟩ :
      ∃ l, FieldExchange.func.lower .standard = .ok l ∧
        ∃ checked, FieldExchange.bindings.check FieldExchange.func = .ok checked ∧ l.WritesFit ∧
          ∃ results, (l.execute FieldExchange.bindings ⟨.lu, 0⟩).2 = .ok results ∧
            ∃ again, (l.execute (l.execute FieldExchange.bindings ⟨.lu, 0⟩).1 ⟨.lu, 0⟩).2 =
                .ok again ∧
              ∃ x, (l.execute (l.execute FieldExchange.bindings ⟨.lu, 0⟩).1 ⟨.lu, 0⟩).1.field
                  "V" "x" = .ok x ∧
                x = .float .scalar #[1, 2] := by
    decide +kernel
  have hruns : Relation.ReflTransGen l.Leads FieldExchange.bindings
      (l.execute (l.execute FieldExchange.bindings ⟨.lu, 0⟩).1 ⟨.lu, 0⟩).1 :=
    .tail (.single ⟨⟨.lu, 0⟩, results, Prod.ext rfl hfirst⟩)
      ⟨⟨.lu, 0⟩, again, Prod.ext rfl hsecond⟩
  obtain ⟨_, hfits⟩ := Func.check_of_reruns hlower hcheck
  exact ⟨l, _, hlower, hruns, hx, hfits hfit _ hruns⟩

/-! ### A vector written into a field of numbers -/

namespace WideWrite

/-- A tensor with two numbers for each vertex is copied into a field with one. -/
def func : Func ℚ :=
  (Func.named "f").withSet ((SetDecl.plain "V").withField "x" (.float .scalar))
    |>.withResult "y" (.vector "V" (.vector 2))
    |>.withStmt (.fieldWrite "V" "x" "y")

/-- One vertex with one number. -/
def bindings : Bindings ℚ :=
  Bindings.empty.withSet "V" ((SetData.plain 1).withScalars "x" #[1])

end WideWrite

/-- A tensor with wider blocks than a field is copied into it all the same, and the bindings that the
    run leaves do not suit the function any more. -/
theorem wideWrite_fails_check :
    ∃ l results, WideWrite.func.lower .standard = .ok l ∧
      WideWrite.bindings.check WideWrite.func = .ok () ∧
      (l.execute WideWrite.bindings ⟨.lu, 0⟩).2 = .ok results ∧
      (l.execute WideWrite.bindings ⟨.lu, 0⟩).1.check WideWrite.func ≠ .ok () := by
  obtain ⟨l, hlower, _, hcheck, results, hexecute, hfails⟩ :
      ∃ l, WideWrite.func.lower .standard = .ok l ∧
        ∃ checked, WideWrite.bindings.check WideWrite.func = .ok checked ∧
          ∃ results, (l.execute WideWrite.bindings ⟨.lu, 0⟩).2 = .ok results ∧
            ¬ ∃ checked, (l.execute WideWrite.bindings ⟨.lu, 0⟩).1.check WideWrite.func =
              .ok checked ∧ True := by
    decide +kernel
  exact ⟨l, results, hlower, hcheck, hexecute, fun hok => hfails ⟨(), hok, trivial⟩⟩

end

end GraphTensor
