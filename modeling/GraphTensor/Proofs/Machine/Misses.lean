import GraphTensor.Proofs.Machine.Changes
set_option autoImplicit false

/-! # Where a write can miss its pattern

Of all the parts of a run only a sparse store can end in a write that misses its pattern
(`RunError.isMiss`), and only because the search for its position has found nothing. Evaluating an
expression never does, nor does an assignment or a dense store.

`Ran.NeverMisses` is kept by binding one computation to the next, so each function of the machine
has a lemma that follows its definition; only the check of a sparse store stands out. -/

namespace GraphTensor

/-- An error is that of a sparse write that misses its pattern. -/
def RunError.isMiss : RunError → Bool
  | sparseWriteMiss _ => true
  | _ => false

namespace Ran

variable {β γ : Type}

/-- A computation does not end in a sparse write that misses its pattern. -/
structure NeverMisses (o : Ran β) : Prop where
  /-- No buffer is missed. -/
  ne_miss : ∀ var, o ≠ .error (.error (.sparseWriteMiss var))

theorem neverMisses_iff {o : Ran β} : NeverMisses o ↔ o.Avoids RunError.isMiss := by
  refine ⟨fun h => ⟨fun cause hcause => ?_⟩, fun h => ⟨fun var hmiss => nomatch h.error _ hmiss⟩⟩
  cases cause with
  | sparseWriteMiss var => exact absurd hcause (h.ne_miss var)
  | _ => rfl

theorem neverMisses_ok (b : β) : NeverMisses (.ok b) :=
  neverMisses_iff.2 (Outcome.avoids_ok b)

theorem neverMisses_fail {cause : RunError} (hcause : cause.isMiss = false) :
    NeverMisses (.error (.error cause) : Ran β) :=
  neverMisses_iff.2 (Outcome.avoids_fail hcause)

theorem NeverMisses.bind {o : Ran β} {g : β → Ran γ} (ho : NeverMisses o)
    (hg : ∀ b, o = .ok b → NeverMisses (g b)) : NeverMisses (o >>= g) :=
  neverMisses_iff.2 ((neverMisses_iff.1 ho).bind fun b hb => neverMisses_iff.1 (hg b hb))

theorem NeverMisses.map {o : Ran β} (ho : NeverMisses o) (g : β → γ) :
    NeverMisses (o.map g) :=
  neverMisses_iff.2 ((neverMisses_iff.1 ho).map g)

theorem neverMisses_orAbort (o : Option β) : NeverMisses (Outcome.orAbort o) :=
  neverMisses_iff.2 (Outcome.avoids_orAbort o)

theorem neverMisses_orFail {cause : RunError} (o : Option β)
    (hcause : cause.isMiss = false) : NeverMisses (Outcome.orFail cause o) :=
  neverMisses_iff.2 (Outcome.avoids_orFail o hcause)

theorem neverMisses_mismatch {place : Place} {expected found : Quality} :
    NeverMisses (Ran.mismatch place expected found : Ran β) :=
  neverMisses_fail rfl

theorem neverMisses_failIf {cause : RunError} (condition : Bool)
    (hcause : cause.isMiss = false) : NeverMisses (Outcome.failIf condition cause) :=
  neverMisses_iff.2 (Outcome.avoids_failIf condition hcause)

theorem neverMisses_require (condition : Bool) :
    NeverMisses (Outcome.require condition : Ran Unit) :=
  neverMisses_iff.2 (Outcome.avoids_require condition)

end Ran

open Ran

variable {α : Type}

/-! ## Values -/

namespace Value

theorem neverMisses_asInt (place : Place) (v : Value α) : NeverMisses (v.asInt place) := by
  cases v with
  | int n => exact neverMisses_ok n
  | block b => exact neverMisses_mismatch
  | bool b => exact neverMisses_mismatch
  | miss => exact neverMisses_mismatch

theorem neverMisses_asIndex (place : Place) (length : Nat) (v : Value α) :
    NeverMisses (v.asIndex place length) := by
  refine (neverMisses_asInt place v).bind fun n _ => ?_
  split
  · exact neverMisses_ok _
  · exact neverMisses_fail rfl

theorem neverMisses_asBlock (place : Place) (v : Value α) : NeverMisses (v.asBlock place) := by
  cases v with
  | block b => exact neverMisses_ok b
  | int n => exact neverMisses_mismatch
  | bool b => exact neverMisses_mismatch
  | miss => exact neverMisses_mismatch

theorem neverMisses_blockOf (shape : BlockShape) (data : Array α) :
    NeverMisses (blockOf shape data) :=
  (neverMisses_orAbort _).bind fun _ _ => neverMisses_orFail _ rfl

theorem neverMisses_ofInt (n : Int) : NeverMisses (ofInt n : Ran (Value α)) :=
  (neverMisses_orAbort _).map _

theorem neverMisses_neg [Scalar α] (v : Value α) : NeverMisses v.neg := by
  cases v with
  | int n => exact neverMisses_ofInt _
  | block b => exact neverMisses_ok _
  | bool b => exact neverMisses_mismatch
  | miss => exact neverMisses_mismatch

theorem neverMisses_operate [Scalar α] (op : BinaryOp) (lhs rhs : Value α) :
    NeverMisses (operate op lhs rhs) := by
  unfold operate
  split
  · cases op with
    | add => exact neverMisses_ofInt _
    | sub => exact neverMisses_ofInt _
    | mul => exact neverMisses_ofInt _
    | div => exact (neverMisses_orFail _ rfl).map _
  · refine NeverMisses.map ?_ _
    exact (neverMisses_require _).bind fun _ _ => neverMisses_orFail _ rfl
  · exact neverMisses_mismatch

end Value

/-! ## Buffers -/

theorem Slot.neverMisses_locate (var : VarName) (size : Nat) (start : Int) (length : Nat) :
    NeverMisses (locate var size start length) := by
  unfold locate
  split
  · exact neverMisses_fail rfl
  · exact (neverMisses_orAbort _).bind fun _ _ =>
      (neverMisses_failIf _ rfl).bind fun _ _ => neverMisses_ok _

namespace Buffer

variable [Scalar α]

omit [Scalar α] in
theorem neverMisses_load (var : VarName) (b : Buffer α) (offset : Int) (shape : BlockShape) :
    NeverMisses (b.load var offset shape) :=
  (neverMisses_orAbort _).bind fun _ _ => (Slot.neverMisses_locate ..).bind fun _ _ =>
    Value.neverMisses_blockOf ..

theorem neverMisses_store (var : VarName) (b : Buffer α) (offset : Int) (value : BlockValue α)
    (accumulate : Bool) : NeverMisses (b.store var offset value accumulate) :=
  (Slot.neverMisses_locate ..).bind fun _ _ => neverMisses_ok _

end Buffer

theorem Memory.neverMisses_buffer (mem : Memory α) (var : VarName) :
    NeverMisses (mem.buffer var) :=
  neverMisses_orFail _ rfl

theorem Memory.neverMisses_read (mem : Memory α) (var : VarName) : NeverMisses (mem.read var) := by
  unfold Memory.read
  split
  · exact neverMisses_ok _
  · exact neverMisses_ok _
  · exact neverMisses_mismatch
  · exact neverMisses_fail rfl

/-! ## Resolutions and bindings -/

namespace Resolution

theorem neverMisses_size (r : Resolution) (set : SetName) : NeverMisses (r.size set) :=
  neverMisses_orFail _ rfl

theorem neverMisses_topology (r : Resolution) (set : SetName) : NeverMisses (r.topology set) :=
  neverMisses_orFail _ rfl

theorem neverMisses_pattern (r : Resolution) (p : PatternRef) : NeverMisses (r.pattern p) := by
  unfold pattern
  split
  · exact neverMisses_ok _
  · unfold build
    split
    · split
      · exact (neverMisses_size ..).bind fun _ _ => neverMisses_orAbort _
      · exact neverMisses_mismatch
    · refine (neverMisses_topology ..).bind fun t _ => ?_
      split
      · exact neverMisses_orAbort _
      · split
        · exact neverMisses_orAbort _
        · split
          · exact neverMisses_orAbort _
          · exact neverMisses_mismatch

end Resolution

theorem Bindings.neverMisses_field (b : Bindings α) (set : SetName) (field : FieldName) :
    NeverMisses (b.field set field) :=
  NeverMisses.bind (neverMisses_orFail _ rfl) fun _ _ =>
    neverMisses_orFail _ rfl

/-! ## Expressions and assignments -/

namespace Machine

theorem neverMisses_endpoint (t : Topology) (e slot : Nat) :
    NeverMisses (t.endpoint e slot : Ran (Option Nat)) := by
  unfold Topology.endpoint
  split
  · exact neverMisses_ok _
  · split
    · exact neverMisses_ok _
    · exact ⟨fun _ h => nomatch h⟩

theorem neverMisses_endpointValue (t : Topology) (set : SetName) (slot : Nat) (element : Value α) :
    NeverMisses (endpointValue t set slot element) :=
  (Value.neverMisses_asIndex ..).bind fun _ _ => (neverMisses_endpoint ..).bind fun _ _ =>
    NeverMisses.bind (neverMisses_orFail _ rfl) fun _ _ => neverMisses_ok _

theorem neverMisses_fieldValue (place : Place) (data : FieldData α) (e : Nat) :
    NeverMisses (fieldValue place data e) := by
  cases data with
  | float block values =>
      exact NeverMisses.bind (neverMisses_orAbort _) fun _ _ =>
        NeverMisses.bind (neverMisses_orAbort _) fun _ _ =>
          NeverMisses.bind (neverMisses_orAbort _) fun _ _ =>
            NeverMisses.bind (neverMisses_failIf _ rfl) fun _ _ =>
              (Value.neverMisses_blockOf ..).bind fun _ _ => neverMisses_ok _
  | bool flags => exact NeverMisses.map (neverMisses_orFail _ rfl) _

variable [Scalar α]

theorem neverMisses_sparseBlock (mem : Memory α) (var : VarName) (block : BlockShape)
    (v : Value α) : NeverMisses (sparseBlock mem var block v) := by
  unfold sparseBlock
  split
  · exact NeverMisses.map (neverMisses_orAbort _) _
  · exact (Value.neverMisses_asInt ..).bind fun _ _ => (mem.neverMisses_buffer var).bind fun b _ =>
      NeverMisses.bind (NeverMisses.bind (neverMisses_orAbort _) fun _ _ =>
        b.neverMisses_load var _ block) fun _ _ => neverMisses_ok _

theorem neverMisses_eval (m : Machine α) (mem : Memory α) (e : Expr α) :
    NeverMisses (m.eval mem e) := by
  match e with
  | .literal value =>
      rw [eval]
      cases value with
      | float x => exact neverMisses_ok _
      | int n => exact neverMisses_ok _
      | bool b => exact neverMisses_ok _
      | block shape values => exact (Value.neverMisses_blockOf ..).map _
  | .var name =>
      rw [eval]
      exact mem.neverMisses_read name
  | .endpointOf set element slot =>
      rw [eval]
      exact (m.resolution.neverMisses_topology set).bind fun t _ =>
        (neverMisses_eval m mem element).bind fun _ _ => neverMisses_endpointValue ..
  | .fieldLoad set field element =>
      rw [eval]
      exact (m.resolution.neverMisses_size set).bind fun _ _ =>
        (neverMisses_eval m mem element).bind fun _ _ => (Value.neverMisses_asIndex ..).bind
          fun _ _ => (m.bindings.neverMisses_field set field).bind fun _ _ =>
            neverMisses_fieldValue ..
  | .field set field =>
      rw [eval]
      exact neverMisses_mismatch
  | .binary op lhs rhs =>
      rw [eval]
      exact (neverMisses_eval m mem lhs).bind fun _ _ => (neverMisses_eval m mem rhs).bind
        fun _ _ => Value.neverMisses_operate ..
  | .neg inner =>
      rw [eval]
      exact (neverMisses_eval m mem inner).bind fun _ _ => Value.neverMisses_neg _
  | .setSize set =>
      rw [eval]
      exact (m.resolution.neverMisses_size set).map _
  | .locate pattern row col search =>
      rw [eval]
      exact (m.resolution.neverMisses_pattern pattern).bind fun _ _ =>
        (neverMisses_eval m mem row).bind fun _ _ => (Value.neverMisses_asInt ..).bind fun _ _ =>
          (neverMisses_eval m mem col).bind fun _ _ => (Value.neverMisses_asInt ..).bind
            fun _ _ => neverMisses_ok _
  | .load buffer offset block =>
      rw [eval]
      exact (neverMisses_eval m mem offset).bind fun _ _ => (Value.neverMisses_asInt ..).bind
        fun _ _ => (mem.neverMisses_buffer buffer).bind fun b _ =>
          (b.neverMisses_load buffer _ block).bind fun _ _ => neverMisses_ok _
  | .sparseLoad buffer position block =>
      rw [eval]
      exact (neverMisses_eval m mem position).bind fun _ _ => neverMisses_sparseBlock ..
  | .endpoint endpoints slot =>
      rw [eval]
      exact neverMisses_fail rfl
  | .elementField element field =>
      rw [eval]
      exact neverMisses_fail rfl
  | .index free body =>
      rw [eval]
      exact neverMisses_fail rfl
  | .indexed operand =>
      rw [eval]
      exact neverMisses_fail rfl
  | .tensorRead tensor indices position =>
      rw [eval]
      exact neverMisses_fail rfl
termination_by structural e

theorem neverMisses_fillers (m : Machine α) (mem : Memory α) (var : VarName) (value : Expr α) :
    NeverMisses (m.fillers mem var value) := by
  have hevaluated : NeverMisses (m.eval mem value >>= fun value =>
      value.asBlock (.assignment var) >>= fun block => (pure block.data : Ran (Array α))) :=
    (m.neverMisses_eval mem value).bind fun _ _ => (Value.neverMisses_asBlock ..).bind
      fun _ _ => neverMisses_ok _
  unfold fillers
  split
  · next set field =>
      refine (m.bindings.neverMisses_field set field).bind fun data _ => ?_
      cases data with
      | float block values => exact neverMisses_ok _
      | bool flags => exact neverMisses_mismatch
  · split
    · exact neverMisses_ok _
    · exact hevaluated
  · exact hevaluated

theorem neverMisses_assign (m : Machine α) (mem : Memory α) (var : VarName) (value : Expr α)
    (accumulate : Bool) : NeverMisses (m.assign mem var value accumulate) := by
  unfold assign
  split
  · exact (m.neverMisses_fillers mem var value).bind fun _ _ =>
      (neverMisses_failIf _ rfl).bind fun _ _ => neverMisses_ok _
  · refine (m.neverMisses_eval mem value).bind fun _ _ => ?_
    cases accumulate with
    | false => exact neverMisses_ok _
    | true =>
        exact NeverMisses.bind (neverMisses_orFail _ rfl) fun _ _ =>
          (Value.neverMisses_operate ..).bind fun _ _ => neverMisses_ok _

omit [Scalar α] in
theorem neverMisses_checkBlock (var : VarName) (expected : BlockShape) (value : BlockValue α) :
    NeverMisses (checkBlock var expected value) :=
  neverMisses_failIf _ rfl

theorem neverMisses_execStore (m : Machine α) (mem : Memory α) (buffer : VarName)
    (offset value : Expr α) (accumulate : Bool) :
    NeverMisses (m.exec (.store buffer offset value accumulate) mem) := by
  rw [exec]
  refine (m.neverMisses_eval mem offset).bind fun _ _ => (Value.neverMisses_asInt ..).bind
    fun _ _ => (m.neverMisses_eval mem value).bind fun _ _ => (Value.neverMisses_asBlock ..).bind
      fun _ _ => (mem.neverMisses_buffer buffer).bind fun b _ => ?_
  cases b with
  | dense block values =>
      exact (neverMisses_checkBlock ..).bind fun _ _ => (Buffer.neverMisses_store ..).bind
        fun _ _ => neverMisses_ok _
  | sparse matrix => exact neverMisses_mismatch
  | register value => exact neverMisses_mismatch

/-- A sparse store ends in a write that misses only where the search for its position has found
    nothing. -/
theorem miss_of_execSparseStore {m : Machine α} {mem : Memory α} {buffer var : VarName}
    {position value : Expr α} {accumulate : Bool} {block : BlockShape}
    (h : m.exec (.sparseStore buffer position value accumulate block) mem =
      .error (.error (.sparseWriteMiss var))) : m.eval mem position = .ok .miss := by
  rw [exec] at h
  cases hposition : m.eval mem position with
  | error fault =>
      rw [hposition] at h
      cases h
      exact absurd hposition ((m.neverMisses_eval mem position).ne_miss var)
  | ok found =>
      cases found with
      | miss => rfl
      | block b =>
          rw [hposition] at h
          cases h
      | bool b =>
          rw [hposition] at h
          cases h
      | int n =>
          rw [hposition] at h
          have hrest : NeverMisses (m.eval mem value >>= fun value =>
              value.asBlock .sparseStoreValue >>= fun value =>
                checkBlock buffer block value >>= fun _ =>
                  sparseStore mem buffer n value accumulate) := by
            refine (m.neverMisses_eval mem value).bind fun _ _ =>
              (Value.neverMisses_asBlock ..).bind fun _ _ => (neverMisses_checkBlock ..).bind
                fun _ _ => (mem.neverMisses_buffer buffer).bind fun b _ => ?_
            cases b with
            | sparse matrix =>
                exact (Buffer.neverMisses_store ..).bind fun _ _ => neverMisses_ok _
            | dense block values => exact neverMisses_mismatch
            | register value => exact neverMisses_mismatch
          exact absurd h (hrest.ne_miss var)

end Machine

end GraphTensor
