import GraphTensor.Lowering.Typing
import GraphTensor.Proofs.Binding.Suiting
import GraphTensor.Proofs.Block.Shapes
import GraphTensor.Proofs.Lowering.Fresh
import GraphTensor.Proofs.Machine.Blocks
set_option autoImplicit false

/-! # Values of types

An operation of a run, given values of the types that it was checked with, comes to a value of the
type that the check gives it (`Value.HasType`). What can still go wrong depends on the numbers: a
divisor is zero, an index lies out of range, a write misses its pattern, or a size leaves its range
(`RunError.isNumeric`).

`Ran.Yields` is the form of all these statements: no error of another kind, and a property of the
value if there is one. It is kept by binding computations and by folds, so every function of the
machine gets its type by following its definition. Types are read loosely: elements of a set are
integers, in range or not. -/

namespace GraphTensor

/-- The error depends on the numbers of a run: no type rules it out. -/
def RunError.isNumeric : RunError → Bool
  | typeMismatch .integerDivision .nonzeroInt .int => true
  | indexOutOfBounds _ _ _ => true
  | sparseWriteMiss _ => true
  | _ => false

/-! ## Computations -/

namespace Ran

variable {β γ : Type} {P P' : β → Prop} {Q : γ → Prop}

/-- A computation comes to a value with a property, unless it aborts or ends in an error that depends
    on the numbers. -/
def Yields (o : Ran β) (P : β → Prop) : Prop :=
  match o with
  | .ok b => P b
  | .error (.error cause) => cause.isNumeric = true
  | .error .abort => True
  | .error .divergence => False

theorem Yields.bind {o : Ran β} {g : β → Ran γ} (ho : Yields o P) (hg : ∀ b, P b → Yields (g b) Q) :
    Yields (o >>= g) Q := by
  cases o with
  | ok b => exact hg b ho
  | error fault => cases fault <;> exact ho

theorem Yields.of_ok {o : Ran β} {g : β → Ran γ} {b : β} (ho : o = .ok b) (hg : Yields (g b) Q) :
    Yields (o >>= g) Q := by
  rw [ho]
  exact hg

theorem Yields.map {o : Ran β} {g : β → γ} (ho : Yields o P) (hg : ∀ b, P b → Q (g b)) :
    Yields (o.map g) Q := by
  cases o with
  | ok b => exact hg b ho
  | error fault => cases fault <;> exact ho

theorem Yields.of_eq_ok {o : Ran β} {b : β} (ho : Yields o P) (h : o = .ok b) : P b := by
  rw [h] at ho
  exact ho

/-- A property of the value that holds of every value there can be. -/
theorem Yields.imp {o : Ran β} (ho : Yields o P) (h : ∀ b, o = .ok b → P b → P' b) :
    Yields o P' := by
  cases o with
  | ok b => exact h b rfl ho
  | error fault => cases fault <;> exact ho

theorem yields_orAbort {o : Option β} (h : ∀ b, o = some b → P b) : Yields (Outcome.orAbort o) P := by
  cases o with
  | none => trivial
  | some b => exact h b rfl

theorem yields_orFail {cause : RunError} {o : Option β} (hcause : cause.isNumeric = true)
    (h : ∀ b, o = some b → P b) : Yields (Outcome.orFail cause o) P := by
  cases o with
  | none => exact hcause
  | some b => exact h b rfl

theorem yields_failIf {cause : RunError} {condition : Bool} {R : Prop}
    (hcause : cause.isNumeric = true) (h : condition = false → R) :
    Yields (Outcome.failIf condition cause) fun _ => R := by
  cases condition with
  | true => exact hcause
  | false => exact h rfl

theorem yields_require (condition : Bool) :
    Yields (Outcome.require condition : Ran Unit) fun _ => True := by
  cases condition <;> trivial

theorem yields_foldlM {ι : Type} {f : β → ι → Ran β} {xs : List ι}
    (hstep : ∀ b, ∀ x ∈ xs, P b → Yields (f b x) P) {b : β} (hb : P b) :
    Yields (xs.foldlM f b) P := by
  induction xs generalizing b with
  | nil => exact hb
  | cons x rest ih =>
      rw [List.foldlM_cons]
      refine Yields.bind (hstep b x (List.mem_cons_self ..) hb) fun next hnext => ?_
      exact ih (fun b x hx => hstep b x (List.mem_cons_of_mem _ hx)) hnext

end Ran

open Ran

/-! ## Types of values -/

namespace ValueType

/-- Values of the type are integers. -/
def isIndex : ValueType → Bool
  | int => true
  | element _ => true
  | _ => false

/-- There are values of the type: it is neither that of a tensor nor that of endpoints. -/
def isValue : ValueType → Bool
  | tensor _ => false
  | endpoints _ => false
  | _ => true

/-- A value of a type can be added to one of another: both are integers, or blocks of one shape. -/
def Adds (bound type : ValueType) : Prop :=
  (bound.isIndex = true ∧ type.isIndex = true) ∨ ∃ shape, bound = .block shape ∧ type = .block shape

theorem isValue_of_isIndex {type : ValueType} (h : type.isIndex = true) : type.isValue = true := by
  cases type <;> first | rfl | cases h

theorem asTensor?_of_isValue {type : ValueType} (h : type.isValue = true) : type.asTensor? = none := by
  cases type <;> first | rfl | cases h

theorem isIndex_of_expectElement {type : ValueType} (h : type.expectElement = .ok ()) :
    type.isIndex = true := by
  cases type <;> first | rfl | cases h

theorem isIndex_of_fitsIndex {type : ValueType} {dim : IndexDomain} (h : type.fitsIndex dim = true) :
    type.isIndex = true := by
  cases type <;> first | rfl | (cases dim <;> cases h)

end ValueType

/-- The type of a field's values. -/
def FieldType.valueType : FieldType → ValueType
  | float block => .block block
  | bool => .bool

/-- The shape of an operation on blocks of two shapes. -/
def BinaryOp.blockShape? (op : BinaryOp) (l r : BlockShape) : Option BlockShape :=
  match op with
  | add => l.sum r
  | sub => l.sum r
  | mul => l.product r
  | div => if r = .scalar then some l else none

/-- An operation is checked to be one on two integers or on two blocks whose shapes fit. -/
theorem BinaryOp.resultType_eq_ok {op : BinaryOp} {l r type : ValueType}
    (h : op.resultType l r = .ok type) :
    (l = .int ∧ r = .int ∧ type = .int) ∨
      ∃ s t shape, l = .block s ∧ r = .block t ∧ op.blockShape? s t = some shape ∧
        type = .block shape := by
  unfold resultType at h
  split at h
  · exact Or.inl ⟨rfl, rfl, (Except.ok.inj h).symm⟩
  · next s t =>
      obtain ⟨shape, hshape, rfl⟩ := Option.map_eq_some_iff.1 (Outcome.orFail_eq_ok_iff.1 h)
      exact Or.inr ⟨s, t, shape, rfl, rfl, by cases op <;> exact hshape, rfl⟩
  · cases h

namespace Value

variable {α : Type}

/-- A value is of a type. Elements of a set are integers; no value is a tensor, and none stands for the
    endpoints of an element. -/
def HasType : Value α → ValueType → Prop
  | .block b, .block shape => b.shape = shape
  | .int _, .int => True
  | .int _, .element _ => True
  | .bool _, .bool => True
  | _, _ => False

variable {v w : Value α} {type : ValueType}

theorem HasType.exists_int (h : v.HasType type) (htype : type.isIndex = true) :
    ∃ n, v = .int n := by
  cases v with
  | int n => exact ⟨n, rfl⟩
  | block b => cases type <;> simp_all [HasType, ValueType.isIndex]
  | bool b => cases type <;> simp_all [HasType, ValueType.isIndex]
  | miss => cases type <;> cases h

theorem hasType_int {n : Int} (htype : type.isIndex = true) : (int n : Value α).HasType type := by
  cases type <;> simp_all [HasType, ValueType.isIndex]

theorem HasType.int_of_isIndex (h : v.HasType type) (htype : type.isIndex = true) :
    v.HasType .int := by
  obtain ⟨n, rfl⟩ := h.exists_int htype
  trivial

theorem HasType.exists_block {shape : BlockShape} (h : v.HasType (.block shape)) :
    ∃ b, v = .block b ∧ b.shape = shape := by
  cases v with
  | block b => exact ⟨b, rfl, h⟩
  | int n => cases h
  | bool b => cases h
  | miss => cases h

/-! ## Arithmetic -/

theorem yields_asIndex (place : Place) (length : Nat) (n : Int) :
    Yields ((int n : Value α).asIndex place length) fun _ => True := by
  change Yields (if 0 ≤ n ∧ n < length then .ok n.toNat else _) _
  split
  · trivial
  · exact rfl

theorem yields_blockOf {shape : BlockShape} {data : Array α} (h : data.size = shape.length) :
    Yields (blockOf shape data) (·.shape = shape) := by
  obtain ⟨b, hb, hshape⟩ := BlockValue.ofArray?_of_size h
  refine (yields_orAbort (P := fun _ => True) fun _ _ => trivial).bind fun _ _ => ?_
  rw [hb]
  exact hshape

theorem yields_ofInt (n : Int) : Yields (ofInt n : Ran (Value α)) (·.HasType .int) :=
  (yields_orAbort (P := fun _ => True) fun _ _ => trivial).map fun _ _ => trivial

variable [Scalar α]

theorem exists_blockOperation? {op : BinaryOp} {a b : BlockValue α} {shape : BlockShape}
    (h : op.blockShape? a.shape b.shape = some shape) :
    ∃ c, blockOperation? op a b = some c ∧ c.shape = shape := by
  cases op with
  | add =>
      obtain ⟨hsame, hshape⟩ := BlockShape.sum_eq_some_iff.1 h
      exact hshape ▸ BlockValue.add?_of_shape hsame
  | sub =>
      obtain ⟨hsame, hshape⟩ := BlockShape.sum_eq_some_iff.1 h
      exact hshape ▸ BlockValue.sub?_of_shape hsame
  | mul => exact BlockValue.mul?_of_product h
  | div =>
      obtain ⟨hscalar, hshape⟩ := Option.ite_none_right_eq_some.1 h
      obtain rfl := Option.some.inj hshape
      exact BlockValue.div?_of_shape hscalar

theorem yields_blockOperation {op : BinaryOp} {a b : BlockValue α} {shape : BlockShape}
    (h : op.blockShape? a.shape b.shape = some shape) :
    Yields (blockOperation op a b) (·.shape = shape) := by
  obtain ⟨c, hc, hshape⟩ := exists_blockOperation? h
  refine (yields_require _).bind fun _ _ => ?_
  rw [hc]
  exact hshape

omit [Scalar α] in
theorem yields_intOperation (op : BinaryOp) (a b : Int) :
    Yields (intOperation op a b : Ran (Value α)) (·.HasType .int) := by
  cases op with
  | add => exact yields_ofInt _
  | sub => exact yields_ofInt _
  | mul => exact yields_ofInt _
  | div =>
      exact (yields_orFail (P := fun _ => True) rfl fun _ _ => trivial).map fun _ _ => trivial

/-- **An operation** on values of two types gives a value of the type that it is checked to have. -/
theorem yields_operate {op : BinaryOp} {l r : ValueType} (hv : v.HasType l) (hw : w.HasType r)
    (h : op.resultType l r = .ok type) : Yields (operate op v w) (·.HasType type) := by
  rcases BinaryOp.resultType_eq_ok h with ⟨rfl, rfl, rfl⟩ | ⟨s, t, shape, rfl, rfl, hshape, rfl⟩
  · obtain ⟨a, rfl⟩ := hv.exists_int rfl
    obtain ⟨b, rfl⟩ := hw.exists_int rfl
    exact yields_intOperation op a b
  · obtain ⟨a, rfl, rfl⟩ := hv.exists_block
    obtain ⟨b, rfl, rfl⟩ := hw.exists_block
    exact (yields_blockOperation hshape).map fun _ h => h

theorem yields_add {bound : ValueType} (hv : v.HasType bound) (hw : w.HasType type)
    (h : bound.Adds type) : Yields (operate .add v w) (·.HasType bound) := by
  rcases h with ⟨hbound, htype⟩ | ⟨shape, rfl, rfl⟩
  · obtain ⟨a, rfl⟩ := hv.exists_int hbound
    obtain ⟨b, rfl⟩ := hw.exists_int htype
    refine (yields_intOperation .add a b).imp fun sum _ hsum => ?_
    obtain ⟨n, rfl⟩ := hsum.exists_int rfl
    exact hasType_int hbound
  · obtain ⟨a, rfl, rfl⟩ := hv.exists_block
    obtain ⟨b, rfl, hshape⟩ := hw.exists_block
    have hsum : BinaryOp.add.blockShape? a.shape b.shape = some a.shape :=
      BlockShape.sum_eq_some_iff.2 ⟨hshape.symm, rfl⟩
    exact (yields_blockOperation hsum).map fun _ h => h

/-- The negative of an integer or a block. -/
theorem yields_neg (hv : v.HasType type) (h : type = .int ∨ ∃ shape, type = .block shape) :
    Yields v.neg (·.HasType type) := by
  rcases h with rfl | ⟨shape, rfl⟩
  · obtain ⟨n, rfl⟩ := hv.exists_int rfl
    exact yields_ofInt _
  · obtain ⟨b, rfl, hshape⟩ := hv.exists_block
    exact hshape

end Value

/-! ## Buffers -/

variable {α : Type}

theorem Slot.yields_locate (var : VarName) (size : Nat) (start : Int) (length : Nat) :
    Yields (locate var size start length) fun place => place + length ≤ size := by
  cases h : locate var size start length with
  | ok place => exact (locate_eq_ok h).2
  | error fault =>
      have hnumeric : Yields (locate var size start length) fun _ => True := by
        unfold locate
        split
        · exact rfl
        · refine (yields_orAbort (P := fun _ => True) fun _ _ => trivial).bind fun stop _ => ?_
          exact (yields_failIf (R := True) rfl fun _ => trivial).bind fun _ _ => trivial
      rw [h] at hnumeric
      cases fault <;> exact hnumeric

theorem Buffer.yields_load (var : VarName) (b : Buffer α) (offset : Int) (shape : BlockShape) :
    Yields (b.load var offset shape) (·.shape = shape) := by
  have hlength : Yields (Outcome.orAbort shape.length?) fun length => length = shape.length :=
    yields_orAbort fun length h => ((Word.ofNat?_eq_some_iff.1 h).2).symm
  refine hlength.bind fun length hlength => (Slot.yields_locate ..).bind fun start hinside => ?_
  exact Value.yields_blockOf ((Slot.size_read hinside).trans hlength)

theorem Buffer.yields_loadAt (var : VarName) (b : Buffer α) (position : Int) (shape : BlockShape) :
    Yields (b.loadAt var position shape) (·.shape = shape) :=
  (yields_orAbort (P := fun _ => True) fun _ _ => trivial).bind fun _ _ => b.yields_load ..

theorem Buffer.yields_store [Scalar α] (var : VarName) (b : Buffer α) (offset : Int)
    (value : BlockValue α) (accumulate : Bool) :
    Yields (b.store var offset value accumulate) fun _ => True :=
  (Slot.yields_locate ..).bind fun _ _ => trivial

/-! ## Expressions -/

namespace Machine

theorem yields_literalValue {value : Literal α} {type : ValueType} (h : value.type = .ok type) :
    Yields (literalValue value) (·.HasType type) := by
  cases value with
  | float x =>
      obtain rfl := Except.ok.inj h
      exact rfl
  | int n =>
      obtain rfl := Except.ok.inj h
      trivial
  | bool b =>
      obtain rfl := Except.ok.inj h
      trivial
  | block shape values =>
      obtain ⟨count, hcount, h⟩ := Outcome.bind_eq_ok_iff.1 h
      split at h
      · cases h
      · next hsize =>
          obtain rfl := Except.ok.inj h
          obtain ⟨_, rfl⟩ := Word.ofNat?_eq_some_iff.1 (Outcome.orAbort_eq_ok_iff.1 hcount)
          exact (Value.yields_blockOf (not_not.1 hsize)).map fun _ h => h

theorem yields_endpointValue (t : Topology) (set : SetName) (slot : Nat) (n : Int) :
    Yields (endpointValue t set slot (.int n : Value α)) (·.HasType .int) := by
  refine (Value.yields_asIndex ..).bind fun e _ => ?_
  have hendpoint : Yields (t.endpoint e slot : Ran (Option Nat)) fun _ => True := by
    unfold Topology.endpoint
    split
    · trivial
    · split <;> trivial
  exact hendpoint.bind fun endpoint _ =>
    (yields_orFail (P := fun _ => True) rfl fun _ _ => trivial).bind fun _ _ => trivial

theorem yields_blockOfField (place : Place) (block : BlockShape) (values : Array α) (e : Nat) :
    Yields (blockOfField place block values e) (·.HasType (.block block)) := by
  have hproduct : ∀ a b, Yields (Outcome.orAbort (Word.mul? a b)) (· = a * b) := fun a b =>
    yields_orAbort fun product h => ((Word.ofNat?_eq_some_iff.1 h).2).symm
  have hlength : Yields (Outcome.orAbort block.length?) (· = block.length) :=
    yields_orAbort fun length h => ((Word.ofNat?_eq_some_iff.1 h).2).symm
  refine hlength.bind ?_
  rintro _ rfl
  refine (hproduct ..).bind ?_
  rintro _ rfl
  refine (hproduct ..).bind ?_
  rintro _ rfl
  refine (yields_failIf rfl fun h => of_decide_eq_false h).bind fun _ hinside => ?_
  refine (Value.yields_blockOf ?_).bind fun value hvalue => hvalue
  rw [Array.size_extract, Nat.add_mul] at *
  omega

theorem yields_fieldValue {type : FieldType} {data : FieldData α} (h : data.kind = type.kind)
    (place : Place) (e : Nat) : Yields (fieldValue place data e) (·.HasType type.valueType) := by
  cases data with
  | float block values =>
      cases type with
      | float block' =>
          obtain rfl := Quality.shape.inj h
          exact yields_blockOfField place block values e
      | bool => cases h
  | bool flags =>
      cases type with
      | float block => cases h
      | bool => exact (yields_orFail (P := fun _ => True) rfl fun _ _ => trivial).map fun _ _ => trivial

theorem locateValue_cases (p : Pattern) (search : Search) (row col : Int) :
    (locateValue p search row col : Value α) = .miss ∨
      ∃ n, (locateValue p search row col : Value α) = .int n := by
  unfold locateValue
  dsimp only
  split
  · exact Or.inr ⟨_, rfl⟩
  · exact Or.inl rfl

variable [Scalar α] {m : Machine α} {mem : Memory α}

theorem yields_sparseBlock {var : VarName} {b : Buffer α} {block : BlockShape} {v : Value α}
    (hb : mem.buffers.get? var = some b) (hv : v = .miss ∨ ∃ n, v = .int n) :
    Yields (sparseBlock mem var block v) (·.HasType (.block block)) := by
  rcases hv with rfl | ⟨n, rfl⟩
  · have hshape (zeros : BlockValue α) (h : BlockValue.zeros? block = some zeros) :
        zeros.shape = block := by
      obtain ⟨_, _, rfl⟩ := Option.map_eq_some_iff.1 h
      rfl
    exact (yields_orAbort hshape).map fun _ h => h
  · refine Yields.of_ok (b := n) rfl ?_
    refine Yields.of_ok (Outcome.orFail_eq_ok_iff.2 hb) ?_
    exact (b.yields_loadAt ..).bind fun _ h => h

theorem yields_fillers {value : Expr α} {shape : BlockShape} (hapart : mem.Apart) (var : VarName)
    (h : Yields (m.eval mem value) (·.HasType (.block shape))) :
    Yields (m.fillers mem var value) (·.size = shape.length) := by
  have hevaluated : Yields (do
      let v ← m.eval mem value
      let block ← v.asBlock (.assignment var)
      return block.data) (·.size = shape.length) := by
    refine h.bind fun v hv => ?_
    obtain ⟨b, rfl, rfl⟩ := hv.exists_block
    exact b.size_data
  unfold fillers
  split
  · next set field =>
      rw [eval] at h
      cases h
  · next other =>
      split
      · next b hb =>
          -- a buffer that is read as a value is a register of the value's shape
          rw [eval, Memory.read, hapart other b hb, hb] at h
          cases b with
          | register block =>
              obtain rfl : block.shape = shape := h
              exact block.size_data
          | dense block values => cases h
          | sparse matrix => cases h
      · exact hevaluated
  · exact hevaluated

/-! ## Statements -/

theorem yields_store {var : VarName} {block : BlockShape} {values : Array α} {value : BlockValue α}
    (hb : mem.buffers.get? var = some (.dense block values)) (hshape : value.shape = block)
    (offset : Int) (accumulate : Bool) :
    Yields (store mem var offset value accumulate) fun _ => True := by
  refine Yields.of_ok (Outcome.orFail_eq_ok_iff.2 hb) ?_
  refine Yields.of_ok (b := ()) (Outcome.failIf_eq_ok_iff.2 (by simp [hshape])) ?_
  exact (Buffer.yields_store ..).bind fun _ _ => trivial

theorem yields_sparseStore {var : VarName} {matrix : BlockMatrix α}
    (hb : mem.buffers.get? var = some (.sparse matrix)) (position : Int) (value : BlockValue α)
    (accumulate : Bool) : Yields (sparseStore mem var position value accumulate) fun _ => True := by
  refine Yields.of_ok (Outcome.orFail_eq_ok_iff.2 hb) ?_
  exact (Buffer.yields_store ..).bind fun _ _ => trivial

theorem yields_accumulate {var : VarName} {b : Buffer α} {value : Expr α} {shape : BlockShape}
    (hapart : mem.Apart) (hb : mem.buffers.get? var = some b) (hsize : b.values.size = shape.length)
    (h : Yields (m.eval mem value) (·.HasType (.block shape))) :
    Yields (m.assign mem var value true) fun _ => True := by
  rw [assign, hb]
  refine (yields_fillers hapart var h).bind fun data hdata => ?_
  refine Yields.of_ok (b := ()) (Outcome.failIf_eq_ok_iff.2 ?_) trivial
  simp [hsize, hdata]

end Machine

end GraphTensor
