import GraphTensor.Proofs.Machine.Arithmetic
import GraphTensor.Proofs.Machine.Start
set_option autoImplicit false

/-! # What evaluating comes to

An expression comes to a value or to an error. It aborts only where one of its operations leaves
its range (`Machine.OverrunsIn`): a sum, difference, product or negative of integers is no signed
word, a product of blocks or a pattern has no room, or the place of a field's values is no word.

Whatever the integers are that go into searches, loads and endpoints, these come to a value, a miss
or an error: quotients are checked, positions are cut off to words, and a slot is read only where
it lies inside its numbers (`Slot.Reads`). The induction is over the parts of an expression and
carries two facts at once, that no abort comes from elsewhere and that the value is one that a run
can hold (`Value.Representable`); an operand that is no word would let the next operation overflow
unnoticed. -/

namespace GraphTensor

open Outcome

variable {α : Type}

/-! ## Values -/

/-- The exact result of an operation on two integers; there is none for a divisor zero. -/
def BinaryOp.exactResult? : BinaryOp → Int → Int → Option Int
  | add, x, y => some (x + y)
  | sub, x, y => some (x - y)
  | mul, x, y => some (x * y)
  | div, x, y => if y = 0 then none else some (x.tdiv y)

namespace Value

variable {Q : Prop}

/-- A value that a run can hold: an integer has to be a signed word. -/
def Representable : Value α → Prop
  | int n => SignedWord.fits n = true
  | _ => True

theorem representable_ofCount (n : Nat) : (ofCount n : Value α).Representable :=
  SignedWord.fits_ofCount n

theorem settles_asInt (place : Place) (v : Value α) :
    (v.asInt place).Settles (fun n => v = .int n) Q := by
  cases v with
  | int n => rfl
  | block b => trivial
  | bool b => trivial
  | miss => trivial

theorem settles_asIndex (place : Place) (length : Nat) (v : Value α) :
    (v.asIndex place length).Settles (fun i => v = .int i ∧ i < length) Q := by
  refine (settles_asInt place v).bind fun n _ hn => ?_
  split
  · next hin =>
      have htoNat : (n.toNat : Int) = n := Int.toNat_of_nonneg hin.1
      exact ⟨htoNat.symm ▸ hn, by omega⟩
  · trivial

theorem blockOf_eq_ok {shape : BlockShape} {data : Array α} (hroom : shape.HasRoom)
    (h : data.size = shape.length) :
    ∃ value, blockOf shape data = .ok value ∧ value.shape = shape ∧ value.data = data := by
  refine ⟨⟨shape, data, h⟩, ?_, rfl, rfl⟩
  rw [blockOf, orAbort_bind hroom.length?_eq]
  exact orFail_eq_ok_iff.2 (dif_pos h)

theorem settles_blockOf {shape : BlockShape} (hroom : shape.HasRoom) (data : Array α) :
    (blockOf shape data).Settles (fun _ => True) Q := by
  rw [blockOf, orAbort_bind hroom.length?_eq]
  exact settles_orFail fun _ _ => trivial

/-! ## Arithmetic -/

/-- An operation on two values leaves its range: it is no quotient, and its exact result on
    integers is no word, or it is a product of blocks without room. -/
def Overflows (op : BinaryOp) : Value α → Value α → Prop
  | int x, int y => op ≠ .div ∧ ∃ n, op.exactResult? x y = some n ∧ SignedWord.fits n = false
  | block a, block b => op = .mul ∧ ∃ shape, a.shape.product b.shape = some shape ∧ ¬ shape.HasRoom
  | _, _ => False

theorem ofInt_of_fits {n : Int} (h : SignedWord.fits n = true) :
    (ofInt n : Ran (Value α)) = .ok (.int n) := by
  rw [ofInt, SignedWord.ofInt?, if_pos h]
  rfl

theorem ofInt_of_not_fits {n : Int} (h : SignedWord.fits n = false) :
    (ofInt n : Ran (Value α)) = .error .abort := by
  rw [ofInt, SignedWord.ofInt?, h]
  rfl

theorem ofInt_eq_ok_iff {n : Int} {v : Value α} :
    ofInt n = .ok v ↔ SignedWord.fits n = true ∧ v = .int n := by
  cases h : SignedWord.fits n with
  | true => simp [ofInt_of_fits h, eq_comm]
  | false => simp [ofInt_of_not_fits h]

theorem settles_ofInt (n : Int) :
    (ofInt n : Ran (Value α)).Settles Representable (SignedWord.fits n = false) := by
  refine Settles.map (P := fun k => SignedWord.fits k = true) (settles_orAbort ?_ fun hnone => ?_)
    fun _ hk => hk
  · intro k hk
    obtain ⟨hfits, rfl⟩ := SignedWord.ofInt?_eq_some_iff.1 hk
    exact hfits
  · simpa [SignedWord.ofInt?] using hnone

/-- A quotient of integers, where there is one that is a word. -/
theorem intQuotient?_eq_some_iff {x y n : Int} :
    intQuotient? x y = some n ↔
      BinaryOp.div.exactResult? x y = some n ∧ SignedWord.fits n = true := by
  unfold intQuotient?
  by_cases hy : y = 0
  · simp [BinaryOp.exactResult?, hy]
  · have hexact : BinaryOp.div.exactResult? x y = some (x.tdiv y) := if_neg hy
    rw [if_neg hy, SignedWord.ofInt?_eq_some_iff, hexact, Option.some.injEq]
    exact ⟨fun ⟨hfits, heq⟩ => ⟨heq, heq ▸ hfits⟩, fun ⟨heq, hfits⟩ => ⟨heq.symm ▸ hfits, heq⟩⟩

/-- An operation on two integers has a value just if the exact result is a word, and it is that. -/
theorem intOperation_eq_ok_iff {op : BinaryOp} {x y : Int} {v : Value α} :
    intOperation op x y = .ok v ↔
      ∃ n, op.exactResult? x y = some n ∧ SignedWord.fits n = true ∧ v = .int n := by
  have hword (n : Int) : ofInt n = .ok v ↔
      ∃ k, some n = some k ∧ SignedWord.fits k = true ∧ v = .int k := by
    rw [ofInt_eq_ok_iff]
    simp
  cases op with
  | add => exact hword _
  | sub => exact hword _
  | mul => exact hword _
  | div =>
      rw [intOperation]
      cases hquotient : intQuotient? x y with
      | none =>
          refine ⟨nofun, fun ⟨n, hexact, hfits, _⟩ => ?_⟩
          cases hquotient.symm.trans (intQuotient?_eq_some_iff.2 ⟨hexact, hfits⟩)
      | some q =>
          obtain ⟨hexact, hfits⟩ := intQuotient?_eq_some_iff.1 hquotient
          constructor
          · intro h
            exact ⟨q, hexact, hfits, (Except.ok.inj h).symm⟩
          · rintro ⟨n, hn, _, rfl⟩
            obtain rfl := Option.some.inj (hexact.symm.trans hn)
            rfl

theorem settles_intOperation (op : BinaryOp) (x y : Int) :
    (intOperation op x y : Ran (Value α)).Settles Representable
      (Overflows op (.int x : Value α) (.int y)) := by
  cases op with
  | div =>
      exact Settles.map (P := fun n => SignedWord.fits n = true)
        (settles_orFail fun n hn => (intQuotient?_eq_some_iff.1 hn).2) fun _ hn => hn
  | _ => exact (settles_ofInt _).imp (fun _ h => h) fun h => ⟨nofun, _, rfl, h⟩

variable [Scalar α]

theorem settles_blockOperation (op : BinaryOp) (a b : BlockValue α) :
    (blockOperation op a b).Settles (fun _ => True) (Overflows op (.block a) (.block b)) := by
  cases hshape : op.blockShape? a.shape b.shape with
  | none =>
      rw [blockOperation_of_none hshape]
      trivial
  | some shape =>
      by_cases hroom : op = .mul → shape.HasRoom
      · obtain ⟨c, _, _, hc⟩ := blockOperation_of_some hshape hroom
        rw [hc]
        trivial
      · obtain ⟨rfl, hnone⟩ := Classical.not_imp.1 hroom
        rw [blockOperation_of_noRoom hshape hnone]
        exact ⟨rfl, shape, hshape, hnone⟩

theorem settles_operate (op : BinaryOp) (v w : Value α) :
    (operate op v w).Settles Representable (Overflows op v w) := by
  unfold operate
  split
  · exact settles_intOperation ..
  · exact (settles_blockOperation ..).map fun _ _ => trivial
  · trivial

/-- **Overflow.** An operation aborts just if it leaves its range. -/
theorem operate_eq_abort_iff {op : BinaryOp} {v w : Value α} :
    operate op v w = .error .abort ↔ Overflows op v w := by
  refine ⟨(settles_operate op v w).of_eq_abort, fun h => ?_⟩
  unfold Overflows at h
  split at h
  · next x y =>
      obtain ⟨hop, n, hn, hfits⟩ := h
      cases op with
      | div => exact absurd rfl hop
      | _ =>
          obtain rfl := Option.some.inj hn
          exact ofInt_of_not_fits hfits
  · next a b =>
      obtain ⟨rfl, shape, hshape, hroom⟩ := h
      rw [operate, blockOperation_of_noRoom hshape hroom]
      rfl
  · exact h.elim

theorem settles_neg (v : Value α) :
    v.neg.Settles Representable (∃ n, v = .int n ∧ SignedWord.fits (-n) = false) := by
  cases v with
  | int n => exact (settles_ofInt _).imp (fun _ h => h) fun h => ⟨n, rfl, h⟩
  | block b => trivial
  | bool b => trivial
  | miss => trivial

end Value

/-! ## Slots -/

/-- A computation reads a slot of numbers: it comes to the block that they make where the slot lies
    inside, and to an error where it does not. -/
def Slot.Reads (o : Ran (Value α)) (cause : RunError) (values : Array α) (start : Int)
    (shape : BlockShape) : Prop :=
  if 0 ≤ start ∧ start + shape.length ≤ values.size then
    ∃ value : BlockValue α, o = .ok (.block value) ∧ value.shape = shape ∧
      value.data = Slot.read values start.toNat shape.length
  else o = Outcome.fail cause

namespace Slot

variable {o : Ran (Value α)} {cause : RunError} {values : Array α} {start : Int}
  {shape : BlockShape} {Q : Prop}

theorem Reads.settles (h : Reads o cause values start shape) :
    o.Settles Value.Representable Q := by
  unfold Reads at h
  split at h
  · obtain ⟨value, rfl, _⟩ := h
    trivial
  · subst h
    trivial

theorem fits_offsetOf (position : Int) (length : Nat) :
    SignedWord.fits (offsetOf position length) = true := by
  rw [SignedWord.fits_iff, offsetOf, SignedWord.saturate]
  omega

end Slot

namespace Buffer

/-- A load reads a slot of its buffer, at whatever offset that is a word. -/
theorem reads_load {b : Buffer α} {var : VarName} {offset : Int} {shape : BlockShape}
    (hoffset : SignedWord.fits offset = true) (hroom : shape.HasRoom) :
    Slot.Reads (do
      let value ← b.load var offset shape
      return .block value) (.indexOutOfBounds (.buffer var) offset b.values.size) b.values offset
      shape := by
  have hlength := hroom.length_lt
  obtain ⟨_, hword⟩ := SignedWord.fits_iff.1 hoffset
  unfold Slot.Reads
  split
  · next hinside =>
      obtain ⟨start, rfl⟩ := Int.eq_ofNat_of_zero_le hinside.1
      have hslot : start + shape.length ≤ b.values.size := by omega
      -- the end of the slot is a word, as the offset is a signed one and the block has room
      have hstop : start + shape.length < Word.bound := by
        rw [Word.bound]
        omega
      obtain ⟨value, hvalue, hshape, hdata⟩ := Value.blockOf_eq_ok hroom (Slot.size_read hslot)
      refine ⟨value, ?_, hshape, hdata⟩
      rw [load, orAbort_bind hroom.length?_eq, Slot.locate_inside hstop hslot]
      exact bind_eq_ok_iff.2 ⟨value, hvalue, rfl⟩
  · next houtside =>
      rw [load, orAbort_bind hroom.length?_eq, Slot.locate_outside hword (by omega) (by omega)]
      rfl

theorem reads_loadAt {b : Buffer α} {var : VarName} {position : Int} {shape : BlockShape}
    (hroom : shape.HasRoom) :
    Slot.Reads (do
      let value ← b.loadAt var position shape
      return .block value)
      (.indexOutOfBounds (.buffer var) (Slot.offsetOf position shape.length) b.values.size) b.values
      (Slot.offsetOf position shape.length) shape := by
  rw [loadAt, orAbort_bind hroom.length?_eq]
  exact reads_load (Slot.fits_offsetOf ..) hroom

end Buffer

/-! ## Patterns, fields and endpoints -/

theorem Resolution.settles_pattern (r : Resolution) (p : PatternRef) :
    (r.pattern p).Settles (fun _ => True) True := by
  have habort (o : Option Pattern) : (orAbort o : Ran Pattern).Settles (fun _ => True) True :=
    settles_orAbort (fun _ _ => trivial) fun _ => trivial
  unfold pattern
  split
  · trivial
  · unfold build
    split
    · split
      · exact settles_orFail_bind fun _ _ => habort _
      · trivial
    · refine settles_orFail_bind fun t _ => ?_
      split
      · exact habort _
      · split
        · exact habort _
        · split
          · exact habort _
          · trivial

theorem Bindings.settles_field {Q : Prop} (b : Bindings α) (set : SetName) (field : FieldName) :
    (b.field set field).Settles (fun _ => True) Q :=
  settles_orFail_bind fun _ _ => settles_orFail fun _ _ => trivial

namespace Machine

variable {Q : Prop}

/-- The place of a field's values that is no word. -/
theorem blockOfField_of_overflow {place : Place} {block : BlockShape} {values : Array α} {e : Nat}
    (h : Word.bound ≤ (e + 1) * block.length) :
    blockOfField place block values e = .error .abort := by
  have hstop : Word.mul? (e + 1) block.length = none := Word.ofNat?_eq_none_iff.2 h
  unfold blockOfField
  cases hlength : block.length? with
  | none => rfl
  | some length =>
      obtain ⟨_, rfl⟩ := Word.ofNat?_eq_some_iff.1 hlength
      rw [orAbort_bind rfl, hstop]
      cases Word.mul? e block.length <;> rfl

/-- The value of an element in a field of blocks is read from its slot. -/
theorem reads_blockOfField {place : Place} {block : BlockShape} {values : Array α} {e : Nat}
    (hroom : block.HasRoom) (h : (e + 1) * block.length < Word.bound) :
    Slot.Reads (blockOfField place block values e)
      (.indexOutOfBounds place e (values.size / max block.length 1)) values
      ((e * block.length : Nat) : Int) block := by
  have hnext : (e + 1) * block.length = e * block.length + block.length := Nat.succ_mul ..
  have hstart : Word.mul? e block.length = some (e * block.length) :=
    Word.ofNat?_eq_some_iff.2 ⟨by omega, rfl⟩
  have hstop : Word.mul? (e + 1) block.length = some (e * block.length + block.length) :=
    Word.ofNat?_eq_some_iff.2 ⟨h, hnext⟩
  rw [blockOfField, orAbort_bind hroom.length?_eq, orAbort_bind hstart, orAbort_bind hstop]
  unfold Slot.Reads
  split
  · next hinside =>
      have hslot : e * block.length + block.length ≤ values.size := by omega
      obtain ⟨value, hvalue, hshape, hdata⟩ := Value.blockOf_eq_ok hroom (Slot.size_read hslot)
      refine ⟨value, ?_, hshape, hdata⟩
      refine bind_eq_ok_iff.2 ⟨(), failIf_eq_ok_iff.2 (by simpa using hslot), ?_⟩
      exact bind_eq_ok_iff.2 ⟨value, hvalue, rfl⟩
  · next houtside =>
      have hshort : decide (values.size < e * block.length + block.length) = true := by
        rw [decide_eq_true_eq]
        omega
      rw [failIf, hshort]
      rfl

theorem settles_blockOfField {place : Place} {block : BlockShape} {values : Array α} {e : Nat}
    (hroom : block.HasRoom) :
    (blockOfField place block values e).Settles Value.Representable
      (Word.bound ≤ (e + 1) * block.length) := by
  by_cases h : Word.bound ≤ (e + 1) * block.length
  · rw [blockOfField_of_overflow h]
    exact h
  · exact (reads_blockOfField hroom (Nat.lt_of_not_le h)).settles

/-- The value of an element in a field leaves its range only where the field holds blocks. -/
theorem settles_fieldValue {place : Place} {data : FieldData α} {e : Nat}
    (hrooms : ∀ block values, data = .float block values → block.HasRoom) :
    (fieldValue place data e).Settles Value.Representable
      (∃ block values, data = .float block values ∧ Word.bound ≤ (e + 1) * block.length) := by
  cases data with
  | float block values =>
      exact (settles_blockOfField (hrooms block values rfl)).imp (fun _ h => h)
        fun hplace => ⟨block, values, rfl, hplace⟩
  | bool flags =>
      exact Settles.map (P := fun _ => True) (settles_orFail fun _ _ => trivial)
        fun _ _ => trivial

/-- The place of an endpoint of an element of the relation is a word, as all tuples are in an
    array. -/
theorem settles_endpoint {t : Topology} {e slot : Nat} (hsize : t.tuples.size < Word.bound)
    (he : e < t.size) : (t.endpoint e slot : Ran (Option Nat)).Settles (fun _ => True) Q := by
  unfold Topology.endpoint
  split
  · trivial
  · next hslot =>
      have hnext : (e + 1) * t.arity ≤ t.size * t.arity := Nat.mul_le_mul_right _ he
      have hwhole : t.size * t.arity ≤ t.tuples.size := Nat.div_mul_le_self ..
      rw [Nat.succ_mul] at hnext
      rw [if_pos (by omega)]
      trivial

theorem settles_endpointValue {t : Topology} {set : SetName} {slot : Nat} {element : Value α}
    (hsize : t.tuples.size < Word.bound) :
    (endpointValue t set slot element).Settles Value.Representable Q := by
  refine (Value.settles_asIndex _ _ element).bind fun e _ he => ?_
  refine (settles_endpoint hsize he.2).bind fun endpoint _ _ => ?_
  refine settles_orFail_bind fun i _ => ?_
  show (Value.ofCount i : Value α).Representable
  exact Value.representable_ofCount i

theorem representable_locateValue (p : Pattern) (search : Search) (row col : Int) :
    (locateValue p search row col : Value α).Representable := by
  unfold locateValue
  dsimp only
  split
  · exact Value.representable_ofCount _
  · trivial

/-- A sparse load: a missing position reads as zeros, for which the block has room. -/
theorem settles_sparseBlock [Scalar α] {mem : Memory α} {buffer : VarName} {block : BlockShape}
    (hroom : block.HasRoom) (v : Value α) :
    (sparseBlock mem buffer block v).Settles Value.Representable Q := by
  unfold sparseBlock
  split
  · refine Settles.map (P := fun _ => True)
      (settles_orAbort (fun _ _ => trivial) fun hnone => ?_) fun _ _ => trivial
    obtain ⟨zeros, hzeros⟩ : ∃ zeros : BlockValue α, BlockValue.zeros? block = some zeros :=
      BlockShape.HasRoom.exists_zeros? hroom
    cases hzeros.symm.trans hnone
  · refine (Value.settles_asInt _ v).bind fun n _ _ => ?_
    refine settles_orFail_bind fun b _ => ?_
    exact (Buffer.reads_loadAt hroom).settles

end Machine

/-! ## Expressions -/

namespace Expr

/-- What an expression itself writes down fits: an integer is a word, and a block has room. -/
def Fits : Expr α → Prop
  | literal (.int n) => SignedWord.fits n = true
  | literal (.block shape _) => shape.HasRoom
  | load _ _ block => block.HasRoom
  | sparseLoad _ _ block => block.HasRoom
  | _ => True

/-- All integers in an expression are words, and all its blocks have room. -/
def Representable (e : Expr α) : Prop :=
  ∀ s ∈ e.subexprs, s.Fits

theorem self_mem_subexprs (e : Expr α) : e ∈ e.subexprs := by
  cases e <;> exact List.mem_cons_self ..

theorem Representable.mono {inner e : Expr α} (he : e.Representable)
    (hsub : inner.subexprs ⊆ e.subexprs) : inner.Representable :=
  fun s hs => he s (hsub hs)

theorem Representable.self {e : Expr α} (he : e.Representable) : e.Fits :=
  he e e.self_mem_subexprs

end Expr

/-- A run can hold the values of all locals. -/
def Memory.Representable (mem : Memory α) : Prop :=
  ∀ var v, mem.locals.get? var = some v → v.Representable

theorem Memory.settles_read {mem : Memory α} {Q : Prop} (hmem : mem.Representable) (name : VarName) :
    (mem.read name).Settles Value.Representable Q := by
  unfold Memory.read
  split
  · next value hlocal => exact hmem name value hlocal
  · trivial
  · trivial
  · trivial

/-- A run can hold what its machine reads: the tuples of a topology are an array, and the blocks
    of a field have room. -/
structure Machine.Representable (m : Machine α) : Prop where
  /-- The number of tuples is a word. -/
  tuples : ∀ relation t, m.resolution.topology relation = .ok t → t.tuples.size < Word.bound
  /-- The blocks of fields have room. -/
  blocks : ∀ set field block values, m.bindings.field set field = .ok (.float block values) →
    block.HasRoom

namespace Machine

variable [Scalar α] {m : Machine α} {mem : Memory α} {e : Expr α}

/-- An expression leaves its range once its operands have come to values: its operation overflows,
    the place of a field's values is no word, or a pattern has no room. -/
def Overruns (m : Machine α) (mem : Memory α) : Expr α → Prop
  | .binary op lhs rhs =>
    ∃ v w, m.eval mem lhs = .ok v ∧ m.eval mem rhs = .ok w ∧ Value.Overflows op v w
  | .neg inner => ∃ n, m.eval mem inner = .ok (.int n) ∧ SignedWord.fits (-n) = false
  | .fieldLoad set field element =>
    ∃ (n e : Nat) (block : BlockShape) (values : Array α), m.resolution.size set = .ok n ∧
      m.eval mem element = .ok (.int e) ∧ e < n ∧
      m.bindings.field set field = .ok (.float block values) ∧
      Word.bound ≤ (e + 1) * block.length
  | .locate pattern _ _ _ => m.resolution.pattern pattern = .error .abort
  | _ => False

/-- Somewhere in an expression an operation leaves its range. -/
def OverrunsIn (m : Machine α) (mem : Memory α) (e : Expr α) : Prop :=
  ∃ s ∈ e.subexprs, m.Overruns mem s

theorem Overruns.overrunsIn (h : m.Overruns mem e) : m.OverrunsIn mem e :=
  ⟨e, e.self_mem_subexprs, h⟩

theorem eval_fieldLoad {set : SetName} {field : FieldName} {element : Expr α} {n i : Nat}
    {data : FieldData α} (hn : m.resolution.size set = .ok n)
    (helement : m.eval mem element = .ok (.int i)) (hlt : i < n)
    (hfield : m.bindings.field set field = .ok data) :
    m.eval mem (.fieldLoad set field element) = fieldValue (.field set field) data i := by
  have hindex : (Value.int i : Value α).asIndex (.elementOf set) n = .ok i :=
    if_pos ⟨Int.natCast_nonneg i, by omega⟩
  rw [eval, hn, helement]
  change (Value.int i : Value α).asIndex (.elementOf set) n >>= _ = _
  rw [hindex]
  change m.bindings.field set field >>= _ = _
  rw [hfield]
  rfl

theorem Overruns.eval_eq_abort (h : m.Overruns mem e) : m.eval mem e = .error .abort := by
  cases e with
  | binary op lhs rhs =>
      obtain ⟨v, w, hv, hw, hover⟩ := h
      rw [eval, hv, hw]
      exact Value.operate_eq_abort_iff.2 hover
  | neg inner =>
      obtain ⟨n, hn, hfits⟩ := h
      rw [eval, hn]
      exact Value.ofInt_of_not_fits hfits
  | fieldLoad set field element =>
      obtain ⟨n, e, block, values, hn, he, hlt, hfield, hplace⟩ := h
      rw [eval_fieldLoad hn he hlt hfield]
      exact blockOfField_of_overflow hplace
  | locate pattern row col search =>
      have hpattern : m.resolution.pattern pattern = .error .abort := h
      rw [eval, hpattern]
      rfl
  | _ => exact h.elim

theorem settles_part {inner : Expr α} (he : e.Representable) (hsub : inner.subexprs ⊆ e.subexprs)
    (h : inner.Representable →
      (m.eval mem inner).Settles Value.Representable (m.OverrunsIn mem inner)) :
    (m.eval mem inner).Settles Value.Representable (m.OverrunsIn mem e) :=
  (h (he.mono hsub)).imp (fun _ hv => hv) fun ⟨s, hs, hover⟩ => ⟨s, hsub hs, hover⟩

/-- **Evaluation.** An expression comes to a value that a run can hold or to an error. It aborts
    only if somewhere in it an operation leaves its range. -/
theorem settles_eval (hm : m.Representable) (hmem : mem.Representable) (e : Expr α)
    (he : e.Representable) :
    (m.eval mem e).Settles Value.Representable (m.OverrunsIn mem e) := by
  -- by recursion on the expression: operands settle, and only the operation itself can overrun
  match e with
  | .literal value =>
      rw [eval]
      cases value with
      | float x => trivial
      | int n => exact he.self
      | bool b => trivial
      | block shape values => exact (Value.settles_blockOf he.self values).map fun _ _ => trivial
  | .var name =>
      rw [eval]
      exact Memory.settles_read hmem name
  | .endpointOf set element slot =>
      have helement := settles_part he (by simp [Expr.subexprs]) (settles_eval hm hmem element)
      rw [eval]
      refine settles_orFail_bind fun t ht => helement.bind fun _ _ _ => ?_
      exact settles_endpointValue (hm.tuples set t (orFail_eq_ok_iff.2 ht))
  | .fieldLoad set field element =>
      have helement := settles_part he (by simp [Expr.subexprs]) (settles_eval hm hmem element)
      rw [eval]
      refine settles_orFail_bind fun n hn => helement.bind fun v hv _ => ?_
      refine (Value.settles_asIndex _ _ v).bind fun i _ hi => ?_
      obtain ⟨rfl, hlt⟩ := hi
      refine (m.bindings.settles_field set field).bind fun data hdata _ => ?_
      refine (settles_fieldValue fun block values hfloat => ?_).imp (fun _ h => h) ?_
      · exact hm.blocks set field block values (hfloat ▸ hdata)
      · rintro ⟨block, values, rfl, hplace⟩
        exact Overruns.overrunsIn
          ⟨n, i, block, values, orFail_eq_ok_iff.2 hn, hv, hlt, hdata, hplace⟩
  | .field set field =>
      rw [eval]
      trivial
  | .binary op lhs rhs =>
      have hlhs := settles_part he (by simp [Expr.subexprs]) (settles_eval hm hmem lhs)
      have hrhs := settles_part he (by simp [Expr.subexprs]) (settles_eval hm hmem rhs)
      rw [eval]
      refine hlhs.bind fun v hv _ => hrhs.bind fun w hw _ => ?_
      exact (Value.settles_operate op v w).imp (fun _ h => h) fun hover =>
        Overruns.overrunsIn ⟨v, w, hv, hw, hover⟩
  | .neg inner =>
      have hinner := settles_part he (by simp [Expr.subexprs]) (settles_eval hm hmem inner)
      rw [eval]
      refine hinner.bind fun v hv _ => (Value.settles_neg v).imp (fun _ h => h) ?_
      rintro ⟨n, rfl, hfits⟩
      exact Overruns.overrunsIn ⟨n, hv, hfits⟩
  | .setSize set =>
      rw [eval]
      exact Settles.map (P := fun _ => True) (settles_orFail fun _ _ => trivial) fun n _ =>
        Value.representable_ofCount n
  | .locate pattern row col search =>
      have hrow := settles_part he (by simp [Expr.subexprs]) (settles_eval hm hmem row)
      have hcol := settles_part he (by simp [Expr.subexprs]) (settles_eval hm hmem col)
      have hpattern : (m.resolution.pattern pattern).Settles (fun _ => True)
          (m.OverrunsIn mem (.locate pattern row col search)) :=
        (m.resolution.settles_pattern pattern).abort_self.imp (fun _ h => h) fun habort =>
          Overruns.overrunsIn habort
      rw [eval]
      refine hpattern.bind fun p _ _ => hrow.bind fun v _ _ => ?_
      refine (Value.settles_asInt _ v).bind fun i _ _ => hcol.bind fun w _ _ => ?_
      exact (Value.settles_asInt _ w).bind fun j _ _ => representable_locateValue p search i j
  | .load buffer offset block =>
      have hoffset := settles_part he (by simp [Expr.subexprs]) (settles_eval hm hmem offset)
      rw [eval]
      refine hoffset.bind fun v _ hv => (Value.settles_asInt _ v).bind fun n _ hn => ?_
      subst hn
      refine settles_orFail_bind fun b _ => ?_
      exact (Buffer.reads_load hv he.self).settles
  | .sparseLoad buffer position block =>
      have hposition := settles_part he (by simp [Expr.subexprs]) (settles_eval hm hmem position)
      rw [eval]
      exact hposition.bind fun v _ _ => settles_sparseBlock he.self v
  -- what is only there before lowering comes to an error
  | .endpoint endpoints slot =>
      rw [eval]
      trivial
  | .elementField element field =>
      rw [eval]
      trivial
  | .index free body =>
      rw [eval]
      trivial
  | .indexed operand =>
      rw [eval]
      trivial
  | .tensorRead tensor indices position =>
      rw [eval]
      trivial
termination_by structural e

/-! ## Integers -/

theorem eval_binary_int {op : BinaryOp} {lhs rhs : Expr α} {x y : Int}
    (hlhs : m.eval mem lhs = .ok (.int x)) (hrhs : m.eval mem rhs = .ok (.int y)) :
    (∀ v, m.eval mem (.binary op lhs rhs) = .ok v ↔
      ∃ n, op.exactResult? x y = some n ∧ SignedWord.fits n = true ∧ v = .int n) ∧
    (m.Overruns mem (.binary op lhs rhs) ↔
      op ≠ .div ∧ ∃ n, op.exactResult? x y = some n ∧ SignedWord.fits n = false) := by
  refine ⟨fun v => ?_, ?_, fun hover => ⟨.int x, .int y, hlhs, hrhs, hover⟩⟩
  · rw [eval, hlhs, hrhs]
    exact Value.intOperation_eq_ok_iff
  · rintro ⟨v, w, hv, hw, hover⟩
    obtain rfl := Except.ok.inj (hlhs.symm.trans hv)
    obtain rfl := Except.ok.inj (hrhs.symm.trans hw)
    exact hover

theorem eval_neg_int {inner : Expr α} {x : Int} (hinner : m.eval mem inner = .ok (.int x)) :
    (∀ v, m.eval mem (.neg inner) = .ok v ↔ SignedWord.fits (-x) = true ∧ v = .int (-x)) ∧
    (m.Overruns mem (.neg inner) ↔ SignedWord.fits (-x) = false) := by
  refine ⟨fun v => ?_, ?_, fun hover => ⟨x, hinner, hover⟩⟩
  · rw [eval, hinner]
    exact Value.ofInt_eq_ok_iff
  · rintro ⟨n, hn, hover⟩
    obtain rfl := Value.int.inj (Except.ok.inj (hinner.symm.trans hn))
    exact hover

/-! ## Loads -/

/-- A load reads the slot that its operand points to, once this has come to an integer. -/
def ReadsSlot (m : Machine α) (mem : Memory α) : Expr α → Prop
  | .load buffer offset block => ∀ b x, mem.buffers.get? buffer = some b →
    m.eval mem offset = .ok (.int x) →
    Slot.Reads (m.eval mem (.load buffer offset block))
      (.indexOutOfBounds (.buffer buffer) x b.values.size) b.values x block
  | .sparseLoad buffer position block => ∀ b x, mem.buffers.get? buffer = some b →
    m.eval mem position = .ok (.int x) →
    Slot.Reads (m.eval mem (.sparseLoad buffer position block))
      (.indexOutOfBounds (.buffer buffer) (Slot.offsetOf x block.length) b.values.size) b.values
      (Slot.offsetOf x block.length) block
  | .fieldLoad set field element => ∀ (n e : Nat) (block : BlockShape) (values : Array α),
    m.resolution.size set = .ok n → m.eval mem element = .ok (.int e) → e < n →
    m.bindings.field set field = .ok (.float block values) →
    (e + 1) * block.length < Word.bound →
    Slot.Reads (m.eval mem (.fieldLoad set field element))
      (.indexOutOfBounds (.field set field) e (values.size / max block.length 1)) values
      ((e * block.length : Nat) : Int) block
  | _ => True

theorem readsSlot (hm : m.Representable) (hmem : mem.Representable) (he : e.Representable) :
    m.ReadsSlot mem e := by
  cases e with
  | load buffer offset block =>
      intro b x hb hoffset
      have hword : (Value.int x : Value α).Representable :=
        (settles_eval hm hmem offset (he.mono (by simp [Expr.subexprs]))).of_eq_ok hoffset
      rw [eval, hoffset]
      change Slot.Reads (mem.buffer buffer >>= _) _ _ _ _
      rw [Memory.buffer, hb]
      exact Buffer.reads_load hword he.self
  | sparseLoad buffer position block =>
      intro b x hb hposition
      rw [eval, hposition]
      change Slot.Reads (mem.buffer buffer >>= _) _ _ _ _
      rw [Memory.buffer, hb]
      exact Buffer.reads_loadAt he.self
  | fieldLoad set field element =>
      intro n e block values hn helement hlt hfield hplace
      rw [eval_fieldLoad hn helement hlt hfield]
      exact reads_blockOfField (hm.blocks set field block values hfield) hplace
  | _ => trivial

end Machine

end GraphTensor
