import GraphTensor.Lowering.Access
import GraphTensor.Proofs.Machine.Entries
import GraphTensor.Proofs.Machine.Inversion
import Mathlib.Algebra.BigOperators.Group.List.Lemmas
set_option autoImplicit false

/-! # Accesses at run time

The memory operations that an access is lowered to get at the entry that the access names
(`Buffer.entryAt?`): a load gives its block, and a store that adds adds to it.

The offset of a dense access is computed by an expression, from the indices and from extents that
are counts of sets. What it comes to is the row-major place of the indices as integers, in signed
words (`Machine.eval_offset`). Extents of a buffer that holds numbers are signed words, so the place
is the entry's; of a buffer without numbers every block is the same, which is why `Machine.entryAt?`
needs no extents where there are none. The position of a sparse access comes from a search, and a
search that finds nothing reads zeros. -/

namespace GraphTensor

variable {α : Type}

/-! ## Memories -/

/-- The descriptors suit the tensors of a machine's function. -/
structure Machine.Describes (m : Machine α) (storages : Storages) : Prop where
  /-- The patterns resolved beforehand are those that their references stand for. -/
  patterns : m.resolution.PatternsFit
  /-- The blocks agree. -/
  block : ∀ var type s, m.func.varType? var = some (.tensor type) → storages.get? var = some s →
    s.block = type.block
  /-- A pattern lies on the dimensions. -/
  sparse : ∀ var type s p, m.func.varType? var = some (.tensor type) → storages.get? var = some s →
    s.kind = .sparse p → type.dims = [.set p.rows, .set p.cols]
  /-- A register has no dimensions. -/
  register : ∀ var type s, m.func.varType? var = some (.tensor type) → storages.get? var = some s →
    s.kind = .register → type.dims = []

/-- The indices come to integers. -/
def Machine.Index [Scalar α] (m : Machine α) (mem : Memory α) (es : List (Expr α)) (xs : List Int) :
    Prop :=
  List.Forall₂ (fun e x => m.eval mem e = .ok (.int x)) es xs

namespace Machine

section

variable [Scalar α] {m : Machine α} {storages : Storages} {mem : Memory α}

theorem Laid.shaped (h : m.Laid storages mem) (hdescribes : m.Describes storages) {var : VarName}
    {type : TensorType} (htype : m.func.varType? var = some (.tensor type)) :
    ∃ s b, storages.get? var = some s ∧ s.block = type.block ∧ mem.buffers.get? var = some b ∧
      m.Shaped type.dims s b := by
  obtain ⟨s, zero, b, hs, hzero, hb, hlayout⟩ := h.tensor var type htype
  have hshaped := shaped_of_allocate hdescribes.patterns (fun p => hdescribes.sparse var type s p htype hs)
    (hdescribes.register var type s htype hs) hzero
  exact ⟨s, b, hs, hdescribes.block var type s htype hs, hb, hshaped.sameLayout hlayout⟩

/-- The extents of dimensions, where all of them are known. -/
def extents? (m : Machine α) (dims : List IndexDomain) : Option (List Nat) :=
  dims.mapM fun dim => (m.resolution.extent dim).toOption

omit [Scalar α] in
theorem Extents.extents?_eq {dims : List IndexDomain} {extents : List Nat}
    (h : m.Extents dims extents) : m.extents? dims = some extents := by
  induction h with
  | nil => rfl
  | cons hdim _ ih =>
      rw [extents?, List.mapM_cons, hdim]
      rw [extents?] at ih
      rw [ih]
      rfl

/-- The block of a tensor at integer indices, zero where nothing is stored. Extents matter to a dense
    tensor alone, whose buffer could not be there without them. -/
def entryAt? (m : Machine α) (mem : Memory α) (tensor : VarName) (indices : List Int) :
    Option (BlockValue α) := do
  let type ← m.func.tensorType? tensor
  let b ← mem.buffers.get? tensor
  b.entryAt? ((m.extents? type.dims).getD []) indices

theorem entryAt?_eq {tensor : VarName} {type : TensorType} {b : Buffer α}
    (htype : m.func.varType? tensor = some (.tensor type)) (hb : mem.buffers.get? tensor = some b)
    (indices : List Int) :
    m.entryAt? mem tensor indices = b.entryAt? ((m.extents? type.dims).getD []) indices := by
  simp [entryAt?, Func.tensorType?, htype, ValueType.asTensor?, hb]

end

/-! ## Addresses -/

section

variable [Scalar α] {m : Machine α} {mem : Memory α}

theorem eval_extentExpr {dim : IndexDomain} {n : Nat} (hn : m.resolution.extent dim = .ok n) :
    m.eval mem dim.extentExpr = .ok (.int (SignedWord.ofCount n)) := by
  cases dim with
  | set name =>
      have hn : m.resolution.size name = .ok n := hn
      rw [IndexDomain.extentExpr, eval, hn]
      rfl
  | dense extent =>
      obtain rfl := Except.ok.inj hn
      rfl

/-- An operation on values of which one is an integer comes to an integer. -/
theorem operate_eq_int {op : BinaryOp} {v w : Value α} {x : Int}
    (h : Value.operate op v w = .ok (.int x)) :
    ∃ a b, v = .int a ∧ w = .int b ∧ Value.intOperation op a b = (.ok (.int x) : Ran (Value α)) := by
  unfold Value.operate at h
  split at h
  · exact ⟨_, _, rfl, rfl, h⟩
  · obtain ⟨b, _, h⟩ := Outcome.bind_eq_ok_iff.1 h
    cases h
  · cases h

theorem operate_eq_block {op : BinaryOp} {v w : Value α} {x : BlockValue α}
    (h : Value.operate op v w = .ok (.block x)) : ∃ a b, v = .block a ∧ w = .block b := by
  unfold Value.operate at h
  split at h
  · next a b =>
      cases op with
      | div =>
          obtain ⟨_, _, h⟩ := Outcome.bind_eq_ok_iff.1 h
          cases h
      | _ =>
          obtain ⟨_, _, h⟩ := Outcome.bind_eq_ok_iff.1 h
          cases h
  · exact ⟨_, _, rfl, rfl⟩
  · cases h

theorem neg_eq_block {v : Value α} {x : BlockValue α} (h : v.neg = .ok (.block x)) :
    ∃ a, v = .block a := by
  cases v with
  | block a => exact ⟨a, rfl⟩
  | int n =>
      obtain ⟨_, _, h⟩ := Outcome.bind_eq_ok_iff.1 h
      cases h
  | bool b => cases h
  | miss => cases h

omit [Scalar α] in
theorem ofInt_eq_ok {n x : Int} (h : (Value.ofInt n : Ran (Value α)) = .ok (.int x)) : x = n := by
  obtain ⟨y, hy, h⟩ := Outcome.bind_eq_ok_iff.1 h
  obtain rfl := Value.int.inj (Except.ok.inj h)
  have hy := Outcome.orAbort_eq_ok_iff.1 hy
  unfold SignedWord.ofInt? at hy
  split at hy
  · exact (Option.some.inj hy).symm
  · cases hy

theorem eval_add_eq_int {l r : Expr α} {x : Int} (h : m.eval mem (.binary .add l r) = .ok (.int x)) :
    ∃ a b, m.eval mem l = .ok (.int a) ∧ m.eval mem r = .ok (.int b) ∧ x = a + b := by
  obtain ⟨v, w, hv, hw, h⟩ := eval_binary_eq_ok_iff.1 h
  obtain ⟨a, b, rfl, rfl, h⟩ := operate_eq_int h
  exact ⟨a, b, hv, hw, ofInt_eq_ok h⟩

theorem eval_mul_eq_int {l r : Expr α} {x : Int} (h : m.eval mem (.binary .mul l r) = .ok (.int x)) :
    ∃ a b, m.eval mem l = .ok (.int a) ∧ m.eval mem r = .ok (.int b) ∧ x = a * b := by
  obtain ⟨v, w, hv, hw, h⟩ := eval_binary_eq_ok_iff.1 h
  obtain ⟨a, b, rfl, rfl, h⟩ := operate_eq_int h
  exact ⟨a, b, hv, hw, ofInt_eq_ok h⟩

/-- A row-major place that is computed comes from integer indices. It is theirs if the extents are
    signed words. -/
theorem eval_rowMajorFrom {outer : Expr α} {es : List (Expr α)} {dims : List IndexDomain}
    {extents : List Nat} {place : Int} (hlength : es.length = dims.length)
    (hextents : m.Extents dims extents)
    (h : m.eval mem (rowMajorFrom outer es dims) = .ok (.int place)) :
    ∃ start xs, m.eval mem outer = .ok (.int start) ∧ m.Index mem es xs ∧
      ((∀ n ∈ extents, n < 2 ^ 63) →
        place = (xs.zip extents).foldl (fun place (index, extent) => place * extent + index) start) := by
  induction es generalizing outer dims extents with
  | nil => exact ⟨place, [], by simpa only [rowMajorFrom] using h, .nil, fun _ => by simp⟩
  | cons e es ih =>
      cases hextents with
      | nil => cases hlength
      | @cons dim n dims extents hn hrest =>
          rw [rowMajorFrom] at h
          obtain ⟨next, xs, hnext, hxs, hplace⟩ := ih (Nat.succ.inj hlength) hrest h
          obtain ⟨scaled, x, hscaled, hx, rfl⟩ := eval_add_eq_int hnext
          obtain ⟨start, extent, hstart, hextent, rfl⟩ := eval_mul_eq_int hscaled
          have hextent := Value.int.inj (Except.ok.inj (hextent.symm.trans (eval_extentExpr hn)))
          refine ⟨start, x :: xs, hstart, .cons hx hxs, fun hsmall => ?_⟩
          rw [hextent] at hplace
          rw [hplace fun n hn => hsmall n (List.mem_cons_of_mem _ hn), List.zip_cons_cons,
            List.foldl_cons, SignedWord.ofCount_of_lt (hsmall n (List.mem_cons_self ..))]

theorem eval_rowMajor {es : List (Expr α)} {dims : List IndexDomain} {extents : List Nat}
    {place : Int} (hlength : es.length = dims.length) (hextents : m.Extents dims extents)
    (h : m.eval mem (rowMajor es dims) = .ok (.int place)) :
    ∃ xs, m.Index mem es xs ∧ ((∀ n ∈ extents, n < 2 ^ 63) → place = rowMajorPlace extents xs) := by
  cases es with
  | nil =>
      refine ⟨[], .nil, fun _ => ?_⟩
      obtain rfl := Value.int.inj (Except.ok.inj h)
      rfl
  | cons e es =>
      cases hextents with
      | nil => cases hlength
      | @cons dim n dims extents hn hrest =>
          rw [rowMajor] at h
          obtain ⟨x, xs, hx, hxs, hplace⟩ := eval_rowMajorFrom (Nat.succ.inj hlength) hrest h
          refine ⟨x :: xs, .cons hx hxs, fun hsmall => ?_⟩
          rw [hplace fun n hn => hsmall n (List.mem_cons_of_mem _ hn), rowMajorPlace,
            List.zip_cons_cons, List.foldl_cons]
          simp only [Int.zero_mul, Int.zero_add]

/-- The offset of a dense access is the place of its indices times the length of a block, if extents
    and that length are signed words. -/
theorem eval_offset {type : TensorType} {block : BlockShape} {es : List (Expr α)} {e : Expr α}
    {extents : List Nat} {offset : Int} (he : AccessContext.offset type block es = .ok e)
    (hlength : es.length = type.dims.length) (hextents : m.Extents type.dims extents)
    (h : m.eval mem e = .ok (.int offset)) :
    ∃ xs, m.Index mem es xs ∧ ((∀ n ∈ extents, n < 2 ^ 63) → block.length < 2 ^ 63 →
      offset = rowMajorPlace extents xs * block.length) := by
  obtain ⟨length, hlen, he⟩ := Outcome.bind_eq_ok_iff.1 he
  obtain ⟨_, rfl⟩ := Word.ofNat?_eq_some_iff.1 (Outcome.orAbort_eq_ok_iff.1 hlen)
  obtain rfl := Except.ok.inj he
  by_cases hone : block.length = 1
  · rw [if_pos hone] at h
    obtain ⟨xs, hxs, hplace⟩ := eval_rowMajor hlength hextents h
    refine ⟨xs, hxs, fun hsmall _ => ?_⟩
    rw [hplace hsmall, hone, Nat.cast_one, Int.mul_one]
  · rw [if_neg hone] at h
    obtain ⟨place, n, hplace, hn, rfl⟩ := eval_mul_eq_int h
    obtain rfl := Value.int.inj (Except.ok.inj hn)
    obtain ⟨xs, hxs, hplace⟩ := eval_rowMajor hlength hextents hplace
    refine ⟨xs, hxs, fun hsmall hblock => ?_⟩
    rw [hplace hsmall, SignedWord.ofCount_of_lt hblock]

omit [Scalar α] in
/-- The extents of a dense buffer that holds numbers are signed words, and so is the length of its
    blocks. -/
theorem Shaped.extents_lt {dims : List IndexDomain} {s : TensorStorage} {values : Array α}
    {extents : List Nat} (h : m.Shaped dims s (.dense s.block values))
    (hextents : m.Extents dims extents) (hsize : values.size ≠ 0) :
    (∀ n ∈ extents, n < 2 ^ 63) ∧ s.block.length < 2 ^ 63 := by
  have hlt : values.size < 2 ^ 60 := h.size_lt
  cases h with
  | @dense _ extents' _ hextents' hvalues _ =>
      obtain rfl := hextents'.unique hextents
      have hprod : 0 < extents'.prod := Nat.pos_of_ne_zero fun hzero => hsize (by simp [hvalues, hzero])
      have hlength : 0 < s.block.length :=
        Nat.pos_of_ne_zero fun hzero => hsize (by simp [hvalues, hzero])
      have hle : extents'.prod ≤ values.size := hvalues ▸ Nat.le_mul_of_pos_right _ hlength
      have hle' : s.block.length ≤ values.size := hvalues ▸ Nat.le_mul_of_pos_left _ hprod
      refine ⟨fun n hn => ?_, by omega⟩
      have hdvd := Nat.le_of_dvd hprod (List.dvd_prod hn)
      omega

/-! ## Reads -/

section

variable {tensor : VarName} {dims : List IndexDomain} {type : TensorType} {s : TensorStorage}
  {b : Buffer α}

omit [Scalar α] in
theorem asInt_eq_ok {place : Place} {v : Value α} {x : Int} (h : v.asInt place = .ok x) :
    v = .int x := by
  unfold Value.asInt at h
  split at h
  · rw [Except.ok.inj h]
  · cases h

omit [Scalar α] in
theorem asBlock_eq_ok {place : Place} {v : Value α} {x : BlockValue α}
    (h : v.asBlock place = .ok x) : v = .block x := by
  unfold Value.asBlock at h
  split at h
  · rw [Except.ok.inj h]
  · cases h

theorem eval_asInt_eq_ok {β : Type} {place : Place} {e : Expr α} {f : Int → Ran β} {r : β}
    (h : (do let v ← m.eval mem e; let x ← v.asInt place; f x) = .ok r) :
    ∃ x, m.eval mem e = .ok (.int x) ∧ f x = .ok r := by
  obtain ⟨v, hv, hrest⟩ := Outcome.bind_eq_ok_iff.1 h
  obtain ⟨x, hx, hf⟩ := Outcome.bind_eq_ok_iff.1 hrest
  exact ⟨x, asInt_eq_ok hx ▸ hv, hf⟩

theorem eval_asBlock_eq_ok {β : Type} {place : Place} {e : Expr α} {f : BlockValue α → Ran β}
    {r : β} (h : (do let v ← m.eval mem e; let x ← v.asBlock place; f x) = .ok r) :
    ∃ x, m.eval mem e = .ok (.block x) ∧ f x = .ok r := by
  obtain ⟨v, hv, hrest⟩ := Outcome.bind_eq_ok_iff.1 h
  obtain ⟨x, hx, hf⟩ := Outcome.bind_eq_ok_iff.1 hrest
  exact ⟨x, asBlock_eq_ok hx ▸ hv, hf⟩

omit [Scalar α] in
theorem buffer_eq_ok {β : Type} {f : Buffer α → Ran β} {r : β}
    (hb : mem.buffers.get? tensor = some b) (h : mem.buffer tensor >>= f = .ok r) : f b = .ok r := by
  obtain ⟨found, hfound, hf⟩ := Outcome.bind_eq_ok_iff.1 h
  obtain rfl : b = found := Option.some.inj (hb.symm.trans (Outcome.orFail_eq_ok_iff.1 hfound))
  exact hf

/-- A load at the offset of indices gives the entry there. -/
theorem entryAt?_of_load {es : List (Expr α)} {offset : Expr α} {v : Value α}
    (hkind : s.kind = .dense) (hb : mem.buffers.get? tensor = some b)
    (hshaped : m.Shaped type.dims s b) (he : AccessContext.offset type s.block es = .ok offset)
    (hlength : es.length = type.dims.length)
    (h : m.eval mem (.load tensor offset s.block) = .ok v) :
    ∃ xs value, m.Index mem es xs ∧ v = .block value ∧
      b.entryAt? ((m.extents? type.dims).getD []) xs = some value := by
  rw [eval] at h
  obtain ⟨o, ho, hload⟩ := eval_asInt_eq_ok h
  obtain ⟨value, hvalue, hv⟩ := Outcome.bind_eq_ok_iff.1 (buffer_eq_ok hb hload)
  obtain rfl := Except.ok.inj hv
  obtain ⟨values, extents, rfl, hextents, hsize⟩ := hshaped.of_dense hkind
  obtain ⟨xs, hxs, hplace⟩ := eval_offset he hlength hextents ho
  refine ⟨xs, value, hxs, rfl, ?_⟩
  rw [hextents.extents?_eq, Option.getD_some]
  refine Buffer.blockAt?_of_load (rowMajorPlace extents xs) (fun hnonempty => ?_) hvalue
  -- a block that holds numbers has been found in the buffer
  have hvalues : values.size ≠ 0 := by
    obtain ⟨_, hlen, hrest⟩ := Outcome.bind_eq_ok_iff.1 hvalue
    obtain ⟨_, rfl⟩ := Word.ofNat?_eq_some_iff.1 (Outcome.orAbort_eq_ok_iff.1 hlen)
    obtain ⟨start, hstart, _⟩ := Outcome.bind_eq_ok_iff.1 hrest
    have hinside : start + s.block.length ≤ values.size := (Slot.locate_eq_ok hstart).2
    have hnonempty : s.block.length ≠ 0 := hnonempty
    omega
  obtain ⟨hsmall, hblock⟩ :=
    hshaped.extents_lt hextents hvalues
  exact hplace hsmall hblock

/-- The block of a sparse buffer at a position, zero where a search found nothing. -/
def blockOn? (b : Buffer α) : Value α → Option (BlockValue α)
  | .miss => some (.zeros b.block)
  | .int position => b.blockAt? position.toNat
  | _ => none

omit [Scalar α] in
/-- The positions of a pattern whose blocks hold numbers are signed words. -/
theorem Shaped.position_lt {q : Pattern} {values : Array α} {position : Nat}
    (h : m.Shaped dims s (.sparse ⟨q, values, s.block⟩)) (hposition : position < q.stored)
    (hnonempty : s.block.length ≠ 0) : position < 2 ^ 63 := by
  have hlt : values.size < 2 ^ 60 := h.size_lt
  cases h with
  | sparse _ _ _ _ hsize _ =>
      have hle : q.stored ≤ values.size :=
        hsize ▸ Nat.le_mul_of_pos_right _ (Nat.pos_of_ne_zero hnonempty)
      omega

theorem Shaped.blockOn?_ofCount {q : Pattern} {values : Array α} {position : Nat}
    (h : m.Shaped dims s (.sparse ⟨q, values, s.block⟩)) (hposition : position < q.stored) :
    blockOn? (.sparse ⟨q, values, s.block⟩) (.ofCount position) =
      Buffer.blockAt? (.sparse ⟨q, values, s.block⟩) position := by
  by_cases hempty : s.block.length = 0
  · exact Buffer.blockAt?_of_empty (b := .sparse ⟨q, values, s.block⟩) hempty _ _
  · rw [Value.ofCount, SignedWord.ofCount_of_lt (h.position_lt hposition hempty), blockOn?,
      Int.toNat_natCast]

/-- A load at a position gives the block there. -/
theorem blockOn?_of_sparseLoad {position : Expr α} {v : Value α}
    (hb : mem.buffers.get? tensor = some b) (hshaped : m.Shaped dims s b)
    (h : m.eval mem (.sparseLoad tensor position s.block) = .ok v) :
    ∃ place value, m.eval mem position = .ok place ∧ v = .block value ∧
      blockOn? b place = some value := by
  obtain ⟨place, hplace, hload⟩ := eval_sparseLoad_eq_ok_iff.1 h
  unfold sparseBlock at hload
  split at hload
  · obtain ⟨value, hvalue, hv⟩ := Outcome.bind_eq_ok_iff.1 hload
    obtain rfl := Except.ok.inj hv
    obtain ⟨_, _, hzeros⟩ := Option.map_eq_some_iff.1 (Outcome.orAbort_eq_ok_iff.1 hvalue)
    exact ⟨_, value, hplace, rfl, by rw [blockOn?, hshaped.block_eq, hzeros]⟩
  · obtain ⟨k, hk, hload⟩ := Outcome.bind_eq_ok_iff.1 hload
    obtain ⟨value, hvalue, hv⟩ := Outcome.bind_eq_ok_iff.1 (buffer_eq_ok hb hload)
    obtain rfl := Except.ok.inj hv
    rw [asInt_eq_ok hk] at hplace
    refine ⟨_, value, hplace, rfl, ?_⟩
    rw [← hshaped.block_eq] at hvalue
    exact Buffer.blockAt?_of_loadAt (hshaped.size_lt.trans (by decide)) hvalue

/-- The integers in a search and what it comes to. -/
theorem eval_locate_eq_ok {p : PatternRef} {q : Pattern} {row col : Expr α} {search : Search}
    {v : Value α} (hq : m.resolution.pattern p = .ok q)
    (h : m.eval mem (.locate p row col search) = .ok v) :
    ∃ x y, m.Index mem [row, col] [x, y] ∧ v = locateValue q search x y := by
  rw [eval, hq] at h
  obtain ⟨x, hx, hcol⟩ := eval_asInt_eq_ok h
  obtain ⟨y, hy, hv⟩ := eval_asInt_eq_ok hcol
  exact ⟨x, y, .cons hx (.cons hy .nil), (Except.ok.inj hv).symm⟩

/-- A load where a search finds the indices gives the entry there. -/
theorem entryAt?_of_locate {p : PatternRef} {row col : Expr α} {search : Search} {v : Value α}
    (extents : List Nat) (hkind : s.kind = .sparse p) (hb : mem.buffers.get? tensor = some b)
    (hshaped : m.Shaped dims s b)
    (h : m.eval mem (.sparseLoad tensor (.locate p row col search) s.block) = .ok v) :
    ∃ xs value, m.Index mem [row, col] xs ∧ v = .block value ∧ b.entryAt? extents xs = some value := by
  obtain ⟨place, value, hplace, rfl, hvalue⟩ := blockOn?_of_sparseLoad hb hshaped h
  obtain ⟨q, values, rfl, _, hq, hvalid⟩ := hshaped.of_sparse hkind
  obtain ⟨x, y, hindex, rfl⟩ := eval_locate_eq_ok hq hplace
  refine ⟨[x, y], value, hindex, rfl, ?_⟩
  rw [locateValue_eq hvalid] at hvalue
  have hplace : (Buffer.sparse ⟨q, values, s.block⟩).place? extents [x, y] =
      q.positionAt? [x, y] := rfl
  cases hposition : q.positionAt? [x, y] with
  | none =>
      rw [hposition] at hvalue
      rw [Buffer.entryAt?, hplace, hposition]
      exact hvalue
  | some k =>
      rw [Buffer.entryAt?, hplace, hposition]
      rw [hposition, hshaped.blockOn?_ofCount
        (hvalid.lt_stored_of_positionAt? hposition)] at hvalue
      exact hvalue

omit [Scalar α] in
/-- The block of a register stands at its only place. -/
theorem blockAt?_register (value : BlockValue α) : Buffer.blockAt? (.register value) 0 = some value := by
  refine Buffer.blockAt?_eq_some rfl ?_
  show value.data = Slot.read value.data (0 * value.shape.length) value.shape.length
  rw [← value.size_data, Nat.zero_mul, Slot.read, Nat.zero_add, Array.extract_size]

omit [Scalar α] in
/-- A block that is read under the name of a buffer is that of a register. -/
theorem buffer_of_read {value : BlockValue α} (hhidden : mem.IndicesOverBuffers)
    (hb : mem.buffers.get? tensor = some b) (h : mem.read tensor = .ok (.block value)) :
    b = .register value := by
  unfold Memory.read at h
  cases hlocal : mem.locals.get? tensor with
  | some found =>
      rw [hlocal] at h
      obtain ⟨n, rfl⟩ := hhidden tensor b found hb hlocal
      cases h
  | none =>
      rw [hlocal, hb] at h
      cases b with
      | register block =>
          cases h
          rfl
      | dense block values => cases h
      | sparse matrix => cases h

/-! ## Writes -/

/-- A store that adds at the offset of an index tuple adds to the block at its place. -/
theorem exec_store {mem' : Memory α} {es : List (Expr α)} {offset value : Expr α}
    (hkind : s.kind = .dense) (hb : mem.buffers.get? tensor = some b)
    (hshaped : m.Shaped type.dims s b) (he : AccessContext.offset type s.block es = .ok offset)
    (hlength : es.length = type.dims.length)
    (h : m.exec (.store tensor offset value true) mem = .ok mem') :
    ∃ xs v, m.Index mem es xs ∧ m.eval mem value = .ok (.block v) ∧ v.shape = s.block ∧
      ∀ (indices : List Nat) (place : Nat),
        (∀ extents, m.Extents type.dims extents → WithinExtents extents indices) →
        xs = indices.map SignedWord.ofCount →
        b.place? ((m.extents? type.dims).getD []) (indices.map Nat.cast) = some place →
        mem' = mem.withBuffer tensor (b.addAt place v) := by
  obtain ⟨_, o, _, v, ho, hint, hv, hblock, hstore⟩ := exec_store_eq_ok_iff.1 h
  obtain rfl := asInt_eq_ok hint
  obtain rfl := asBlock_eq_ok hblock
  obtain ⟨found, b', hfound, hb', rfl⟩ := store_eq_ok_iff.1 hstore
  obtain ⟨values, extents, rfl, hextents, hsize⟩ := hshaped.of_dense hkind
  obtain ⟨hblock, rfl⟩ := Buffer.dense.inj (Option.some.inj (hb.symm.trans hfound))
  rw [← hblock] at hb'
  have hshape : v.shape = s.block := hblock.symm
  obtain ⟨xs, hxs, hplace⟩ := eval_offset he hlength hextents ho
  refine ⟨xs, v, hxs, hv, hshape, ?_⟩
  rintro indices place hwithin rfl hplace'
  rw [hextents.extents?_eq, Option.getD_some] at hplace'
  obtain rfl := Option.some.inj hplace'
  rw [rowMajorPlace_natCast, Int.toNat_natCast]
  refine congrArg _ (Buffer.eq_addAt_of_store hshape (fun hnonempty => ?_) hb').2
  have hvalues : values.size ≠ 0 := by
    obtain ⟨start, hstart, _⟩ := Outcome.bind_eq_ok_iff.1 hb'
    have hinside : start + v.shape.length ≤ values.size := (Slot.locate_eq_ok hstart).2
    have hnonempty : s.block.length ≠ 0 := hnonempty
    rw [hshape] at hinside
    omega
  obtain ⟨hsmall, hblock⟩ :=
    hshaped.extents_lt hextents hvalues
  rw [hplace hsmall hblock, (hwithin extents hextents).map_ofCount hsmall,
    rowMajorPlace_natCast]
  rfl

/-- A sparse store that adds at a position of the pattern adds to the block there. -/
theorem exec_sparseStore {mem' : Memory α} {q : Pattern} {values : Array α}
    {position value : Expr α} (hb : mem.buffers.get? tensor = some (.sparse ⟨q, values, s.block⟩))
    (hshaped : m.Shaped dims s (.sparse ⟨q, values, s.block⟩))
    (h : m.exec (.sparseStore tensor position value true s.block) mem = .ok mem') :
    ∃ x v, m.eval mem position = .ok (.int x) ∧ m.eval mem value = .ok (.block v) ∧
      v.shape = s.block ∧ ∀ place < q.stored, x = SignedWord.ofCount place →
        mem' = mem.withBuffer tensor (Buffer.addAt (.sparse ⟨q, values, s.block⟩) place v) := by
  obtain ⟨w, x, _, v, hw, hx, hv, hblock, hshape, hstore⟩ := exec_sparseStore_eq_ok_iff.1 h
  obtain rfl := asBlock_eq_ok hblock
  obtain ⟨matrix, b', hfound, hb', rfl⟩ := sparseStore_eq_ok_iff.1 hstore
  obtain rfl := Buffer.sparse.inj (Option.some.inj (hb.symm.trans hfound))
  have hint : w = .int x := by
    unfold storePosition at hx
    split at hx
    · cases hx
    · exact asInt_eq_ok hx
  refine ⟨x, v, hint ▸ hw, hv, hshape, ?_⟩
  intro place hplace hxplace
  rw [hxplace] at hb'
  exact congrArg _ (Buffer.eq_addAt_of_storeAt (hshaped.size_lt.trans (by decide)) hshape
    (hshaped.position_lt hplace) hb').2

/-- The numbers that fill a buffer are those of the value, unless that is another tensor or a whole
    field. -/
theorem fillers_eq_ok {value : Expr α} {data : Array α}
    (hfield : ∀ set field, value ≠ .field set field)
    (hvar : ∀ name, value = .var name → mem.buffers.get? name = none)
    (h : m.fillers mem tensor value = .ok data) :
    ∃ w, m.eval mem value = .ok (.block w) ∧ w.data = data := by
  have hevaluated : (do
      let v ← m.eval mem value
      let w ← v.asBlock (.assignment tensor)
      return w.data) = (.ok data : Ran (Array α)) := by
    unfold fillers at h
    split at h
    · next set field => exact absurd rfl (hfield set field)
    · next name =>
        rw [hvar name rfl] at h
        exact h
    · exact h
  obtain ⟨w, hw, hdata⟩ := eval_asBlock_eq_ok hevaluated
  exact ⟨w, hw, Except.ok.inj hdata⟩

/-- Adding to a register adds the numbers that fill it, as many as its block has. -/
theorem exec_accumulate {mem' : Memory α} {value : Expr α} {old : BlockValue α}
    (hb : mem.buffers.get? tensor = some (.register old))
    (h : m.exec (.accumulate tensor value) mem = .ok mem') :
    ∃ data, m.fillers mem tensor value = .ok data ∧ ∃ hsize : data.size = old.shape.length,
      mem' = mem.withBuffer tensor (Buffer.addAt (.register old) 0 ⟨old.shape, data, hsize⟩) := by
  rw [exec, assign, hb] at h
  obtain ⟨data, hdata, hsize, rfl⟩ := fill_eq_ok_iff.1 h
  refine ⟨data, hdata, hsize.symm.trans old.size_data, ?_⟩
  rw [Buffer.addAt, Nat.zero_mul]

end

end

end Machine

end GraphTensor
