import GraphTensor.Proofs.Lowering.Addresses
import GraphTensor.Proofs.Lowering.Runs
import GraphTensor.Proofs.Machine.Tuples
import GraphTensor.Proofs.Scalar
import Mathlib.Algebra.Order.Ring.Rat
set_option autoImplicit false

/-! # Accesses of dense tensors

A dense tensor has a block for each index tuple, in row-major order. An access computes the place of
its indices in signed words (`offsetWord?`) and checks the slot there against the whole buffer, not
each index against its own extent. So an access at indices in range gets at the block of its tuple
and at nothing else (`Machine.GetsAt`), and one whose place lies outside the buffer is refused
(`Machine.Refuses`). An index that is out of range in another dimension than the first may still
have a place in the buffer, which is that of another tuple. -/

namespace GraphTensor

variable {α : Type} [Scalar α]

/-! ## Offsets -/

namespace Machine

variable {m : Machine α} {mem : Memory α}

theorem eval_rowMajorStep {outer extent index : Expr α} {start n x : Int}
    (houter : m.eval mem outer = .ok (.int start)) (hextent : m.eval mem extent = .ok (.int n))
    (hindex : m.eval mem index = .ok (.int x)) :
    m.eval mem (.binary .add (.binary .mul outer extent) index) =
      (Outcome.orAbort ((SignedWord.ofInt? (start * n)).bind fun scaled =>
        SignedWord.ofInt? (scaled + x))).map Value.int := by
  have hscaled : m.eval mem (.binary .mul outer extent) = Value.ofInt (start * n) := by
    rw [eval, houter, hextent]
    rfl
  rw [eval, hscaled, hindex, Value.ofInt]
  cases SignedWord.ofInt? (start * n) with
  | none => rfl
  | some scaled => rfl

/-- A row-major place is computed in signed words, from one index to the next. -/
theorem eval_rowMajorFrom_eq {outer : Expr α} {es : List (Expr α)} {dims : List IndexDomain}
    {extents : List Nat} {start : Option Int} {xs : List Int} (hxs : m.Index mem es xs)
    (hextents : m.Extents dims extents)
    (houter : m.eval mem outer = (Outcome.orAbort start).map Value.int) :
    m.eval mem (rowMajorFrom outer es dims) =
      (Outcome.orAbort (start.bind fun start => rowMajorWord? start xs extents)).map Value.int := by
  induction hxs generalizing outer dims extents start with
  | nil =>
      have hstart : (start.bind fun start => rowMajorWord? start [] extents) = start := by
        cases start <;> simp [rowMajorWord?]
      rw [hstart]
      simpa only [rowMajorFrom] using houter
  | @cons e x es xs hx _ ih =>
      cases hextents with
      | nil =>
          have hstart : (start.bind fun start => rowMajorWord? start (x :: xs) []) = start := by
            cases start <;> simp [rowMajorWord?]
          rw [hstart]
          simpa only [rowMajorFrom] using houter
      | @cons dim n dims extents hn hrest =>
          have hnext : m.eval mem (.binary .add (.binary .mul outer dim.extentExpr) e) =
              (Outcome.orAbort (start.bind fun start =>
                (SignedWord.ofInt? (start * SignedWord.ofCount n)).bind fun scaled =>
                  SignedWord.ofInt? (scaled + x))).map Value.int := by
            cases start with
            | none =>
                rw [eval, eval, houter]
                rfl
            | some start => exact eval_rowMajorStep houter (eval_extentExpr hn) hx
          rw [rowMajorFrom, ih hrest hnext]
          cases start with
          | none => rfl
          | some start => simp only [Option.bind_some, Option.bind_assoc, rowMajorWord?,
              Option.bind_eq_bind]

/-- **Offsets of dense accesses.** The offset of an access at integer indices is computed in signed
    words, and leaving them is an abort. -/
theorem eval_offset_eq {type : TensorType} {block : BlockShape} {es : List (Expr α)} {e : Expr α}
    {extents : List Nat} {xs : List Int} (he : AccessContext.offset type block es = .ok e)
    (hxs : m.Index mem es xs) (hextents : m.Extents type.dims extents) :
    m.eval mem e = (Outcome.orAbort (offsetWord? extents block.length xs)).map Value.int := by
  obtain ⟨length, hlength, he⟩ := Outcome.bind_eq_ok_iff.1 he
  obtain ⟨_, rfl⟩ := Word.ofNat?_eq_some_iff.1 (Outcome.orAbort_eq_ok_iff.1 hlength)
  obtain rfl := Except.ok.inj he
  have hplace : m.eval mem (rowMajor es type.dims) =
      (Outcome.orAbort (placeWord? xs extents)).map Value.int := by
    cases hxs with
    | nil => rfl
    | @cons e x es xs hx hrest =>
        generalize type.dims = dims at hextents
        cases hextents with
        | nil => rfl
        | @cons dim n dims extents _ hextents =>
            have hfirst : m.eval mem e = (Outcome.orAbort (some x)).map Value.int := hx
            exact m.eval_rowMajorFrom_eq hrest hextents hfirst
  rw [offsetWord?]
  by_cases hone : block.length = 1
  · simpa [hone] using hplace
  · simp only [hone, if_false]
    rw [eval, hplace]
    cases placeWord? xs extents with
    | none => rfl
    | some place => rfl

theorem Index.unique {es : List (Expr α)} {xs ys : List Int} (hxs : m.Index mem es xs)
    (hys : m.Index mem es ys) : xs = ys := by
  induction hxs generalizing ys with
  | nil =>
      cases hys
      rfl
  | cons hx _ ih =>
      cases hys with
      | cons hy hrest => rw [Value.int.inj (Except.ok.inj (hx.symm.trans hy)), ih hrest]

/-- Where the place of the indices lies outside a buffer of blocks, an offset that is computed is
    that of a slot outside the buffer. -/
theorem outside_of_offPlace {type : TensorType} {s : TensorStorage} {values : Array α}
    {es : List (Expr α)} {e : Expr α} {extents : List Nat} {xs : List Int} {offset : Int}
    (hshaped : m.Shaped type.dims s (.dense s.block values)) (hextents : m.Extents type.dims extents)
    (he : AccessContext.offset type s.block es = .ok e) (hcount : es.length = type.dims.length)
    (hnonempty : s.block.length ≠ 0) (hxs : m.Index mem es xs) (hoff : OffPlace extents xs)
    (hoffset : m.eval mem e = .ok (.int offset)) :
    offset < 0 ∨ (values.size : Int) < offset + s.block.length := by
  by_cases hsize : values.size = 0
  · omega
  · obtain ⟨hsmall, hword⟩ := hshaped.extents_lt hextents hsize
    obtain ⟨ys, hys, hplace⟩ := eval_offset he hcount hextents hoffset
    obtain rfl := hxs.unique hys
    cases hshaped with
    | @dense _ extents' _ hextents' hvalues _ =>
        obtain rfl := hextents'.unique hextents
        rw [hplace hsmall hword, hvalues]
        rcases hoff with hneg | hpast
        · exact Or.inl (Int.mul_neg_of_neg_of_pos hneg (by omega))
        · right
          have hrow : (extents'.prod : Int) * s.block.length ≤
              rowMajorPlace extents' xs * s.block.length :=
            Int.mul_le_mul_of_nonneg_right hpast (by omega)
          rw [Nat.cast_mul]
          omega

/-! ## Reads and writes -/

/-- A read and a write get at the block at a place of a buffer: the read gives it, and a write of a
    block of its shape replaces it, or adds to it, and leaves all others as they are. -/
structure GetsAt (m : Machine α) (mem : Memory α) (tensor : VarName) (b : Buffer α) (place : Nat)
    (read : Expr α) (write : Stmt α) (value : Expr α) (accumulate : Bool) : Prop where
  /-- The read gives the block. -/
  read : ∃ v, b.blockAt? place = some v ∧ m.eval mem read = .ok (.block v)
  /-- The write changes that block alone. -/
  write : ∀ v, m.eval mem value = .ok (.block v) → v.shape = b.block →
    ∃ b', m.exec write mem = .ok (mem.withBuffer tensor b') ∧ b.SameLayout b' ∧
      ∀ other, b'.blockAt? other =
        if other = place then if accumulate then (b.blockAt? place).bind (·.add? v) else some v
        else b.blockAt? other

/-- A read and a write of a block fail in the same way. -/
structure Refuses (m : Machine α) (mem : Memory α) (read : Expr α) (write : Stmt α)
    (value : Expr α) (block : BlockShape) (fault : Fault RunError) : Prop where
  /-- The read fails. -/
  read : m.eval mem read = .error fault
  /-- The write fails. -/
  write : ∀ v, m.eval mem value = .ok (.block v) → v.shape = block →
    m.exec write mem = .error fault

theorem exec_dense_store {tensor : VarName} {block : BlockShape} {values : Array α}
    {offset value : Expr α} {accumulate : Bool} {o : Int} {v : BlockValue α}
    (hb : mem.buffers.get? tensor = some (.dense block values))
    (ho : m.eval mem offset = .ok (.int o)) (hv : m.eval mem value = .ok (.block v))
    (hshape : v.shape = block) :
    m.exec (.store tensor offset value accumulate) mem =
      ((Buffer.dense block values).store tensor o v accumulate).map (mem.withBuffer tensor) := by
  have hbuffer : mem.buffer tensor = .ok (.dense block values) := by
    rw [Memory.buffer, hb]
    rfl
  have hcheck : checkBlock tensor block v = .ok () :=
    Outcome.failIf_eq_ok_iff.2 (by simp [hshape])
  rw [exec, ho, hv]
  show store mem tensor o v accumulate = _
  rw [store, hbuffer]
  show (checkBlock tensor block v >>= fun _ => _) = _
  rw [hcheck]
  rfl

theorem eval_dense_load {tensor : VarName} {b : Buffer α} {offset : Expr α} {block : BlockShape}
    {o : Int} (hb : mem.buffers.get? tensor = some b) (ho : m.eval mem offset = .ok (.int o)) :
    m.eval mem (.load tensor offset block) = (b.load tensor o block).map Value.block := by
  have hbuffer : mem.buffer tensor = .ok b := by
    rw [Memory.buffer, hb]
    rfl
  rw [eval, ho]
  show (mem.buffer tensor >>= fun b => _) = _
  rw [hbuffer]
  rfl

end Machine

/-! ## Lowered accesses -/

omit [Scalar α] in
theorem AccessContext.Addresses.of_dense {c : AccessContext α} {tensor : VarName}
    {s : TensorStorage} {indices : List (Expr α)} {position : Option VarName}
    {address : Address α} (h : c.Addresses tensor s indices position address)
    (hkind : s.kind = .dense) :
    ∃ type es offset, c.func.tensorType? tensor = some type ∧ indices.length = type.rank ∧
      c.lowerExprs indices = .ok es ∧ AccessContext.offset type s.block es = .ok offset ∧
      address = .dense offset s.block := by
  cases h with
  | dense _ htype hcount hes hoffset => exact ⟨_, _, _, htype, hcount, hes, hoffset, rfl⟩
  | position hother => cases hkind.symm.trans hother
  | search hother => cases hkind.symm.trans hother
  | register hother => cases hkind.symm.trans hother

theorem Machine.Laid.dense {m : Machine α} {storages : Storages} {mem : Memory α}
    (h : m.Laid storages mem) {tensor : VarName} {type : TensorType} {s : TensorStorage}
    (htype : m.func.varType? tensor = some (.tensor type)) (hs : storages.get? tensor = some s)
    (hkind : s.kind = .dense) :
    ∃ values extents, mem.buffers.get? tensor = some (.dense s.block values) ∧
      m.Extents type.dims extents ∧ m.Shaped type.dims s (.dense s.block values) := by
  obtain ⟨s', zero, b, hs', hzero, hb, hlayout⟩ := h.tensor tensor type htype
  obtain rfl := Option.some.inj (hs.symm.trans hs')
  have hshaped := (Machine.shaped_of_allocate_dense hkind hzero).sameLayout hlayout
  cases hshaped with
  | @dense values extents _ hextents hsize hroom =>
      exact ⟨values, extents, hb, hextents, .dense hkind hextents hsize hroom⟩
  | sparse hother => cases hkind.symm.trans hother
  | register hother => cases hkind.symm.trans hother

omit [Scalar α] in
theorem Machine.Shaped.size_eq {m : Machine α} {dims : List IndexDomain} {s : TensorStorage}
    {values : Array α} {extents : List Nat} (h : m.Shaped dims s (.dense s.block values))
    (hextents : m.Extents dims extents) : values.size = extents.prod * s.block.length := by
  cases h with
  | dense _ hextents' hsize _ => rw [hsize, hextents'.unique hextents]

/-- How an access at integer indices fails whose slot is not in a buffer: out of bounds, or with an
    abort if its offset is no signed word. -/
def offsetFault (tensor : VarName) (size : Nat) (extents : List Nat) (length : Nat)
    (xs : List Int) : Fault RunError :=
  match offsetWord? extents length xs with
  | some offset => .error (.indexOutOfBounds (.buffer tensor) offset size)
  | none => .abort

namespace Machine

variable {m : Machine α} {mem : Memory α} {tensor : VarName} {block : BlockShape}
  {values : Array α} {offset value : Expr α} {accumulate : Bool}

/-- An access whose offset is that of a place in the buffer gets at the block there. -/
theorem getsAt_of_offset {place : Nat} (hb : mem.buffers.get? tensor = some (.dense block values))
    (hroom : (Buffer.dense block values).HasRoom place) (hbound : values.size < Word.bound)
    (ho : m.eval mem offset = .ok (.int ((place * block.length : Nat) : Int))) :
    m.GetsAt mem tensor (.dense block values) place ((Address.dense offset block).read tensor)
      ((Address.dense offset block).write tensor value accumulate) value accumulate where
  read := by
    obtain ⟨v, hload, hv⟩ := Buffer.load_of_hasRoom tensor hroom hbound
    refine ⟨v, hv, ?_⟩
    rw [Address.read, eval_dense_load hb ho]
    exact congrArg _ hload
  write := fun v hv hshape => by
    refine ⟨_, ?_, Buffer.sameLayout_writeAt _ place v accumulate,
      Buffer.blockAt?_writeAt hshape hroom accumulate⟩
    rw [Address.write, exec_dense_store hb ho hv hshape]
    exact congrArg _ (Buffer.store_of_hasRoom hshape hroom hbound accumulate)

/-- An access whose offset is that of no slot of the buffer, or is no signed word, is refused. -/
theorem refuses_of_offset {extents : List Nat} {xs : List Int}
    (hb : mem.buffers.get? tensor = some (.dense block values))
    (ho : m.eval mem offset = (Outcome.orAbort (offsetWord? extents block.length xs)).map Value.int)
    (hword : block.length < 2 ^ 63)
    (houtside : ∀ o, offsetWord? extents block.length xs = some o →
      o < 2 ^ 63 ∧ (o < 0 ∨ (values.size : Int) < o + block.length)) :
    m.Refuses mem ((Address.dense offset block).read tensor)
      ((Address.dense offset block).write tensor value accumulate) value block
      (offsetFault tensor values.size extents block.length xs) := by
  unfold offsetFault
  cases hoffset : offsetWord? extents block.length xs with
  | none =>
      rw [hoffset] at ho
      refine ⟨?_, fun v _ _ => ?_⟩
      · rw [Address.read, eval, ho]
        rfl
      · rw [Address.write, exec, ho]
        rfl
  | some o =>
      rw [hoffset] at ho
      obtain ⟨hlt, hslot⟩ := houtside o hoffset
      refine ⟨?_, fun v hv hshape => ?_⟩
      · rw [Address.read, eval_dense_load hb ho]
        exact congrArg _ (Buffer.load_outside (b := .dense block values) hlt hword hslot)
      · rw [Address.write, exec_dense_store hb ho hv hshape]
        exact congrArg _ (Buffer.store_outside (b := .dense block values) hlt hword hshape hslot)

end Machine

namespace AccessContext

variable {c : AccessContext α} {m : Machine α} {mem : Memory α} {tensor : VarName}
  {s : TensorStorage}

/-- **Accesses of dense tensors.** In every memory of a run that has a tensor stored densely, the
    buffer is cut into the blocks of the index tuples, every number in the block of just one tuple. An
    access at a tuple in range gets at the block of that tuple and at nothing else. An access at
    integers whose row-major place lies outside the tensor is refused, unless blocks are empty. -/
theorem dense_access (hlaid : m.Laid c.storages mem)
    (hvars : ∀ var, m.func.varType? var = c.func.varType? var)
    (hs : c.storages.get? tensor = some s) (hkind : s.kind = .dense)
    {indices : List (Expr α)} {position position' : Option VarName} {value read : Expr α}
    {accumulate : Bool} {write : Stmt α}
    (hread : c.lowerExpr (.tensorRead tensor indices position) = .ok read)
    (hwrite : c.lowerStmt (.tensorWrite tensor indices position' value accumulate) = .ok write) :
    ∃ es value' type b extents, c.lowerExprs indices = .ok es ∧ c.lowerExpr value = .ok value' ∧
      c.func.tensorType? tensor = some type ∧ m.Extents type.dims extents ∧
      mem.buffers.get? tensor = some b ∧ b.block = s.block ∧
      (∀ k < b.values.size, ∃! tuple, WithinExtents extents tuple ∧
        flatPlace extents tuple = k / s.block.length) ∧
      ∀ xs, m.Index mem es xs → (∀ x ∈ xs, SignedWord.fits x = true) →
        (∀ tuple, WithinExtents extents tuple → xs = tuple.map Nat.cast →
          s.block.length ≠ 0 ∨ extents.prod < 2 ^ 63 →
            b.HasRoom (flatPlace extents tuple) ∧
              m.GetsAt mem tensor b (flatPlace extents tuple) read write value' accumulate) ∧
        (OffPlace extents xs → s.block.length ≠ 0 → s.block.length < 2 ^ 63 →
          m.Refuses mem read write value' s.block
            (offsetFault tensor b.values.size extents s.block.length xs)) := by
  obtain ⟨address, haddress, rfl⟩ := lowerExpr_tensorRead hs hread
  obtain ⟨value', address', hvalue, haddress', rfl⟩ := lowerStmt_tensorWrite hs hwrite
  obtain ⟨type, es, offset, htype, hcount, hes, hoffset, rfl⟩ := haddress.of_dense hkind
  obtain ⟨type', es', offset', htype', _, hes', hoffset', rfl⟩ := haddress'.of_dense hkind
  obtain rfl := Option.some.inj (htype.symm.trans htype')
  obtain rfl := Except.ok.inj (hes.symm.trans hes')
  obtain rfl := Except.ok.inj (hoffset.symm.trans hoffset')
  obtain ⟨values, extents, hb, hextents, hshaped⟩ :=
    hlaid.dense ((hvars tensor).trans (Func.varType?_of_tensorType? htype)) hs hkind
  have hsize := hshaped.size_eq hextents
  have hbytes : values.size < 2 ^ 60 := hshaped.size_lt
  have hlength : es.length = type.dims.length := (length_of_lowerExprs hes).trans hcount
  refine ⟨es, value', type, .dense s.block values, extents, hes, hvalue, htype, hextents, hb, rfl,
    fun k hk => ?_, fun xs hxs hwords => ⟨?_, fun hoff hnonempty hword => ?_⟩⟩
  · refine existsUnique_tuple (Nat.div_lt_of_lt_mul ?_)
    rwa [Nat.mul_comm, ← hsize]
  · rintro tuple hwithin rfl hcounted
    have hprod : extents.prod < 2 ^ 63 := by
      refine hcounted.elim (fun hnonempty => ?_) id
      have := Nat.le_mul_of_pos_right extents.prod (Nat.pos_of_ne_zero hnonempty)
      omega
    have hroom : (Buffer.dense s.block values).HasRoom (flatPlace extents tuple) := by
      show flatPlace extents tuple * s.block.length + s.block.length ≤ values.size
      rw [hsize, ← Nat.succ_mul]
      exact Nat.mul_le_mul_right _ (flatPlace_lt hwithin)
    have ho : m.eval mem offset = .ok (.int ((flatPlace extents tuple * s.block.length : Nat) : Int)) := by
      rw [Machine.eval_offset_eq hoffset hxs hextents,
        offsetWord?_of_within hwithin hprod (by omega)]
      rfl
    exact ⟨hroom, Machine.getsAt_of_offset hb hroom (hbytes.trans (by decide)) ho⟩
  · refine Machine.refuses_of_offset hb (Machine.eval_offset_eq hoffset hxs hextents) hword ?_
    intro o hoffsetWord
    have ho : m.eval mem offset = .ok (.int o) := by
      rw [Machine.eval_offset_eq hoffset hxs hextents, hoffsetWord]
      rfl
    refine ⟨?_, Machine.outside_of_offPlace hshaped hextents hoffset hlength hnonempty hxs hoff ho⟩
    have hfits := fits_of_offsetWord? hwords hoffsetWord
    simp only [SignedWord.fits, Bool.and_eq_true, decide_eq_true_eq] at hfits
    exact hfits.2

end AccessContext

/-! ### A square matrix -/

namespace SquareWrites

/-- Two integers as indices. -/
def indices (row col : Int) : List (Expr ℚ) :=
  [.literal (.int row), .literal (.int col)]

/-- The number that is written. -/
def one : Expr ℚ :=
  .literal (.float 1)

/-- A number is written into a square matrix at two integers. -/
def func (row col : Int) : Func ℚ :=
  (Func.named "f").withSet (.plain "V")
    |>.withResult "x" (.matrix "V" "V" .scalar)
    |>.withStmt (.tensorWrite "x" (indices row col) none one false)

/-- The matrix is dense. -/
def storages : Storages :=
  ⟨[("x", ⟨.dense, .scalar⟩)]⟩

/-- Two vertices. -/
def bindings : Bindings ℚ :=
  Bindings.empty.withSet "V" (SetData.plain 2)

/-- The place of an entry. -/
def place (row col : Int) : Expr ℚ :=
  .binary .add (.binary .mul (.literal (.int row)) (.setSize "V")) (.literal (.int col))

/-- The read of an entry. -/
def load (row col : Int) : Expr ℚ :=
  .load "x" (place row col) .scalar

/-- The write of an entry. -/
def store (row col : Int) : Stmt ℚ :=
  .store "x" (place row col) one false

end SquareWrites

open SquareWrites in
/-- The second row begins with the third block of the buffer, and the row before the first is out of
    bounds. -/
theorem squareWrites_access :
    ∃ l m start b, (func 1 0).lower .standard = .ok l ∧ l.machine bindings ⟨.lu, 0⟩ = .ok m ∧
      m.start l.storages = .ok start ∧ start.buffers.get? "x" = some b ∧
      m.GetsAt start "x" b 2 (load 1 0) (store 1 0) one false ∧
      m.Refuses start (load (-1) 0) (store (-1) 0) one .scalar
        (.error (.indexOutOfBounds (.buffer "x") (-2) 4)) := by
  obtain ⟨l, hlower, hstorages, m, hmachine, start, hstart, n, hn, rfl,
      b, hb, hsize⟩ :
      ∃ l, (func 1 0).lower .standard = .ok l ∧ l.storages = storages ∧
        ∃ m, l.machine bindings ⟨.lu, 0⟩ = .ok m ∧ ∃ start, m.start l.storages = .ok start ∧
          ∃ n, m.resolution.extent (.set "V") = .ok n ∧ n = 2 ∧
            ∃ b, start.buffers.get? "x" = some b ∧ b.values.size = 4 := by
    decide +kernel
  have hfunc : m.func = (func 1 0).withBody l.func.body := by
    rw [(LoweredFunc.machine_spec hmachine).1]
    exact Func.func_of_lower hlower
  have hdistinct : m.func.DistinctNames := by
    rw [hfunc]
    exact List.nodup_singleton _
  have hlaid := (Machine.start_spec hdistinct hstart).1
  rw [hstorages] at hlaid
  let c : AccessContext ℚ := ⟨func 1 0, storages, .binary⟩
  have hvars : ∀ var, m.func.varType? var = c.func.varType? var := fun var => by rw [hfunc]; rfl
  have hread : ∀ row col, c.lowerExpr (.tensorRead "x" (indices row col) none) = .ok (load row col) :=
    fun _ _ => rfl
  have hwrite : ∀ row col, c.lowerStmt (.tensorWrite "x" (indices row col) none one false) =
      .ok (store row col) := fun _ _ => rfl
  have hindex : ∀ row col, m.Index start (indices row col) [row, col] :=
    fun _ _ => .cons rfl (.cons rfl .nil)
  have hsquare : m.Extents [.set "V", .set "V"] [2, 2] := .cons hn (.cons hn .nil)
  obtain ⟨es, _, type, _, extents, hes, hvalue, htype, hextents, hb', _, _, haccess⟩ :=
    AccessContext.dense_access hlaid hvars rfl rfl (hread 1 0) (hwrite 1 0)
  obtain rfl := Except.ok.inj hes
  obtain rfl := Except.ok.inj hvalue
  obtain rfl := Option.some.inj htype
  obtain rfl := hextents.unique hsquare
  obtain rfl := Option.some.inj (hb.symm.trans hb')
  obtain ⟨es', _, type', _, extents', hes', hvalue', htype', hextents', hb', _, _, haccess'⟩ :=
    AccessContext.dense_access hlaid hvars rfl rfl (hread (-1) 0) (hwrite (-1) 0)
  obtain rfl := Except.ok.inj hes'
  obtain rfl := Except.ok.inj hvalue'
  obtain rfl := Option.some.inj htype'
  obtain rfl := hextents'.unique hsquare
  obtain rfl := Option.some.inj (hb.symm.trans hb')
  have hinside := ((haccess [1, 0] (hindex 1 0) (by decide)).1 [1, 0]
    (.cons (by decide) (.cons (by decide) .nil)) rfl (Or.inl (by decide))).2
  have houtside := (haccess' [-1, 0] (hindex (-1) 0) (by decide)).2 (Or.inl (by decide)) (by decide)
    (by decide)
  rw [hsize] at houtside
  exact ⟨l, m, start, b, hlower, hmachine, hstart, hb, hinside, houtside⟩

open SquareWrites in
/-- Column two of the first row lies outside the matrix, but has the place of the second row's first
    entry: a write there succeeds and changes that entry. -/
theorem squareWrites_overruns :
    ∃ l, (func 0 2).lower .standard = .ok l ∧ ∃ m, l.machine bindings ⟨.lu, 0⟩ = .ok m ∧
      ∃ start, m.start l.storages = .ok start ∧ ∃ mem, m.execAll l.func.body start = .ok mem ∧
        (∃ n, m.resolution.extent (.set "V") = .ok n ∧ n = 2) ∧
        m.entryAt? start "x" [1, 0] = some (.scalar 0) ∧
        m.entryAt? mem "x" [1, 0] = some (.scalar 1) := by
  decide +kernel

end GraphTensor
