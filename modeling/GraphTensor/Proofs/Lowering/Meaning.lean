import GraphTensor.Proofs.Lowering.Addresses
import GraphTensor.Proofs.Lowering.Elements
import GraphTensor.Proofs.Lowering.Expressions
import GraphTensor.Proofs.Machine.Accesses
set_option autoImplicit false

/-! # What a kernel contributes

A kernel means something for each element alone (`ElementView`): its endpoints are those of the
element, its fields the element's, its locals are bound anew, and what it reads of tensors is what
they held before the assembly. Its contributions are the blocks that it writes, each at a tuple of
indices (`ElementView.contributions`).

The lowered kernel computes what is meant. The invariant ties a memory in the visit of an element to
the names in scope (`KernelContext.Follows`): each name in scope holds what is meant, and tensors
that the assembly does not write are as they were. Of names that are not in scope it says nothing,
so the locals that other elements have left behind do not matter to what is typed; a position that a
read names is not typed, and has to be known otherwise. -/

namespace GraphTensor

variable {α : Type}

/-! ## The meaning of a kernel -/

/-- What the names in a kernel stand for. -/
abbrev Names (α : Type) : Type :=
  VarName → Option (Value α)

/-- The names with one bound anew. -/
def Names.bind (names : Names α) (name : VarName) (value : Option (Value α)) : Names α :=
  fun other => if other = name then value else names other

/-- The integer of a value. -/
def Value.int? : Value α → Option Int
  | int n => some n
  | _ => none

/-- The numbers of a block, as a block of another shape that has as many. -/
def Value.blockAs? (shape : BlockShape) : Value α → Option (BlockValue α)
  | block b => BlockValue.ofArray? shape b.data
  | _ => none

theorem Value.blockAs?_of_shape {shape : BlockShape} {b : BlockValue α} (h : b.shape = shape) :
    (block b).blockAs? shape = some b := by
  obtain ⟨found, data, hsize⟩ := b
  obtain rfl : found = shape := h
  rw [blockAs?, BlockValue.ofArray?, dif_pos hsize]

/-- One element of an assembly, and what there is before the assembly. -/
structure ElementView (α : Type) where
  /-- The machine of the run. -/
  machine : Machine α
  /-- The memory before the assembly. -/
  before : Memory α
  /-- The set of the assembly. -/
  set : SetName
  /-- The element. -/
  element : Nat

namespace ElementView

/-- The names at the start of a kernel: the element, and what there is before the assembly. -/
def names (v : ElementView α) (kernel : KernelVars) : Names α :=
  Names.bind (fun name => (v.before.read name).toOption) kernel.element.name
    (some (.ofCount v.element))

variable [Scalar α]

mutual

/-- The value that an expression of a kernel has for the element. An index of a dense tensor past its
    extent runs on into the next row, a position that a read names is taken at its word, and a tensor
    in a register is read as a variable. -/
def value? (v : ElementView α) (names : Names α) (e : Expr α) : Option (Value α) :=
  match e with
  | .literal value => (Machine.literalValue value).toOption
  | .var name => names name
  | .endpoint _ slot => do
    let t ← (v.machine.resolution.topology v.set).toOption
    let endpoint ← (t.endpoints v.element)[slot]?
    some (.ofCount endpoint)
  | .elementField _ field => do
    let data ← (v.machine.bindings.field v.set field).toOption
    (Machine.fieldValue (.field v.set field) data v.element).toOption
  | .endpointOf set element slot => do
    let t ← (v.machine.resolution.topology set).toOption
    let element ← v.value? names element
    (Machine.endpointValue t set slot element).toOption
  | .fieldLoad set field element => do
    let n ← (v.machine.resolution.size set).toOption
    let element ← v.value? names element
    let e ← (element.asIndex (.elementOf set) n).toOption
    let data ← (v.machine.bindings.field set field).toOption
    (Machine.fieldValue (.field set field) data e).toOption
  | .binary op lhs rhs => do
    let lhs ← v.value? names lhs
    let rhs ← v.value? names rhs
    (Value.operate op lhs rhs).toOption
  | .neg inner => do
    let value ← v.value? names inner
    value.neg.toOption
  | .setSize set => (v.machine.resolution.size set).toOption.map Value.ofCount
  | .tensorRead tensor indices position => do
    let b ← v.before.buffers.get? tensor
    match b, position with
    | .register _, _ => names tensor
    | .sparse matrix, some position =>
      let place ← names position
      (Machine.blockOn? (.sparse matrix) place).map Value.block
    | _, _ =>
      let indices ← v.values? names indices
      (v.machine.entryAt? v.before tensor indices).map Value.block
  | .field _ _ => none
  | .index _ _ => none
  | .indexed _ => none
  | .locate _ _ _ _ => none
  | .load _ _ _ => none
  | .sparseLoad _ _ _ => none
termination_by structural e

/-- The integers that expressions have. -/
def values? (v : ElementView α) (names : Names α) (es : List (Expr α)) : Option (List Int) :=
  match es with
  | [] => some []
  | e :: rest => do
    let value ← v.value? names e
    let index ← value.int?
    let rest ← v.values? names rest
    some (index :: rest)
termination_by structural es

end

/-- The value that a write contributes. A register that is written as it stands gives its block, even
    where a loop variable of its name hides it from expressions. -/
def written? (v : ElementView α) (names : Names α) (value : Expr α) : Option (Value α) :=
  match value with
  | .tensorRead tensor indices position =>
    match v.before.buffers.get? tensor with
    | some (.register block) => some (.block block)
    | _ => v.value? names (.tensorRead tensor indices position)
  | _ => v.value? names value

/-- What the statements of a kernel contribute to a tensor with blocks of some shape, each block with
    its indices, where these have a value. -/
def contributions (v : ElementView α) (tensor : VarName) (block : BlockShape) :
    Names α → List (Stmt α) → List (Option (List Int × BlockValue α))
  | _, [] => []
  | names, .assign name value :: rest =>
    v.contributions tensor block (names.bind name (v.value? names value)) rest
  | names, .accumulate name value :: rest =>
    let sum := do
      let current ← names name
      let value ← v.value? names value
      (Value.operate .add current value).toOption
    v.contributions tensor block (names.bind name sum) rest
  | names, .tensorWrite target indices _ value _ :: rest =>
    if target = tensor then
      let contribution := do
        let indices ← v.values? names indices
        let value ← v.written? names value
        let value ← value.blockAs? block
        some (indices, value)
      contribution :: v.contributions tensor block names rest
    else v.contributions tensor block names rest
  | names, _ :: rest => v.contributions tensor block names rest

end ElementView

/-! ## Agreement -/

/-- The positions that the reads in an expression name. -/
def Expr.positions (e : Expr α) : List VarName :=
  e.subexprs.filterMap fun
    | .tensorRead _ _ position => position
    | _ => none

/-- The positions that the reads in a list of expressions name. -/
def Expr.positionsOfList (es : List (Expr α)) : List VarName :=
  es.flatMap Expr.positions

theorem Expr.positions_tensorRead (tensor : VarName) (indices : List (Expr α))
    (position : Option VarName) :
    (Expr.tensorRead tensor indices position).positions =
      position.toList ++ Expr.positionsOfList indices := by
  have hlist : ∀ es : List (Expr α), Expr.subexprsOfList es = es.flatMap Expr.subexprs := by
    intro es
    induction es with
    | nil => rfl
    | cons e rest ih => rw [Expr.subexprsOfList, ih, List.flatMap_cons]
  unfold Expr.positions Expr.positionsOfList
  rw [Expr.subexprs, List.filterMap_cons, hlist, List.filterMap_flatMap]
  cases position <;> rfl

namespace KernelContext

variable [Scalar α]

/-- A view shows an element of the assembly that a kernel is lowered for. -/
structure Watches (c : KernelContext) (a : AccessContext α) (f : Func α) (n : Nat)
    (v : ElementView α) : Prop where
  /-- The run has lowered against inferred descriptors. -/
  runs : c.Runs f v.machine n
  /-- Words count the elements of every set. -/
  words : ∀ set k, v.machine.resolution.size set = .ok k → k < Word.bound
  /-- The descriptors suit the tensors. -/
  describes : v.machine.Describes c.storages
  /-- Accesses are lowered with the same descriptors. -/
  storages : a.storages = c.storages
  /-- Accesses are lowered for the same variables. -/
  func : ∀ var, a.func.varType? var = f.varType? var
  /-- The set is that of the assembly. -/
  set : v.set = c.set.name
  /-- The element is one of the set. -/
  inside : v.element < n

/-- A memory in the visit of an element holds what the names in scope stand for, and the tensors that
    the assembly does not write as they were. -/
structure Follows (c : KernelContext) (scope : TypeScope α) (positions : List VarName)
    (v : ElementView α) (names : Names α) (mem : Memory α) : Prop where
  /-- A name in scope that is no tensor has the value that is meant. -/
  bound : ∀ name type value, scope.lookup name = .ok type → type.asTensor? = none →
    mem.read name = .ok value → names name = some value
  /-- A position has the value that is meant. -/
  position : ∀ name ∈ positions, ∀ value, (∀ block, value ≠ .block block) →
    mem.read name = .ok value → names name = some value
  /-- A tensor that is no target has the value that is meant, where it has one. -/
  tensor : ∀ name type value, scope.func.varType? name = some (.tensor type) → name ∉ c.targets →
    mem.read name = .ok value → names name = some value
  /-- The element is bound. -/
  element : mem.locals.get? c.kernel.element.name = some (.ofCount v.element)
  /-- Tensors that are no targets are as they were. -/
  buffers : ∀ tensor, tensor ∉ c.targets →
    mem.buffers.get? tensor = v.before.buffers.get? tensor
  /-- Every tensor has its buffer. -/
  laid : v.machine.Laid c.storages mem
  /-- Only loop variables hide buffers. -/
  hidden : mem.IndicesOverBuffers

/-! ## Reads -/

variable {c : KernelContext} {a : AccessContext α} {f : Func α} {n : Nat} {v : ElementView α}
  {scope : TypeScope α} {positions : List VarName} {names : Names α} {mem : Memory α}

theorem Follows.eval_element (h : c.Follows scope positions v names mem) :
    v.machine.eval mem (c.element : Expr α) = .ok (.ofCount v.element) := by
  rw [KernelContext.element, Machine.eval, Memory.read, h.element]

omit [Scalar α] in
theorem Watches.element_lt (h : c.Watches a f n v) : v.element < Word.bound :=
  h.inside.trans (h.words c.set.name n (Resolution.size_eq_ok_iff.2 h.runs.size))

omit [Scalar α] in
/-- The element as an index below a number of elements. -/
theorem Watches.asIndex_eq (h : c.Watches a f n v) {place : Place} {k e : Nat}
    (he : (Value.ofCount v.element : Value α).asIndex place k = .ok e) : e = v.element := by
  exact SignedWord.eq_of_ofCount_eq h.element_lt (Machine.asIndex_eq_ok he).1

theorem Watches.value?_endpoint (h : c.Watches a f n v) (hf : c.Follows scope positions v names mem)
    {endpoints : VarName} {slot : Nat} {w : Value α}
    (heval : v.machine.eval mem (.endpointOf c.set.name c.element slot) = .ok w) :
    v.value? names (.endpoint endpoints slot) = some w := by
  obtain ⟨e, i, heq, rfl, t, ht, _, hi⟩ :=
    Machine.eval_roleExpr (.endpoint slot) hf.element heval
  obtain rfl := SignedWord.eq_of_ofCount_eq h.element_lt heq
  rw [ElementView.value?, h.set, ht]
  simp [Except.toOption, hi]

theorem Watches.value?_elementField (h : c.Watches a f n v)
    (hf : c.Follows scope positions v names mem) {element : VarName} {field : FieldName} {w : Value α}
    (heval : v.machine.eval mem (.fieldLoad c.set.name field c.element) = .ok w) :
    v.value? names (.elementField element field) = some w := by
  obtain ⟨n, element', e, data, _, hread, he, hdata, hvalue⟩ :=
    Machine.eval_fieldLoad_eq_ok_iff.1 heval
  obtain rfl : Value.ofCount v.element = element' :=
    Except.ok.inj (hf.eval_element.symm.trans hread)
  obtain rfl := h.asIndex_eq he
  rw [ElementView.value?, h.set, hdata]
  simp [Except.toOption, hvalue]

/-- A read of a tensor that is no target gives the block that is meant. -/
theorem Watches.value?_tensorRead (h : c.Watches a f n v) (hf : c.Follows scope positions v names mem)
    (hfunc : scope.func = f) {tensor : VarName} {type : TensorType} {indices indices' : List (Expr α)}
    {position : Option VarName} {e : Expr α} {w : Value α} (htarget : tensor ∉ c.targets)
    (htype : f.varType? tensor = some (.tensor type)) (hlength : indices'.length = type.rank)
    (hlower : a.lowerExpr (.tensorRead tensor indices' position) = .ok e)
    (hindices : ∀ es xs, a.lowerExprs indices' = .ok es → v.machine.Index mem es xs →
      v.values? names indices = some xs)
    (hposition : ∀ name, position = some name → name ∈ positions)
    (heval : v.machine.eval mem e = .ok w) :
    v.value? names (.tensorRead tensor indices position) = some w := by
  have htype' : v.machine.func.varType? tensor = some (.tensor type) := (h.runs.types tensor).trans htype
  obtain ⟨s, b, hs, _, hb, hshaped⟩ := hf.laid.shaped h.describes htype'
  have hbefore : v.before.buffers.get? tensor = some b := (hf.buffers tensor htarget).symm.trans hb
  have hentry := Machine.entryAt?_eq htype' hbefore
  obtain ⟨address, haddress, rfl⟩ := AccessContext.lowerExpr_tensorRead (h.storages ▸ hs) hlower
  rw [ElementView.value?, hbefore, Option.bind_eq_bind, Option.bind_some]
  cases haddress with
  | @dense _ type' es offset hkind htensor hcount hes hoffset =>
      obtain rfl : type = type' := by
        simpa [Func.tensorType?, h.func, htype, ValueType.asTensor?] using htensor
      have hesLength : es.length = type.dims.length :=
        (AccessContext.length_of_lowerExprs hes).trans hlength
      obtain ⟨xs, value, hindex, hvalue, hblock⟩ :=
        Machine.entryAt?_of_load hkind hb hshaped hoffset hesLength heval
      subst hvalue
      obtain ⟨values, extents, rfl, _, _⟩ := hshaped.of_dense hkind
      simp [hindices es xs hes hindex, hentry, hblock]
  | @position p name hkind =>
      obtain ⟨place, value, hplace, hvalue, hblock⟩ :=
        Machine.blockOn?_of_sparseLoad hb hshaped heval
      subst hvalue
      rw [Machine.eval] at hplace
      have hname := hf.position name (hposition name rfl) place (fun block hplace => by
        rw [hplace] at hblock
        cases hblock) hplace
      obtain ⟨q, values, rfl, _, _, _⟩ := hshaped.of_sparse hkind
      simp [hname, hblock]
  | @search p row col hkind hcount hes =>
      obtain ⟨xs, value, hindex, hvalue, hblock⟩ :=
        Machine.entryAt?_of_locate ((v.machine.extents? type.dims).getD []) hkind hb hshaped heval
      subst hvalue
      obtain ⟨q, values, rfl, _, _, _⟩ := hshaped.of_sparse hkind
      simp [hindices _ xs hes hindex, hentry, hblock]
  | register hkind =>
      obtain ⟨block, rfl, _, _⟩ := hshaped.of_register hkind
      rw [Address.read, Machine.eval] at heval
      exact hf.tensor tensor type w (hfunc ▸ htype) htarget heval

/-! ## Expressions -/

mutual

/-- **What is computed.** An expression that a kernel takes, lowered, comes to the value that is
    meant. -/
theorem Watches.eval_agrees (h : c.Watches a f n v) (hf : c.Follows scope positions v names mem)
    (hfunc : scope.func = f) (e : Expr α) {e' e'' : Expr α} {type : ValueType} {w : Value α}
    (htakes : c.Takes scope e type e') (hlower : a.lowerExpr e' = .ok e'')
    (hpositions : e.positions ⊆ positions) (heval : v.machine.eval mem e'' = .ok w) :
    v.value? names e = some w := by
  match e, htakes with
  | .literal value, .literal _ =>
      obtain rfl := Except.ok.inj hlower
      rw [ElementView.value?]
      rw [Machine.eval] at heval
      simp [heval, Except.toOption]
  | .var name, .var htype htensor =>
      obtain rfl := Except.ok.inj hlower
      rw [ElementView.value?]
      rw [Machine.eval] at heval
      exact hf.bound name type w htype htensor heval
  | .setSize set, .setSize _ =>
      obtain rfl := Except.ok.inj hlower
      obtain ⟨n, hn, rfl⟩ := Machine.eval_setSize_eq_ok heval
      rw [ElementView.value?, hn]
      rfl
  | .endpoint endpoints slot, .endpoint _ _ =>
      obtain rfl := Except.ok.inj hlower
      exact h.value?_endpoint hf heval
  | .elementField _ field, .elementField _ _ =>
      obtain rfl := Except.ok.inj hlower
      exact h.value?_elementField hf heval
  | .endpointOf set element slot, .endpointOf helement _ _ =>
      obtain ⟨element'', hlowered, rfl⟩ := AccessContext.lowerExpr_endpointOf_eq_ok_iff.1 hlower
      obtain ⟨t, w', ht, hw', hvalue⟩ := Machine.eval_endpointOf_eq_ok_iff.1 heval
      have hagrees := h.eval_agrees hf hfunc element helement hlowered
        (by simpa [Expr.positions, Expr.subexprs] using hpositions) hw'
      rw [ElementView.value?, hagrees, ht]
      simp [Except.toOption, hvalue]
  | .fieldLoad set field element, .fieldLoad helement _ _ =>
      obtain ⟨element'', hlowered, rfl⟩ := AccessContext.lowerExpr_fieldLoad_eq_ok_iff.1 hlower
      obtain ⟨n, w', k, data, hn, hw', hk, hdata, hvalue⟩ :=
        Machine.eval_fieldLoad_eq_ok_iff.1 heval
      have hagrees := h.eval_agrees hf hfunc element helement hlowered
        (by simpa [Expr.positions, Expr.subexprs] using hpositions) hw'
      rw [ElementView.value?, hagrees, hn]
      simp [Except.toOption, hk, hdata, hvalue]
  | .tensorRead tensor indices position, .tensorRead htarget htype hindices =>
      rw [Expr.positions_tensorRead, List.append_subset] at hpositions
      refine h.value?_tensorRead hf hfunc htarget (hfunc ▸ htype) hindices.length_eq hlower
        (fun es xs hes hxs => h.index_agrees hf hfunc indices hindices hes hpositions.2 hxs)
        (fun name hname => hpositions.1 ?_) heval
      rw [hname]
      exact List.mem_singleton_self name
  | .binary op lhs rhs, .binary hlhs hrhs _ =>
      obtain ⟨lhs'', rhs'', hlhs', hrhs', rfl⟩ :=
        AccessContext.lowerExpr_binary_eq_ok_iff.1 hlower
      obtain ⟨x, y, hx, hy, hvalue⟩ := Machine.eval_binary_eq_ok_iff.1 heval
      have hsub : lhs.positions ⊆ positions ∧ rhs.positions ⊆ positions := by
        simpa [Expr.positions, Expr.subexprs, List.append_subset] using hpositions
      have hleft := h.eval_agrees hf hfunc lhs hlhs hlhs' hsub.1 hx
      have hright := h.eval_agrees hf hfunc rhs hrhs hrhs' hsub.2 hy
      rw [ElementView.value?]
      simp [hleft, hright, hvalue, Except.toOption]
  | .neg inner, .neg hinner _ =>
      obtain ⟨inner'', hlowered, rfl⟩ := AccessContext.lowerExpr_neg_eq_ok_iff.1 hlower
      obtain ⟨x, hx, hvalue⟩ := Machine.eval_neg_eq_ok_iff.1 heval
      have hagrees := h.eval_agrees hf hfunc inner hinner hlowered
        (by simpa [Expr.positions, Expr.subexprs] using hpositions) hx
      rw [ElementView.value?]
      simp [hagrees, hvalue, Except.toOption]
termination_by structural e

/-- The indices of a read, lowered, come to the integers that are meant. -/
theorem Watches.index_agrees (h : c.Watches a f n v) (hf : c.Follows scope positions v names mem)
    (hfunc : scope.func = f) (es : List (Expr α)) {es' es'' : List (Expr α)}
    {dims : List IndexDomain} {xs : List Int} (htakes : c.TakesAll scope es dims es')
    (hlower : a.lowerExprs es' = .ok es'') (hpositions : Expr.positionsOfList es ⊆ positions)
    (heval : v.machine.Index mem es'' xs) : v.values? names es = some xs := by
  match es, htakes with
  | [], .nil =>
      obtain rfl := Except.ok.inj hlower
      cases heval
      rfl
  | e :: rest, .cons he _ hrest =>
      obtain ⟨e'', rest'', he', hrest', rfl⟩ := AccessContext.lowerExprs_cons_eq_ok_iff.1 hlower
      cases heval with
      | @cons _ x _ xs hx hxs =>
          have hsub : e.positions ⊆ positions ∧ Expr.positionsOfList rest ⊆ positions := by
            simpa [Expr.positionsOfList, List.append_subset] using hpositions
          have hfirst := h.eval_agrees hf hfunc e he he' hsub.1 hx
          have hothers := h.index_agrees hf hfunc rest hrest hrest' hsub.2 hxs
          rw [ElementView.values?, hfirst, hothers]
          rfl
termination_by structural es

end

/-! ## Writes -/

omit [Scalar α] in
theorem positions_of_role {index : Expr α} {role : IndexRole}
    (h : c.kernel.role? index = some role) : index.positions = [] := by
  unfold KernelVars.role? at h
  split at h
  · rfl
  · rfl
  · cases h

/-- The indices of a write come to the element or its endpoints as signed words give them, as they
    are meant, and lie within the dimensions. -/
theorem Watches.index_roles (h : c.Watches a f n v) (hf : c.Follows scope positions v names mem)
    (hfunc : scope.func = f) (hknows : c.KnowsKernel scope) {indices : List (Expr α)}
    {dims : List IndexDomain} {roles : List IndexRole} (hfit : c.RolesFit scope indices dims roles)
    {xs : List Int} (hindex : v.machine.Index mem (roles.map (IndexRole.expr c)) xs) :
    ∃ is : List Nat, xs = is.map SignedWord.ofCount ∧ v.values? names indices = some xs ∧
      (∀ i ∈ is, i < Word.bound) ∧
        ∀ extents, v.machine.Extents dims extents → WithinExtents extents is := by
  induction hfit generalizing xs with
  | nil =>
      cases hindex
      refine ⟨[], List.map_nil.symm, rfl, by simp, fun extents hextents => ?_⟩
      cases hextents
      exact .nil
  | @cons index indices set dims role roles hrole htype hrest ih =>
      cases hindex with
      | @cons _ x _ xs hx hxs =>
          obtain ⟨is, rfl, hvalues, hwords, hwithin⟩ := ih hxs
          have hvalue : v.value? names index = some (.int x) :=
            h.eval_agrees hf hfunc index (takes_of_resolve index htype rfl (resolve_of_role hrole))
              (by cases role <;> rfl) (by simp [positions_of_role hrole]) hx
          obtain ⟨i, hxi, hword, hi⟩ : ∃ i : Nat, x = SignedWord.ofCount i ∧ i < Word.bound ∧
              ∀ k, v.machine.resolution.size set = .ok k → i < k := by
            have hset := roleSet_of_typeOf hknows (hfunc ▸ h.runs.declared) hrole htype
            have hrun := Machine.eval_roleExpr role hf.element hx
            cases role with
            | element =>
                have hx : x = SignedWord.ofCount v.element := Value.int.inj hrun
                refine ⟨v.element, hx, h.element_lt, fun k hk => ?_⟩
                obtain rfl : c.set.name = set := Option.some.inj hset
                rw [Resolution.size_eq_ok_iff, h.runs.size] at hk
                exact Option.some.inj hk ▸ h.inside
            | endpoint slot =>
                obtain ⟨e, i, _, hx, t, ht, _, hi⟩ := hrun
                have hx : x = SignedWord.ofCount i := Value.int.inj hx
                obtain ⟨ep, hep, hset⟩ := Option.bind_eq_some_iff.1 hset
                obtain ⟨t', ht', hend⟩ := h.runs.made ep hep
                obtain rfl : t = t' := Except.ok.inj (ht.symm.trans ht')
                obtain ⟨_, hcount, hin⟩ := h.runs.topologies _ t (Resolution.topology_eq_ok_iff.1 ht)
                have hlt := hin.lt_of_mem_endpoints (List.mem_of_getElem? hi)
                have hword := h.words _ _ (Resolution.size_eq_ok_iff.2 hcount)
                refine ⟨i, hx, Nat.lt_trans hlt hword, fun k hk => ?_⟩
                split at hset
                · obtain rfl : ep.set = set := Option.some.inj hset
                  rw [Resolution.size_eq_ok_iff, ← hend, hcount] at hk
                  exact Option.some.inj hk ▸ hlt
                · cases hset
          refine ⟨i :: is, by rw [List.map_cons, hxi], ?_, List.forall_mem_cons.2 ⟨hword, hwords⟩,
            fun extents hextents => ?_⟩
          · rw [ElementView.values?, hvalue, hvalues]
            rfl
          · cases hextents with
            | cons hn hrest => exact .cons (hi _ hn) (hwithin _ hrest)

omit [Scalar α] in
/-- What a value is lowered to is a variable just if it is one, or reads a register. -/
theorem Takes.var_of_lowerExpr {value value' value'' : Expr α} {type : ValueType}
    (htakes : c.Takes scope value type value') (hlower : a.lowerExpr value' = .ok value'') :
    (∀ set field, value'' ≠ .field set field) ∧
      ∀ name, value'' = .var name →
        value = .var name ∨ ∃ indices position, value = .tensorRead name indices position := by
  cases htakes with
  | var _ _ =>
      obtain rfl := Except.ok.inj hlower
      exact ⟨fun _ _ => by simp, fun _ h => Or.inl h⟩
  | @tensorRead _ _ indices _ position _ _ _ =>
      obtain ⟨address, _, hout⟩ := Outcome.bind_eq_ok_iff.1 hlower
      obtain rfl := Except.ok.inj hout
      cases address with
      | register => exact ⟨fun _ _ => by simp [Address.read],
          fun _ h => Or.inr ⟨indices, position, by rw [Expr.var.inj h]⟩⟩
      | dense => exact ⟨fun _ _ => by simp [Address.read], fun _ h => nomatch h⟩
      | sparse => exact ⟨fun _ _ => by simp [Address.read], fun _ h => nomatch h⟩
  | literal _ =>
      obtain rfl := Except.ok.inj hlower
      exact ⟨fun _ _ => by simp, fun _ h => nomatch h⟩
  | setSize _ =>
      obtain rfl := Except.ok.inj hlower
      exact ⟨fun _ _ => by simp, fun _ h => nomatch h⟩
  | endpoint _ _ =>
      obtain rfl := Except.ok.inj hlower
      exact ⟨fun _ _ => by simp, fun _ h => nomatch h⟩
  | elementField _ _ =>
      obtain rfl := Except.ok.inj hlower
      exact ⟨fun _ _ => by simp, fun _ h => nomatch h⟩
  | endpointOf _ _ _ =>
      obtain ⟨_, _, rfl⟩ := AccessContext.lowerExpr_endpointOf_eq_ok_iff.1 hlower
      exact ⟨fun _ _ => by simp, fun _ h => nomatch h⟩
  | fieldLoad _ _ _ =>
      obtain ⟨_, _, rfl⟩ := AccessContext.lowerExpr_fieldLoad_eq_ok_iff.1 hlower
      exact ⟨fun _ _ => by simp, fun _ h => nomatch h⟩
  | binary _ _ _ =>
      obtain ⟨_, _, _, _, rfl⟩ := AccessContext.lowerExpr_binary_eq_ok_iff.1 hlower
      exact ⟨fun _ _ => by simp, fun _ h => nomatch h⟩
  | neg _ _ =>
      obtain ⟨_, _, rfl⟩ := AccessContext.lowerExpr_neg_eq_ok_iff.1 hlower
      exact ⟨fun _ _ => by simp, fun _ h => nomatch h⟩

/-- A tensor is read as a variable just if it is in a register. -/
theorem Watches.buffer_of_tensorRead (h : c.Watches a f n v)
    (hf : c.Follows scope positions v names mem) (hfunc : scope.func = f) {tensor : VarName}
    {indices : List (Expr α)} {position : Option VarName} {e' e'' : Expr α} {type : ValueType}
    (htakes : c.Takes scope (.tensorRead tensor indices position) type e')
    (hlower : a.lowerExpr e' = .ok e'') :
    ∃ b, mem.buffers.get? tensor = some b ∧ v.before.buffers.get? tensor = some b ∧
      ((∃ block, b = .register block ∧ e'' = .var tensor) ∨
        (∀ block, b ≠ .register block) ∧ ∀ name, e'' ≠ .var name) := by
  cases htakes with
  | tensorRead htarget hdeclared _ =>
      have htype := (h.runs.types tensor).trans (hfunc ▸ hdeclared)
      obtain ⟨s, b, hs, _, hb, hshaped⟩ := hf.laid.shaped h.describes htype
      refine ⟨b, hb, (hf.buffers tensor htarget).symm.trans hb, ?_⟩
      obtain ⟨address, haddress, rfl⟩ :=
        AccessContext.lowerExpr_tensorRead (h.storages ▸ hs) hlower
      cases hshaped with
      | register hkind =>
          cases haddress with
          | register => exact Or.inl ⟨_, rfl, rfl⟩
          | dense hkind' => rw [hkind] at hkind'; cases hkind'
          | position hkind' => rw [hkind] at hkind'; cases hkind'
          | search hkind' => rw [hkind] at hkind'; cases hkind'
      | dense hkind =>
          cases haddress with
          | dense => exact Or.inr ⟨fun _ => by simp, fun _ h => nomatch h⟩
          | register hkind' => rw [hkind] at hkind'; cases hkind'
          | position hkind' => rw [hkind] at hkind'; cases hkind'
          | search hkind' => rw [hkind] at hkind'; cases hkind'
      | sparse hkind =>
          cases haddress with
          | dense hkind' => rw [hkind] at hkind'; cases hkind'
          | register hkind' => rw [hkind] at hkind'; cases hkind'
          | position => exact Or.inr ⟨fun _ => by simp, fun _ h => nomatch h⟩
          | search => exact Or.inr ⟨fun _ => by simp, fun _ h => nomatch h⟩

/-- A block that a run comes to is the one that a write contributes. -/
theorem Watches.written?_of_eval (h : c.Watches a f n v) (hf : c.Follows scope positions v names mem)
    (hfunc : scope.func = f) {value value' value'' : Expr α} {block : BlockShape} {w : BlockValue α}
    (htakes : c.Takes scope value (.block block) value') (hlower : a.lowerExpr value' = .ok value'')
    (hpositions : value.positions ⊆ positions)
    (heval : v.machine.eval mem value'' = .ok (.block w)) :
    v.written? names value = some (.block w) := by
  have hvalue := h.eval_agrees hf hfunc value htakes hlower hpositions heval
  unfold ElementView.written?
  split
  · next tensor indices position =>
      obtain ⟨b, hmem, hbefore, ⟨block, rfl, rfl⟩ | ⟨hne, _⟩⟩ :=
        h.buffer_of_tensorRead hf hfunc htakes hlower
      · rw [Machine.eval] at heval
        rw [hbefore, Machine.buffer_of_read hf.hidden hmem heval]
      · rw [hbefore]
        split
        · next block heq => exact absurd (Option.some.inj heq) (hne block)
        · exact hvalue
  · exact hvalue

/-- The numbers that fill a register are those that a write contributes. -/
theorem Watches.written?_of_fillers (h : c.Watches a f n v)
    (hf : c.Follows scope positions v names mem) (hfunc : scope.func = f)
    {value value' value'' : Expr α} {block : BlockShape} {target : VarName} {data : Array α}
    (htakes : c.Takes scope value (.block block) value') (hlower : a.lowerExpr value' = .ok value'')
    (hpositions : value.positions ⊆ positions)
    (hvar : ∀ name, value = .var name → mem.buffers.get? name = none)
    (hfill : v.machine.fillers mem target value'' = .ok data) :
    ∃ w, v.written? names value = some (.block w) ∧ w.data = data := by
  obtain ⟨hfield, hname⟩ := htakes.var_of_lowerExpr hlower
  by_cases hregister : ∃ name, value'' = .var name ∧ mem.buffers.get? name ≠ none
  · obtain ⟨name, rfl, hsome⟩ := hregister
    rcases hname name rfl with rfl | ⟨indices, position, rfl⟩
    · exact absurd (hvar name rfl) hsome
    · obtain ⟨b, hmem, hbefore, ⟨block, rfl, _⟩ | ⟨_, hne⟩⟩ :=
        h.buffer_of_tensorRead hf hfunc htakes hlower
      · refine ⟨block, ?_, ?_⟩
        · simp only [ElementView.written?, hbefore]
        · rw [Machine.fillers, hmem] at hfill
          exact Except.ok.inj hfill
      · exact absurd rfl (hne name)
  · have hnone : ∀ name, value'' = .var name → mem.buffers.get? name = none := fun name hvalue =>
      not_not.1 fun hsome => hregister ⟨name, hvalue, hsome⟩
    obtain ⟨w, hw, hdata⟩ := Machine.fillers_eq_ok hfield hnone hfill
    exact ⟨w, h.written?_of_eval hf hfunc htakes hlower hpositions hw, hdata⟩

end KernelContext

end GraphTensor
