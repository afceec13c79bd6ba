import GraphTensor.Proofs.Lowering.Addresses
import GraphTensor.Proofs.Lowering.Contractions
import GraphTensor.Proofs.Lowering.Fresh
import GraphTensor.Proofs.Lowering.Nests
import GraphTensor.Proofs.Machine.Frames
set_option autoImplicit false

/-! # Inside a loop nest

A memory inside the loops of a term stands at values of the indices that these loops bind
(`Contraction.Stands`). Where all indices are bound, the value of the term is its block at these
values, whichever way its entries are found, and the write adds that block to the entry of the
target.

An operand may be read through a search, through a position that a loop has noted, or at a row-major
place. A position counts only where it has been found for the operand's own entry
(`Contraction.FoundAt`); an operand without an entry reads as zeros and makes the product zero. -/

namespace GraphTensor

variable {α : Type}

/-! ## Nests -/

namespace Nest

theorem indices_eq_ok {n : Nest α} {is : List IndexVar} {es : List (Expr α)}
    (h : n.indices is = .ok es) :
    ∃ vars, es = vars.map Expr.var ∧
      List.Forall₂ (fun i var => n.bindings.get? i.name = some var) is vars := by
  induction is generalizing es with
  | nil =>
      obtain rfl := Except.ok.inj h
      exact ⟨[], rfl, List.Forall₂.nil⟩
  | cons i rest ih =>
      obtain ⟨e, he, h⟩ := Outcome.bind_eq_ok_iff.1 h
      obtain ⟨es', hes, h⟩ := Outcome.bind_eq_ok_iff.1 h
      obtain rfl := Except.ok.inj h
      obtain ⟨vars, rfl, hvars⟩ := ih hes
      obtain ⟨var, hvar, rfl⟩ := Nest.index_eq_ok he
      exact ⟨var :: vars, rfl, List.Forall₂.cons hvar hvars⟩

end Nest

theorem AccessContext.lowerExprs_vars {a : AccessContext α} (vars : List VarName) :
    a.lowerExprs (vars.map Expr.var) = .ok (vars.map Expr.var) := by
  induction vars with
  | nil => rfl
  | cons var rest ih =>
      rw [List.map_cons, AccessContext.lowerExprs, ih]
      rfl

/-- Variables and whole fields are left as they are, apart from the reads of registers. -/
theorem AccessContext.leaf_of_lowerExpr {a : AccessContext α} {e e' : Expr α}
    (h : a.lowerExpr e = .ok e')
    (hleaf : (∃ name, e' = .var name) ∨ ∃ set field, e' = .field set field) :
    e = e' ∨ ∃ name s, e' = .var name ∧ a.storages.get? name = some s ∧ s.kind = .register := by
  cases e with
  | var _ => exact .inl (Except.ok.inj h)
  | field _ _ => exact .inl (Except.ok.inj h)
  | literal _ => exact .inl (Except.ok.inj h)
  | setSize _ => exact .inl (Except.ok.inj h)
  | endpoint _ _ => exact .inl (Except.ok.inj h)
  | elementField _ _ => exact .inl (Except.ok.inj h)
  | index _ _ => exact .inl (Except.ok.inj h)
  | indexed _ => exact .inl (Except.ok.inj h)
  | tensorRead tensor indices position =>
      obtain ⟨address, haddress, hout⟩ := Outcome.bind_eq_ok_iff.1 h
      obtain ⟨s, hs, _⟩ := Outcome.bind_eq_ok_iff.1 haddress
      have hs := Outcome.orFail_eq_ok_iff.1 hs
      obtain rfl := Except.ok.inj hout
      cases addresses_of_address hs haddress with
      | register hkind => exact .inr ⟨tensor, s, rfl, hs, hkind⟩
      | dense => rcases hleaf with ⟨_, h⟩ | ⟨_, _, h⟩ <;> cases h
      | position => rcases hleaf with ⟨_, h⟩ | ⟨_, _, h⟩ <;> cases h
      | search => rcases hleaf with ⟨_, h⟩ | ⟨_, _, h⟩ <;> cases h
  | binary _ _ _ =>
      obtain ⟨_, _, h⟩ := Outcome.bind_eq_ok_iff.1 h
      obtain ⟨_, _, h⟩ := Outcome.bind_eq_ok_iff.1 h
      obtain rfl := Except.ok.inj h
      rcases hleaf with ⟨_, h⟩ | ⟨_, _, h⟩ <;> cases h
  | locate _ _ _ _ =>
      obtain ⟨_, _, h⟩ := Outcome.bind_eq_ok_iff.1 h
      obtain ⟨_, _, h⟩ := Outcome.bind_eq_ok_iff.1 h
      obtain rfl := Except.ok.inj h
      rcases hleaf with ⟨_, h⟩ | ⟨_, _, h⟩ <;> cases h
  | neg _ | endpointOf _ _ _ | fieldLoad _ _ _ | load _ _ _ | sparseLoad _ _ _ =>
      obtain ⟨_, _, h⟩ := Outcome.bind_eq_ok_iff.1 h
      obtain rfl := Except.ok.inj h
      rcases hleaf with ⟨_, h⟩ | ⟨_, _, h⟩ <;> cases h

theorem Term.mem_tensors_iff {t : Term α} {place : Nat} {operand : IndexedTensor} :
    (place, operand) ∈ t.tensors ↔ t.factors[place]? = some (.tensor operand) := by
  unfold tensors
  rw [List.mem_filterMap]
  constructor
  · rintro ⟨⟨factor, k⟩, hmem, heq⟩
    cases factor with
    | scalar value => cases heq
    | tensor found =>
        obtain ⟨rfl, rfl⟩ := Prod.mk.inj (Option.some.inj heq)
        exact List.mem_zipIdx_iff_getElem?.1 hmem
  · intro h
    exact ⟨(.tensor operand, place), List.mem_zipIdx_iff_getElem?.2 h, rfl⟩

theorem Pattern.pair_of_positionAt? {p : Pattern} {place : List Int} {k : Nat}
    (h : p.positionAt? place = some k) : ∃ row col, place = [row, col] := by
  unfold positionAt? at h
  split at h
  · exact ⟨_, _, rfl⟩
  · cases h

theorem Pattern.Valid.lt_stored_of_positionAt?_eq {p : Pattern} (hp : p.Valid) {place : List Int}
    {k : Nat} (h : p.positionAt? place = some k) : k < p.stored := by
  obtain ⟨row, col, rfl⟩ := Pattern.pair_of_positionAt? h
  exact hp.lt_stored_of_positionAt? h

/-! ## What a nest runs on -/

variable [Scalar α]

namespace Contraction

/-- A contraction whose loop nests a machine runs, from a memory on. -/
structure Runs (c : Contraction) (a : AccessContext α) (m : Machine α) (before : Memory α) :
    Prop where
  /-- The run has lowered its accesses by the descriptors of its memory. -/
  accesses : m.Accesses a
  /-- They are those of the contraction. -/
  storages : a.storages = c.storages
  /-- The topologies fit the sizes. -/
  topologies : m.resolution.TopologiesFit
  /-- The patterns of tensors are as large as the sets they lie on. -/
  sized : ∀ var p q, c.storages.pattern? var = some p → m.resolution.pattern p = .ok q →
    m.resolution.size p.rows = .ok q.rows ∧ m.resolution.size p.cols = .ok q.cols
  /-- The target is a tensor. -/
  target : m.func.varType? c.target = some (.tensor c.type)
  /-- Its layout is that of its descriptor. -/
  kind : ∃ s, c.storages.get? c.target = some s ∧ s.kind = c.kind
  /-- Every tensor has its buffer. -/
  laid : m.Laid c.storages before
  /-- No local hides a tensor. -/
  apart : before.Apart
  /-- No tensor has the name of a loop variable. -/
  ordinary : ∀ var type, m.func.varType? var = some (.tensor type) → '%' ∉ var.toList

/-- All indices of a term. -/
def indices (c : Contraction) (t : Term α) : List IndexVar :=
  c.free ++ t.summed c.free

/-- A term that can be lowered. -/
structure Fits (c : Contraction) (m : Machine α) (t : Term α) : Prop where
  /-- An operand is a tensor, and not the target, over the domains of its indices. -/
  operand : ∀ place operand, (place, operand) ∈ t.tensors → operand.tensor ≠ c.target ∧
    ∃ type, m.func.varType? operand.tensor = some (.tensor type) ∧
      operand.indices.map IndexVar.domain = type.dims
  /-- Its indices are free or summed. -/
  covered : ∀ place operand, (place, operand) ∈ t.tensors → ∀ i ∈ operand.indices, i ∈ c.indices t
  /-- No two indices share a name. -/
  nodup : ((c.indices t).map IndexVar.name).Nodup
  /-- The free indices range over the dimensions of the target. -/
  free : c.free.map IndexVar.domain = c.type.dims
  /-- A sparse target has an operand with the free indices whose pattern lies in that of the
      target. -/
  masked : ∀ p, c.kind = .sparse p → ∃ place operand p', (place, operand) ∈ t.tensors ∧
    c.indexedByFree operand = true ∧ c.storages.pattern? operand.tensor = some p' ∧
    p'.subsetOf p = true
  /-- Signed words count the values of all indices. -/
  small : ∀ i ∈ c.indices t, m.count i.domain ≤ 2 ^ 63
  /-- A coefficient does not read the target, nor a loop variable. -/
  reads : ∀ value, .scalar value ∈ t.factors → ∀ name ∈ value.reads,
    name ≠ c.target ∧ '%' ∉ name.toList
  /-- A coefficient is no whole tensor or field. -/
  coefficient : ∀ value, .scalar value ∈ t.factors → (∀ set field, value ≠ .field set field) ∧
    ∀ name, value = .var name → ∀ type, m.func.varType? name ≠ some (.tensor type)

/-- A variable holds the position at which a pattern stores a place. -/
def FoundAt (m : Machine α) (mem : Memory α) (p : PatternRef) (place : List Int)
    (var : VarName) : Prop :=
  ∃ q k, m.resolution.pattern p = .ok q ∧ q.positionAt? place = some k ∧
    mem.locals.get? var = some (.ofCount k)

/-- A memory inside the loops of a nest, at values of the indices that these bind. -/
structure Stands (c : Contraction) (t : Term α) (m : Machine α) (before : Memory α)
    (position : Option VarName) (n : Nest α) (done : List IndexVar) (values : IndexValues)
    (mem : Memory α) : Prop where
  /-- A bound index has its value. -/
  bound : ∀ i ∈ done, ∃ var, n.bindings.get? i.name = some var ∧ GivenOut n.names var ∧
    mem.locals.get? var = some (.ofCount (values i.name))
  /-- No other index is bound. -/
  only : ∀ name var, n.bindings.get? name = some var → ∃ i ∈ done, i.name = name
  /-- The value of a bound index lies in its domain. -/
  within : ∀ i ∈ done, values i.name < m.count i.domain
  /-- A factor that a loop stands on has its position. -/
  placed : ∀ place var, n.positions.get? place = some var → GivenOut n.names var ∧
    ∃ operand p, (place, operand) ∈ t.tensors ∧ c.storages.pattern? operand.tensor = some p ∧
      (∀ i ∈ operand.indices, i ∈ done) ∧ FoundAt m mem p (operand.place values) var
  /-- The position of the target is that of its entry. -/
  target : ∀ var, position = some var → GivenOut n.names var ∧
    ∃ p, c.kind = .sparse p ∧ (∀ i ∈ c.free, i ∈ done) ∧
      FoundAt m mem p (c.free.map fun i => (values i.name : Int)) var
  /-- The nest has changed the target and its own variables only. -/
  kept : before.KeptBelow 0 c.target mem
  /-- Every tensor has its buffer. -/
  laid : m.Laid c.storages mem

end Contraction

namespace Machine

variable {m : Machine α} {mem : Memory α}

theorem entryAt?_of_not_stores {tensor : VarName} {type : TensorType} {b : Buffer α}
    {indices : List Int} (htype : m.func.varType? tensor = some (.tensor type))
    (hb : mem.buffers.get? tensor = some b) (h : m.stores mem tensor indices = false) :
    m.entryAt? mem tensor indices = some (.zeros b.block) := by
  rw [entryAt?_eq htype hb]
  have hplace : b.place? ((m.extents? type.dims).getD []) indices = none := by
    simpa [stores, Func.tensorType?, htype, ValueType.asTensor?, hb] using h
  rw [Buffer.entryAt?, hplace]

omit [Scalar α] in
/-- The extents of domains are the numbers of their values. -/
theorem Extents.eq_map_count {is : List IndexVar} {extents : List Nat}
    (h : m.Extents (is.map IndexVar.domain) extents) :
    extents = is.map fun i => m.count i.domain := by
  induction is generalizing extents with
  | nil =>
      cases h
      rfl
  | cons i rest ih =>
      cases h with
      | cons hn hrest => rw [List.map_cons, count_eq hn, ih hrest]

omit [Scalar α] in
theorem withinExtents_of_lt {is : List IndexVar} {values : IndexValues}
    (h : ∀ i ∈ is, values i.name < m.count i.domain) :
    WithinExtents (is.map fun i => m.count i.domain) (is.map fun i => values i.name) := by
  induction is with
  | nil => exact List.Forall₂.nil
  | cons i rest ih =>
      exact List.Forall₂.cons (h i (List.mem_cons_self ..))
        (ih fun j hj => h j (List.mem_cons_of_mem _ hj))

theorem operate_mul_eq_block {v w : Value α} {x : BlockValue α}
    (h : Value.operate .mul v w = .ok (.block x)) :
    ∃ a b, v = .block a ∧ w = .block b ∧ a.mul? b = some x := by
  obtain ⟨a, b, rfl, rfl⟩ := operate_eq_block h
  rw [Value.operate] at h
  cases hproduct : Value.blockOperation .mul a b with
  | error fault =>
      rw [hproduct] at h
      cases h
  | ok y =>
      rw [hproduct] at h
      obtain rfl := Value.block.inj (Except.ok.inj h)
      obtain ⟨_, _, hmul⟩ := Outcome.bind_eq_ok_iff.1 hproduct
      exact ⟨a, b, rfl, rfl, Outcome.orFail_eq_ok_iff.1 hmul⟩

/-- The numbers that fill a buffer are those of the value, also where that is a register. -/
theorem fillers_eq_ok_of_register {tensor : VarName} {value : Expr α} {data : Array α}
    (hfield : ∀ set field, value ≠ .field set field)
    (hvar : ∀ name b, value = .var name → mem.buffers.get? name = some b →
      mem.locals.get? name = none ∧ ∃ old, b = .register old)
    (h : m.fillers mem tensor value = .ok data) :
    ∃ w, m.eval mem value = .ok (.block w) ∧ w.data = data := by
  by_cases hregister : ∃ name b, value = .var name ∧ mem.buffers.get? name = some b
  · obtain ⟨name, b, rfl, hb⟩ := hregister
    obtain ⟨hlocal, old, rfl⟩ := hvar name b rfl hb
    unfold fillers at h
    simp only [hb] at h
    refine ⟨old, ?_, Except.ok.inj h⟩
    rw [eval, Memory.read, hlocal, hb]
  · refine fillers_eq_ok hfield (fun name hname => ?_) h
    cases hb : mem.buffers.get? name with
    | none => rfl
    | some b => exact absurd ⟨name, b, hname, hb⟩ hregister

end Machine


namespace Contraction

/-! ## Factors -/

/-- A factor that is an operand stores an entry of its own at values of the indices. -/
def present (m : Machine α) (mem : Memory α) (values : IndexValues) : Factor α → Bool
  | .tensor operand => m.stores mem operand.tensor (operand.place values)
  | .scalar _ => true

omit [Scalar α] in
theorem all_present_eq (m : Machine α) (mem : Memory α) (values : IndexValues) (t : Term α) :
    (t.tensors.all fun (_, operand) => m.stores mem operand.tensor (operand.place values)) =
      t.factors.all (present m mem values) := by
  rw [Bool.eq_iff_iff, List.all_eq_true, List.all_eq_true]
  constructor
  · intro h factor hfactor
    cases factor with
    | scalar value => rfl
    | tensor operand =>
        obtain ⟨place, hplace⟩ := List.mem_iff_getElem?.1 hfactor
        exact h (place, operand) (Term.mem_tensors_iff.2 hplace)
  · rintro h ⟨place, operand⟩ hoperand
    exact h (.tensor operand) (List.mem_of_getElem? (Term.mem_tensors_iff.1 hoperand))

variable {c : Contraction} {a : AccessContext α} {m : Machine α} {before mem mem' : Memory α}
  {t : Term α} {n : Nest α} {position : Option VarName} {done : List IndexVar}
  {values : IndexValues}

omit [Scalar α] in
theorem productValue_eq_ok {place : Nat} {left e : Expr α} {rest : List (Factor α)}
    (h : productValue n place left rest = .ok e) :
    (rest = [] ∧ e = left) ∨ ∃ l r, e = .binary .mul l r := by
  induction rest generalizing place left with
  | nil => exact .inl ⟨rfl, (Except.ok.inj h).symm⟩
  | cons factor rest ih =>
      obtain ⟨value, _, h⟩ := Outcome.bind_eq_ok_iff.1 h
      rcases ih h with ⟨_, rfl⟩ | hproduct
      · exact .inr ⟨left, value, rfl⟩
      · exact .inr hproduct

omit [Scalar α] in
/-- A term whose value is a variable or a field is that coefficient. -/
theorem mem_factors_of_termValue {value : Expr α} (h : c.termValue n t = .ok value)
    (hleaf : (∃ name, value = .var name) ∨ ∃ set field, value = .field set field) :
    .scalar value ∈ t.factors := by
  unfold termValue at h
  split at h
  · cases h
  · next factor rest hfactors =>
      obtain ⟨first, hfirst, h⟩ := Outcome.bind_eq_ok_iff.1 h
      obtain ⟨product, hproduct, h⟩ := Outcome.bind_eq_ok_iff.1 h
      have hvalue : (if t.negated then Expr.neg product else product) = value := Except.ok.inj h
      split at hvalue
      · subst hvalue
        rcases hleaf with ⟨_, h⟩ | ⟨_, _, h⟩ <;> cases h
      · subst hvalue
        rcases productValue_eq_ok hproduct with ⟨_, rfl⟩ | ⟨_, _, rfl⟩
        · cases factor with
          | scalar value =>
              obtain rfl := Except.ok.inj hfirst
              rw [hfactors]
              exact List.mem_cons_self ..
          | tensor operand =>
              obtain ⟨_, _, hfirst⟩ := Outcome.bind_eq_ok_iff.1 hfirst
              obtain rfl := Except.ok.inj hfirst
              rcases hleaf with ⟨_, h⟩ | ⟨_, _, h⟩ <;> cases h
        · rcases hleaf with ⟨_, h⟩ | ⟨_, _, h⟩ <;> cases h

namespace Stands

theorem ofCount_eq (h : c.Stands t m before position n done values mem) (hf : c.Fits m t)
    (hdone : ∀ i ∈ done, i ∈ c.indices t) {i : IndexVar} (hi : i ∈ done) :
    SignedWord.ofCount (values i.name) = values i.name :=
  SignedWord.ofCount_of_lt ((h.within i hi).trans_le (hf.small i (hdone i hi)))

theorem eq_of_index (h : c.Stands t m before position n done values mem) (hf : c.Fits m t)
    (hdone : ∀ i ∈ done, i ∈ c.indices t) {is : List IndexVar} (his : ∀ i ∈ is, i ∈ done)
    {vars : List VarName}
    (hvars : List.Forall₂ (fun i var => n.bindings.get? i.name = some var) is vars)
    {xs : List Int} (hxs : m.Index mem (vars.map Expr.var) xs) :
    xs = is.map fun i => (values i.name : Int) := by
  induction hvars generalizing xs with
  | nil =>
      cases hxs
      rfl
  | @cons i var is vars hvar _ ih =>
      cases hxs with
      | @cons _ x _ xs hx hxs =>
          have hi := his i (List.mem_cons_self ..)
          obtain ⟨var', hvar', _, hlocal⟩ := h.bound i hi
          obtain rfl : var = var' := Option.some.inj (hvar.symm.trans hvar')
          rw [Machine.eval, Memory.read, hlocal] at hx
          have hx : SignedWord.ofCount (values i.name) = x := Value.int.inj (Except.ok.inj hx)
          rw [List.map_cons, ← hx, h.ofCount_eq hf hdone hi,
            ih (fun j hj => his j (List.mem_cons_of_mem _ hj)) hxs]

/-- A tensor keeps its buffer, unless it is the target, and is hidden by no local. -/
theorem buffer_eq (h : c.Stands t m before position n done values mem) {tensor : VarName}
    (htensor : tensor ≠ c.target) : mem.buffers.get? tensor = before.buffers.get? tensor :=
  h.kept.buffers tensor htensor

theorem local_eq_none (h : c.Stands t m before position n done values mem)
    (hr : c.Runs a m before) {tensor : VarName} {type : TensorType}
    (htype : m.func.varType? tensor = some (.tensor type)) : mem.locals.get? tensor = none := by
  obtain ⟨s, _, b, _, _, hb, _⟩ := hr.laid.tensor tensor type htype
  rw [h.kept.ordinary (hr.ordinary tensor type htype)]
  exact hr.apart tensor b hb

/-- **An operand** is read as the entry at the values of its indices, however that is found. -/
theorem entryAt?_of_read (h : c.Stands t m before position n (c.indices t) values mem)
    (hr : c.Runs a m before) (hf : c.Fits m t) {place : Nat} {operand : IndexedTensor}
    (hoperand : (place, operand) ∈ t.tensors) {es : List (Expr α)} {e : Expr α} {v : Value α}
    (hes : n.indices operand.indices = .ok es)
    (hlower : a.lowerExpr (.tensorRead operand.tensor es (n.positions.get? place)) = .ok e)
    (heval : m.eval mem e = .ok v) :
    ∃ b, v = .block b ∧ m.entryAt? before operand.tensor (operand.place values) = some b := by
  obtain ⟨hne, type, htype, hdims⟩ := hf.operand place operand hoperand
  obtain ⟨s, b, hs, _, hb, hshaped⟩ := h.laid.shaped (hr.storages ▸ hr.accesses.describes) htype
  have hentry := Machine.entryAt?_eq htype (h.buffer_eq hne ▸ hb)
  obtain ⟨address, haddress, rfl⟩ :=
    AccessContext.lowerExpr_tensorRead (hr.storages.symm ▸ hs) hlower
  obtain ⟨vars, rfl, hvars⟩ := Nest.indices_eq_ok hes
  have hplace : ∀ {xs}, m.Index mem (vars.map Expr.var) xs → xs = operand.place values :=
    h.eq_of_index hf (fun _ hi => hi) (hf.covered place operand hoperand) hvars
  generalize hposition : n.positions.get? place = found at haddress
  cases haddress with
  | @dense _ type' es' offset hkind htensor hcount hes' hoffset =>
      obtain rfl : type = type' := by
        simpa [Func.tensorType?, hr.accesses.tensors, htype, ValueType.asTensor?] using htensor
      obtain rfl := Except.ok.inj ((AccessContext.lowerExprs_vars vars).symm.trans hes')
      obtain ⟨xs, value, hindex, rfl, hblock⟩ :=
        Machine.entryAt?_of_load hkind hb hshaped hoffset hcount heval
      exact ⟨value, rfl, (hentry _).trans (hplace hindex ▸ hblock)⟩
  | @position p name hkind =>
      -- a loop stands on the entry, and its variable holds the position
      obtain ⟨_, operand', p', hoperand', hpattern, _, q, k, hq, hk, hlocal⟩ :=
        h.placed place name hposition
      obtain rfl : operand = operand' := by
        have hfactor := (Term.mem_tensors_iff.1 hoperand).symm.trans (Term.mem_tensors_iff.1 hoperand')
        simpa using hfactor
      obtain rfl : p = p' := by
        simpa [Table.pattern?, hs, TensorStorage.pattern?, hkind] using hpattern
      obtain ⟨found, value, hfound, rfl, hblock⟩ := Machine.blockOn?_of_sparseLoad hb hshaped heval
      rw [Machine.eval, Memory.read, hlocal] at hfound
      obtain ⟨q', data, rfl, _, hq', hvalid⟩ := hshaped.of_sparse hkind
      obtain rfl := Except.ok.inj (hq.symm.trans hq')
      refine ⟨value, rfl, ?_⟩
      rw [hentry, Buffer.entryAt?, Buffer.place?, hk]
      rw [← Except.ok.inj hfound, hshaped.blockOn?_ofCount
        (hvalid.lt_stored_of_positionAt?_eq hk)] at hblock
      exact hblock
  | @search p row col hkind hcount hes' =>
      have hes' := Except.ok.inj ((AccessContext.lowerExprs_vars vars).symm.trans hes')
      obtain ⟨xs, value, hindex, rfl, hblock⟩ :=
        Machine.entryAt?_of_locate ((m.extents? type.dims).getD []) hkind hb hshaped heval
      exact ⟨value, rfl, (hentry _).trans (hplace (hes' ▸ hindex) ▸ hblock)⟩
  | register hkind =>
      obtain ⟨value, rfl, _, _⟩ := hshaped.of_register hkind
      rw [Address.read, Machine.eval, Memory.read, h.local_eq_none hr htype, hb] at heval
      refine ⟨value, (Except.ok.inj heval).symm, ?_⟩
      rw [hentry]
      exact Machine.blockAt?_register value

/-- A coefficient has the value that it has before the statement. -/
theorem eval_coefficient (h : c.Stands t m before position n done values mem) (hf : c.Fits m t)
    {value e : Expr α} (hvalue : .scalar value ∈ t.factors) (hlower : a.lowerExpr value = .ok e) :
    m.eval mem e = m.eval before e := by
  refine Machine.eval_congr e fun name hname => ?_
  obtain ⟨hne, hordinary⟩ :=
    hf.reads value hvalue name (AccessContext.reads_of_lowerExpr value hlower hname)
  exact ⟨h.kept.ordinary hordinary, h.kept.buffers name hne⟩

theorem factor?_of_eval (h : c.Stands t m before position n (c.indices t) values mem)
    (hr : c.Runs a m before) (hf : c.Fits m t) {place : Nat} {factor : Factor α} {e e' : Expr α}
    {b : BlockValue α} (hfactor : t.factors[place]? = some factor)
    (he : factorValue n place factor = .ok e) (hlower : a.lowerExpr e = .ok e')
    (heval : m.eval mem e' = .ok (.block b)) :
    m.factor? before values factor = some b ∧
      (present m before values factor = false → b.IsZero) := by
  cases factor with
  | scalar value =>
      obtain rfl := Except.ok.inj he
      have hmem := List.mem_of_getElem? hfactor
      rw [h.eval_coefficient hf hmem hlower] at heval
      have hvalue := hr.accesses.value?_of_eval (hr.storages.symm ▸ hr.laid) value hlower heval
      refine ⟨?_, fun hpresent => by cases hpresent⟩
      rw [Machine.factor?, hvalue]
  | tensor operand =>
      obtain ⟨es, hes, he⟩ := Outcome.bind_eq_ok_iff.1 he
      obtain rfl := Except.ok.inj he
      have hoperand := Term.mem_tensors_iff.2 hfactor
      obtain ⟨b', hb', hentry⟩ := h.entryAt?_of_read hr hf hoperand hes hlower heval
      obtain rfl := Value.block.inj hb'
      refine ⟨hentry, fun hpresent => ?_⟩
      obtain ⟨_, type, htype, _⟩ := hf.operand place operand hoperand
      obtain ⟨_, _, buffer, _, _, hbuffer, _⟩ := hr.laid.tensor _ _ htype
      have hzero := hentry.symm.trans (Machine.entryAt?_of_not_stores htype hbuffer hpresent)
      rw [Option.some.inj hzero]
      exact BlockValue.isZero_zeros _

variable [Scalar.ZeroLaws α]

/-- The product from a place on. One factor that is zero makes the product zero. -/
theorem productFrom?_of_eval (h : c.Stands t m before position n (c.indices t) values mem)
    (hr : c.Runs a m before) (hf : c.Fits m t) {place : Nat} {left e e' : Expr α}
    {rest : List (Factor α)} {x : BlockValue α} (hrest : t.factors.drop place = rest)
    (he : productValue n place left rest = .ok e) (hlower : a.lowerExpr e = .ok e')
    (heval : m.eval mem e' = .ok (.block x)) :
    ∃ left' l, a.lowerExpr left = .ok left' ∧ m.eval mem left' = .ok (.block l) ∧
      m.productFrom? before values l rest = some x ∧
      (l.IsZero ∨ rest.all (present m before values) = false → x.IsZero) := by
  induction rest generalizing place left with
  | nil =>
      obtain rfl := Except.ok.inj he
      exact ⟨e', x, hlower, heval, rfl, fun hzero => hzero.elim id (fun hall => by cases hall)⟩
  | cons factor rest ih =>
      obtain ⟨value, hvalue, he⟩ := Outcome.bind_eq_ok_iff.1 he
      have hfactor : t.factors[place]? = some factor := by
        rw [← List.head?_drop, hrest, List.head?_cons]
      have hnext : t.factors.drop (place + 1) = rest := by
        rw [← List.tail_drop, hrest, List.tail_cons]
      obtain ⟨product', p, hproduct', hp, hfrom, hzero⟩ := ih hnext he
      obtain ⟨left', value', hleft', hvalue', rfl⟩ :=
        AccessContext.lowerExpr_binary_eq_ok_iff.1 hproduct'
      obtain ⟨v, w, hv, hw, hp⟩ := Machine.eval_binary_eq_ok_iff.1 hp
      obtain ⟨l, b, rfl, rfl, hmul⟩ := Machine.operate_mul_eq_block hp
      obtain ⟨hb, habsent⟩ := h.factor?_of_eval hr hf hfactor hvalue hvalue' hw
      refine ⟨left', l, hleft', hv, ?_, fun hany => hzero ?_⟩
      · simp [Machine.productFrom?, hb, hmul, ← hfrom]
      · rw [List.all_cons, Bool.and_eq_false_iff, ← or_assoc] at hany
        exact hany.imp_left fun hany =>
          BlockValue.isZero_of_mul? (hany.imp_right habsent) hmul

/-- **A term** comes to its block at the values of the indices. -/
theorem term?_of_eval (h : c.Stands t m before position n (c.indices t) values mem)
    (hr : c.Runs a m before) (hf : c.Fits m t) {value value' : Expr α} {v w : BlockValue α}
    {block : BlockShape} (hvalue : c.termValue n t = .ok value)
    (hlower : a.lowerExpr value = .ok value') (heval : m.eval mem value' = .ok (.block v))
    (hw : BlockValue.ofArray? block v.data = some w) :
    m.term? before block t values = some w := by
  cases hfactors : t.factors with
  | nil =>
      rw [termValue, hfactors] at hvalue
      cases hvalue
  | cons factor rest =>
      rw [termValue, hfactors] at hvalue
      obtain ⟨first, hfirst, hvalue⟩ := Outcome.bind_eq_ok_iff.1 hvalue
      obtain ⟨product, hproduct, hvalue⟩ := Outcome.bind_eq_ok_iff.1 hvalue
      obtain rfl := Except.ok.inj hvalue
      -- the sign is taken off first: what is left is the product itself
      obtain ⟨product', p, hproduct', hp, hsign⟩ : ∃ product' p,
          a.lowerExpr product = .ok product' ∧ m.eval mem product' = .ok (.block p) ∧
            v = if t.negated then p.neg else p := by
        cases hnegated : t.negated with
        | false =>
            rw [hnegated] at hlower
            exact ⟨value', v, hlower, heval, rfl⟩
        | true =>
            rw [hnegated, if_pos rfl] at hlower
            obtain ⟨product', hproduct', rfl⟩ := AccessContext.lowerExpr_neg_eq_ok_iff.1 hlower
            obtain ⟨u, hu, hneg⟩ := Machine.eval_neg_eq_ok_iff.1 heval
            obtain ⟨p, rfl⟩ := Machine.neg_eq_block hneg
            exact ⟨product', p, hproduct', hu, (Value.block.inj (Except.ok.inj hneg)).symm⟩
      have hdrop : t.factors.drop 1 = rest := by rw [hfactors, List.drop_one, List.tail_cons]
      obtain ⟨first', l, hfirst', hl, hfrom, hzero⟩ :=
        h.productFrom?_of_eval hr hf hdrop hproduct hproduct' hp
      obtain ⟨hfactor, habsent⟩ := h.factor?_of_eval hr hf (by rw [hfactors]; rfl) hfirst hfirst' hl
      rw [Machine.term?, all_present_eq]
      split
      · rw [hfactors, Machine.product?, hfactor]
        simp [hfrom, ← hsign, hw]
      · next hall =>
          have hpzero : p.IsZero := by
            rw [Bool.not_eq_true, hfactors, List.all_cons, Bool.and_eq_false_iff] at hall
            exact hzero (hall.imp_left habsent)
          have hvzero : v.IsZero := by
            rw [hsign]
            split
            · exact hpzero.neg
            · exact hpzero
          rw [hvzero.ofArray? hw]

omit [Scalar.ZeroLaws α] in
/-- The value that is written to a register is no other tensor and no field. -/
theorem fillers_eq_ok (h : c.Stands t m before position n (c.indices t) values mem)
    (hr : c.Runs a m before) (hf : c.Fits m t) {value value' : Expr α} {data : Array α}
    (hvalue : c.termValue n t = .ok value) (hlower : a.lowerExpr value = .ok value')
    (hdata : m.fillers mem c.target value' = .ok data) :
    ∃ w, m.eval mem value' = .ok (.block w) ∧ w.data = data := by
  have hleaf : ∀ e, a.lowerExpr value = .ok e →
      ((∃ name, e = .var name) ∨ ∃ set field, e = .field set field) →
      .scalar e ∈ t.factors ∨ ∃ name s, e = .var name ∧ a.storages.get? name = some s ∧
        s.kind = .register := by
    intro e he hleaf
    refine (AccessContext.leaf_of_lowerExpr he hleaf).imp_left fun heq => ?_
    exact heq ▸ mem_factors_of_termValue hvalue (heq ▸ hleaf)
  refine Machine.fillers_eq_ok_of_register ?_ ?_ hdata
  · rintro set field rfl
    rcases hleaf _ hlower (.inr ⟨set, field, rfl⟩) with hmem | ⟨_, _, hvar, _⟩
    · exact (hf.coefficient _ hmem).1 set field rfl
    · cases hvar
  · rintro name b rfl hb
    obtain ⟨type, htype⟩ := h.laid.onlyTensors name b hb
    refine ⟨h.local_eq_none hr htype, ?_⟩
    rcases hleaf _ hlower (.inl ⟨name, rfl⟩) with hmem | ⟨_, s, hvar, hs, hkind⟩
    · exact absurd htype ((hf.coefficient _ hmem).2 name rfl type)
    · obtain rfl := Expr.var.inj hvar
      obtain ⟨s', b', hs', _, hb', hshaped⟩ :=
        h.laid.shaped (hr.storages ▸ hr.accesses.describes) htype
      obtain rfl : b = b' := Option.some.inj (hb.symm.trans hb')
      obtain rfl : s = s' := Option.some.inj ((hr.storages ▸ hs).symm.trans hs')
      obtain ⟨value, rfl, _, _⟩ := hshaped.of_register hkind
      exact ⟨_, rfl⟩

end Stands

/-! ## Writes -/

omit [Scalar α] in
theorem Fits.extents_eq (hf : c.Fits m t) {extents : List Nat}
    (h : m.Extents c.type.dims extents) : extents = c.free.map fun i => m.count i.domain := by
  rw [← hf.free] at h
  exact h.eq_map_count

/-- What statements add to the target, having changed nothing but that and variables given out after
    a number. -/
structure Adds (c : Contraction) (m : Machine α) (number : Nat) (mem mem' : Memory α)
    (contributions : List (Option (List Int × BlockValue α))) : Prop where
  /-- The contributions come after those before. -/
  sum : ∀ earlier, m.HoldsSum mem c.target c.type earlier →
    m.HoldsSum mem' c.target c.type (earlier ++ contributions)
  /-- Nothing else has changed. -/
  kept : mem.KeptBelow number c.target mem'

variable [Scalar.ZeroLaws α]

omit [Scalar.ZeroLaws α] in
/-- Whatever the layout of the target, a block is added at the place of the values. -/
theorem Stands.exec_write (h : c.Stands t m before position n (c.indices t) values mem)
    (hr : c.Runs a m before) (hf : c.Fits m t)
    (hposition : ∀ p, c.kind = .sparse p → position ≠ none) {value : Expr α} {es : List (Expr α)}
    {out : Stmt α} (hvalue : c.termValue n t = .ok value) (hes : n.indices c.free = .ok es)
    (hlower : a.lowerStmt (.tensorWrite c.target es position value true) = .ok out)
    (hexec : m.exec out mem = .ok mem') :
    ∃ s b place value' v w, mem.buffers.get? c.target = some b ∧ m.Shaped c.type.dims s b ∧
      b.place? ((m.extents? c.type.dims).getD []) ((c.free.map fun i => values i.name).map Nat.cast) =
        some place ∧
      a.lowerExpr value = .ok value' ∧ m.eval mem value' = .ok (.block v) ∧
      BlockValue.ofArray? c.type.block v.data = some w ∧ w.shape = s.block ∧
      mem' = mem.withBuffer c.target (b.addAt place w) := by
  obtain ⟨s, b, hs, hblock, hb, hshaped⟩ :=
    h.laid.shaped (hr.storages ▸ hr.accesses.describes) hr.target
  obtain ⟨s', hs', hkind⟩ := hr.kind
  obtain rfl : s = s' := Option.some.inj (hs.symm.trans hs')
  have hfree : ∀ i ∈ c.free, i ∈ c.indices t := fun i hi => List.mem_append_left _ hi
  have hself : ∀ w : BlockValue α, w.shape = s.block →
      BlockValue.ofArray? c.type.block w.data = some w := by
    rintro ⟨shape, data, hsize⟩ rfl
    rw [← hblock, BlockValue.ofArray?, dif_pos hsize]
  obtain ⟨vars, rfl, hvars⟩ := Nest.indices_eq_ok hes
  obtain ⟨value', address, hvalue', haddress, rfl⟩ :=
    AccessContext.lowerStmt_tensorWrite (hr.storages.symm ▸ hs) hlower
  cases haddress with
  | @dense _ type' es' offset hdense htensor hcount hes' hoffset =>
      obtain rfl : c.type = type' := by
        simpa [Func.tensorType?, hr.accesses.tensors, hr.target, ValueType.asTensor?] using htensor
      obtain rfl := Except.ok.inj ((AccessContext.lowerExprs_vars vars).symm.trans hes')
      obtain ⟨xs, w, hindex, hw, hshape, hmem⟩ :=
        Machine.exec_store hdense hb hshaped hoffset hcount hexec
      obtain ⟨place, hplace⟩ : ∃ place, b.place? ((m.extents? c.type.dims).getD [])
          ((c.free.map fun i => values i.name).map Nat.cast) = some place := by
        obtain ⟨values', extents, rfl, _, _⟩ := hshaped.of_dense hdense
        exact ⟨_, rfl⟩
      refine ⟨s, b, place, value', w, w, hb, hshaped, hplace, hvalue', hw, hself w hshape, hshape,
        hmem _ place (fun extents hextents => ?_) ?_ hplace⟩
      · rw [hf.extents_eq hextents]
        exact Machine.withinExtents_of_lt fun i hi => h.within i (hfree i hi)
      · rw [h.eq_of_index hf (fun _ hi => hi) hfree hvars hindex, List.map_map]
        refine List.map_congr_left fun i hi => ?_
        rw [Function.comp_apply, h.ofCount_eq hf (fun _ hi => hi) (hfree i hi)]
  | @position p name hsparse =>
      obtain ⟨_, p', hkind', _, q, k, hq, hk, hlocal⟩ := h.target name rfl
      obtain rfl : p = p' := StorageKind.sparse.inj (hsparse.symm.trans (hkind.trans hkind'))
      obtain ⟨q', data, rfl, _, hq', hvalid⟩ := hshaped.of_sparse hsparse
      obtain rfl := Except.ok.inj (hq.symm.trans hq')
      obtain ⟨x, w, hx, hw, hshape, hmem⟩ := Machine.exec_sparseStore hb hshaped hexec
      rw [Machine.eval, Memory.read, hlocal] at hx
      refine ⟨s, _, k, value', w, w, hb, hshaped, ?_, hvalue', hw, hself w hshape, hshape,
        hmem k (hvalid.lt_stored_of_positionAt?_eq hk) (Value.int.inj (Except.ok.inj hx)).symm⟩
      rw [List.map_map]
      exact hk
  | search hsparse => exact absurd rfl (hposition _ (hkind.symm.trans hsparse))
  | register hregister =>
      obtain ⟨old, rfl, _, hshape⟩ := hshaped.of_register hregister
      obtain ⟨data, hdata, hsize, hmem⟩ := Machine.exec_accumulate hb hexec
      obtain ⟨v, hv, rfl⟩ := h.fillers_eq_ok hr hf hvalue hvalue' hdata
      refine ⟨s, _, 0, value', v, ⟨old.shape, v.data, hsize⟩, hb,
        hshaped, rfl, hvalue', hv, ?_, hshape, hmem⟩
      rw [← hblock, ← hshape, BlockValue.ofArray?, dif_pos hsize]

/-- **The write of a term** adds its block at the values of the indices, and nothing else. -/
theorem Stands.adds_write (h : c.Stands t m before position n (c.indices t) values mem)
    (hr : c.Runs a m before) (hf : c.Fits m t)
    (hposition : ∀ p, c.kind = .sparse p → position ≠ none) {value : Expr α} {es : List (Expr α)}
    {out : Stmt α} (hvalue : c.termValue n t = .ok value) (hes : n.indices c.free = .ok es)
    (hlower : a.lowerStmt (.tensorWrite c.target es position value true) = .ok out)
    (hexec : m.exec out mem = .ok mem') (number : Nat) :
    c.Adds m number mem mem'
      [contributionAt c.free values (m.term? before c.type.block t values)] := by
  obtain ⟨s, b, place, value', v, w, hb, hshaped, hplace, hvalue', hv, hw, hshape, rfl⟩ :=
    h.exec_write hr hf hposition hvalue hes hlower hexec
  have hfree : ∀ i ∈ c.free, i ∈ c.indices t := fun i hi => List.mem_append_left _ hi
  refine ⟨fun earlier hsum => ?_, fun _ _ => rfl, fun name hname => ?_⟩
  · have hadd := hsum.add hr.target hb hshaped hshape
      (fun extents hextents k hk => ?_) (fun extents hextents => ?_) hplace
    · rw [List.map_map, Function.comp_def] at hadd
      rwa [h.term?_of_eval hr hf hvalue hvalue' hv hw, contributionAt, Option.map_some]
    · rw [hf.extents_eq hextents] at hk
      obtain ⟨i, hi, rfl⟩ := List.mem_map.1 hk
      exact (hf.small i (hfree i hi)).trans_lt (Nat.pow_lt_pow_right (by decide) (by decide))
    · rw [hf.extents_eq hextents]
      exact Machine.withinExtents_of_lt fun i hi => h.within i (hfree i hi)
  · simp [Memory.withBuffer, Table.get?_insert, hname.symm]

end Contraction

end GraphTensor
