import GraphTensor.Proofs.Lowering.Addresses
import GraphTensor.Proofs.Machine.Accesses
set_option autoImplicit false

/-! # Values before lowering

An expression has a value before its accesses are lowered (`Machine.value?`): a read is the entry of
the tensor at its indices, whatever the layout. The lowered expression comes to that value whenever
it comes to one. -/

namespace GraphTensor

variable {α : Type} [Scalar α]

namespace Machine

mutual

/-- The value of an expression that may still read entries of tensors. A position that a read names
    is that of the entry. -/
def value? (m : Machine α) (mem : Memory α) (e : Expr α) : Option (Value α) :=
  match e with
  | .tensorRead tensor indices position => do
    let b ← mem.buffers.get? tensor
    match b, position with
    | .register _, _ => (mem.read tensor).toOption
    | .sparse matrix, some position =>
      let place ← (mem.read position).toOption
      (blockOn? (.sparse matrix) place).map Value.block
    | _, _ =>
      let indices ← m.indices? mem indices
      (m.entryAt? mem tensor indices).map Value.block
  | .endpointOf set element slot => do
    let t ← (m.resolution.topology set).toOption
    let element ← m.value? mem element
    (endpointValue t set slot element).toOption
  | .fieldLoad set field element => do
    let n ← (m.resolution.size set).toOption
    let element ← m.value? mem element
    let e ← (element.asIndex (.elementOf set) n).toOption
    let data ← (m.bindings.field set field).toOption
    (fieldValue (.field set field) data e).toOption
  | .binary op lhs rhs => do
    let lhs ← m.value? mem lhs
    let rhs ← m.value? mem rhs
    (Value.operate op lhs rhs).toOption
  | .neg inner => do
    let value ← m.value? mem inner
    value.neg.toOption
  | .locate pattern row col search => do
    let p ← (m.resolution.pattern pattern).toOption
    let row ← m.value? mem row
    let row ← (row.asInt .locateRow).toOption
    let col ← m.value? mem col
    let col ← (col.asInt .locateColumn).toOption
    some (locateValue p search row col)
  | .load buffer offset block => do
    let offset ← m.value? mem offset
    let offset ← (offset.asInt .loadOffset).toOption
    let b ← mem.buffers.get? buffer
    (b.load buffer offset block).toOption.map Value.block
  | .sparseLoad buffer position block => do
    let position ← m.value? mem position
    (sparseBlock mem buffer block position).toOption
  | .literal value => (literalValue value).toOption
  | .var name => (mem.read name).toOption
  | .setSize set => (m.resolution.size set).toOption.map Value.ofCount
  | .field _ _ => none
  | .index _ _ => none
  | .indexed _ => none
  | .endpoint _ _ => none
  | .elementField _ _ => none
termination_by structural e

/-- The integers that a list of indices comes to. -/
def indices? (m : Machine α) (mem : Memory α) (es : List (Expr α)) : Option (List Int) :=
  match es with
  | [] => some []
  | e :: rest => do
    let value ← m.value? mem e
    let index ← (value.asInt .loadOffset).toOption
    let rest ← m.indices? mem rest
    some (index :: rest)
termination_by structural es

end

variable {m : Machine α} {a : AccessContext α} {mem : Memory α}

/-- A run whose accesses are lowered by the descriptors that its memory is laid out by. -/
structure Accesses (m : Machine α) (a : AccessContext α) : Prop where
  /-- The descriptors suit the tensors. -/
  describes : m.Describes a.storages
  /-- Only tensors have descriptors. -/
  declared : ∀ var s, a.storages.get? var = some s → ∃ type, m.func.varType? var = some (.tensor type)
  /-- The accesses are those of the same tensors. -/
  tensors : ∀ var, a.func.varType? var = m.func.varType? var

theorem Accesses.value?_tensorRead (h : m.Accesses a) (hlaid : m.Laid a.storages mem)
    {tensor : VarName} {indices : List (Expr α)} {position : Option VarName} {e : Expr α}
    {w : Value α} (hlower : a.lowerExpr (.tensorRead tensor indices position) = .ok e)
    (hindices : ∀ es xs, a.lowerExprs indices = .ok es → m.Index mem es xs →
      m.indices? mem indices = some xs)
    (heval : m.eval mem e = .ok w) :
    m.value? mem (.tensorRead tensor indices position) = some w := by
  obtain ⟨_, haddress, _⟩ := Outcome.bind_eq_ok_iff.1 hlower
  obtain ⟨s', hs', _⟩ := Outcome.bind_eq_ok_iff.1 haddress
  obtain ⟨type, htype⟩ := h.declared tensor s' (Outcome.orFail_eq_ok_iff.1 hs')
  obtain ⟨s, b, hs, _, hb, hshaped⟩ := hlaid.shaped h.describes htype
  have hentry := entryAt?_eq htype hb
  obtain ⟨address, haddress, rfl⟩ := AccessContext.lowerExpr_tensorRead hs hlower
  rw [value?, hb, Option.bind_eq_bind, Option.bind_some]
  cases haddress with
  | @dense _ type' es offset hkind htensor hcount hes hoffset =>
      obtain rfl : type = type' := by
        simpa [Func.tensorType?, h.tensors, htype, ValueType.asTensor?] using htensor
      obtain ⟨xs, value, hindex, rfl, hblock⟩ := entryAt?_of_load hkind hb hshaped hoffset
        ((AccessContext.length_of_lowerExprs hes).trans hcount) heval
      obtain ⟨values, extents, rfl, _, _⟩ := hshaped.of_dense hkind
      simp [hindices es xs hes hindex, hentry, hblock]
  | @position p name hkind =>
      obtain ⟨place, value, hplace, rfl, hblock⟩ := blockOn?_of_sparseLoad hb hshaped heval
      rw [eval] at hplace
      obtain ⟨q, values, rfl, _, _, _⟩ := hshaped.of_sparse hkind
      simp [hplace, hblock, Except.toOption]
  | @search p row col hkind hcount hes =>
      obtain ⟨xs, value, hindex, rfl, hblock⟩ :=
        entryAt?_of_locate ((m.extents? type.dims).getD []) hkind hb hshaped heval
      obtain ⟨q, values, rfl, _, _, _⟩ := hshaped.of_sparse hkind
      simp [hindices _ xs hes hindex, hentry, hblock]
  | register hkind =>
      obtain ⟨block, rfl, _, _⟩ := hshaped.of_register hkind
      rw [Address.read, eval] at heval
      simp [heval, Except.toOption]

mutual

/-- **A lowered expression** comes to the value that it has before its accesses are lowered. -/
theorem Accesses.value?_of_eval (h : m.Accesses a) (hlaid : m.Laid a.storages mem) (e : Expr α)
    {e' : Expr α} {w : Value α} (hlower : a.lowerExpr e = .ok e') (heval : m.eval mem e' = .ok w) :
    m.value? mem e = some w :=
  match e with
  | .literal _ => by
      obtain rfl := Except.ok.inj hlower
      rw [eval] at heval
      simp [value?, heval, Except.toOption]
  | .var _ => by
      obtain rfl := Except.ok.inj hlower
      rw [eval] at heval
      simp [value?, heval, Except.toOption]
  | .setSize set => by
      obtain rfl := Except.ok.inj hlower
      obtain ⟨n, hn, rfl⟩ := eval_setSize_eq_ok heval
      rw [value?, hn]
      rfl
  | .endpointOf set element slot => by
      obtain ⟨element', helement, rfl⟩ := AccessContext.lowerExpr_endpointOf_eq_ok_iff.1 hlower
      obtain ⟨t, x, ht, hx, hvalue⟩ := eval_endpointOf_eq_ok_iff.1 heval
      rw [value?, h.value?_of_eval hlaid element helement hx, ht]
      simp [Except.toOption, hvalue]
  | .fieldLoad set field element => by
      obtain ⟨element', helement, rfl⟩ := AccessContext.lowerExpr_fieldLoad_eq_ok_iff.1 hlower
      obtain ⟨n, x, k, data, hn, hx, hk, hdata, hvalue⟩ := eval_fieldLoad_eq_ok_iff.1 heval
      rw [value?, h.value?_of_eval hlaid element helement hx, hn]
      simp [Except.toOption, hk, hdata, hvalue]
  | .tensorRead _ indices _ =>
      h.value?_tensorRead hlaid hlower
        (fun _ _ hes hindex => h.indices?_of_index hlaid indices hes hindex) heval
  | .binary op lhs rhs => by
      obtain ⟨lhs', rhs', hlhs, hrhs, rfl⟩ := AccessContext.lowerExpr_binary_eq_ok_iff.1 hlower
      obtain ⟨x, y, hx, hy, hvalue⟩ := eval_binary_eq_ok_iff.1 heval
      rw [value?, h.value?_of_eval hlaid lhs hlhs hx, h.value?_of_eval hlaid rhs hrhs hy]
      simp [Except.toOption, hvalue]
  | .neg inner => by
      obtain ⟨inner', hinner, rfl⟩ := AccessContext.lowerExpr_neg_eq_ok_iff.1 hlower
      obtain ⟨x, hx, hvalue⟩ := eval_neg_eq_ok_iff.1 heval
      rw [value?, h.value?_of_eval hlaid inner hinner hx]
      simp [Except.toOption, hvalue]
  | .locate pattern row col search => by
      obtain ⟨row', col', hrow, hcol, rfl⟩ := AccessContext.lowerExpr_locate_eq_ok_iff.1 hlower
      obtain ⟨p, x, i, y, j, hp, hx, hi, hy, hj, rfl⟩ := eval_locate_eq_ok_iff.1 heval
      rw [value?, h.value?_of_eval hlaid row hrow hx, h.value?_of_eval hlaid col hcol hy, hp]
      simp [Except.toOption, hi, hj]
  | .load buffer offset block => by
      obtain ⟨offset', hoffset, rfl⟩ := AccessContext.lowerExpr_load_eq_ok_iff.1 hlower
      obtain ⟨x, i, b, value, hx, hi, hb, hvalue, rfl⟩ := eval_load_eq_ok_iff.1 heval
      rw [value?, h.value?_of_eval hlaid offset hoffset hx]
      simp [Except.toOption, hi, Outcome.orFail_eq_ok_iff.1 hb, hvalue]
  | .sparseLoad buffer position block => by
      obtain ⟨position', hposition, rfl⟩ := AccessContext.lowerExpr_sparseLoad_eq_ok_iff.1 hlower
      obtain ⟨x, hx, hvalue⟩ := eval_sparseLoad_eq_ok_iff.1 heval
      rw [value?, h.value?_of_eval hlaid position hposition hx]
      simp [Except.toOption, hvalue]
  | .field _ _ => by
      obtain rfl := Except.ok.inj hlower
      cases heval
  | .index _ _ => by
      obtain rfl := Except.ok.inj hlower
      cases heval
  | .indexed _ => by
      obtain rfl := Except.ok.inj hlower
      cases heval
  | .endpoint _ _ => by
      obtain rfl := Except.ok.inj hlower
      cases heval
  | .elementField _ _ => by
      obtain rfl := Except.ok.inj hlower
      cases heval
termination_by structural e

theorem Accesses.indices?_of_index (h : m.Accesses a) (hlaid : m.Laid a.storages mem)
    (es : List (Expr α)) {es' : List (Expr α)} {xs : List Int}
    (hlower : a.lowerExprs es = .ok es') (hindex : m.Index mem es' xs) :
    m.indices? mem es = some xs :=
  match es with
  | [] => by
      obtain rfl := Except.ok.inj hlower
      cases hindex
      rfl
  | e :: rest => by
      obtain ⟨e', rest', he, hrest, rfl⟩ := AccessContext.lowerExprs_cons_eq_ok_iff.1 hlower
      cases hindex with
      | cons hx hxs =>
          rw [indices?, h.value?_of_eval hlaid e he hx, h.indices?_of_index hlaid rest hrest hxs]
          rfl
termination_by structural es

end

end Machine

end GraphTensor
