import GraphTensor.Machine.Eval
import GraphTensor.Proofs.Lowering.Addresses
set_option autoImplicit false

/-! # What expressions read

The value of an expression depends on the variables that it names alone (`Expr.reads`,
`Memory.AgreeOn`), and lowering its accesses adds none: an address is made of the tensor, the
position and the indices of the access (`AccessContext.Addresses.reads`). -/

namespace GraphTensor

variable {α : Type}

namespace Expr

/-- The variables that an expression names itself, apart from its parts. -/
def ownReads : Expr α → List VarName
  | var name => [name]
  | endpoint endpoints _ => [endpoints]
  | elementField element _ => [element]
  | indexed operand => [operand.tensor]
  | tensorRead tensor _ position => tensor :: position.toList
  | load buffer _ _ => [buffer]
  | sparseLoad buffer _ _ => [buffer]
  | literal _ => []
  | endpointOf _ _ _ => []
  | fieldLoad _ _ _ => []
  | field _ _ => []
  | binary _ _ _ => []
  | neg _ => []
  | index _ _ => []
  | setSize _ => []
  | locate _ _ _ _ => []

/-- The variables that an expression names. -/
def reads (e : Expr α) : List VarName :=
  e.subexprs.flatMap ownReads

/-- The variables that the expressions of a list name. -/
def readsOfList (es : List (Expr α)) : List VarName :=
  (subexprsOfList es).flatMap ownReads

theorem reads_binary (op : BinaryOp) (lhs rhs : Expr α) :
    (binary op lhs rhs).reads = lhs.reads ++ rhs.reads :=
  List.flatMap_append

theorem reads_locate (pattern : PatternRef) (row col : Expr α) (search : Search) :
    (locate pattern row col search).reads = row.reads ++ col.reads :=
  List.flatMap_append

theorem reads_tensorRead (tensor : VarName) (indices : List (Expr α)) (position : Option VarName) :
    (tensorRead tensor indices position).reads =
      tensor :: (position.toList ++ readsOfList indices) :=
  rfl

theorem readsOfList_cons (e : Expr α) (rest : List (Expr α)) :
    readsOfList (e :: rest) = e.reads ++ readsOfList rest :=
  List.flatMap_append

theorem reads_neg (inner : Expr α) : (neg inner).reads = inner.reads :=
  rfl

theorem reads_endpointOf (set : SetName) (element : Expr α) (slot : Nat) :
    (endpointOf set element slot).reads = element.reads :=
  rfl

theorem reads_fieldLoad (set : SetName) (field : FieldName) (element : Expr α) :
    (fieldLoad set field element).reads = element.reads :=
  rfl

theorem reads_load (buffer : VarName) (offset : Expr α) (block : BlockShape) :
    (load buffer offset block).reads = buffer :: offset.reads :=
  rfl

theorem reads_sparseLoad (buffer : VarName) (position : Expr α) (block : BlockShape) :
    (sparseLoad buffer position block).reads = buffer :: position.reads :=
  rfl

end Expr

/-- Two memories agree on variables. -/
def Memory.AgreeOn (names : List VarName) (mem mem' : Memory α) : Prop :=
  ∀ name ∈ names, mem'.locals.get? name = mem.locals.get? name ∧
    mem'.buffers.get? name = mem.buffers.get? name

theorem Memory.AgreeOn.mono {names names' : List VarName} {mem mem' : Memory α}
    (h : mem.AgreeOn names mem') (hsub : names' ⊆ names) : mem.AgreeOn names' mem' :=
  fun name hname => h name (hsub hname)

theorem Memory.AgreeOn.read_eq {names : List VarName} {mem mem' : Memory α} {name : VarName}
    (h : mem.AgreeOn names mem') (hname : name ∈ names) : mem'.read name = mem.read name := by
  obtain ⟨hlocal, hbuffer⟩ := h name hname
  rw [read, read, hlocal, hbuffer]

/-- **The value of an expression** is the same in memories that agree on what it reads. -/
theorem Machine.eval_congr [Scalar α] {m : Machine α} {mem mem' : Memory α} :
    (e : Expr α) → mem.AgreeOn e.reads mem' → m.eval mem' e = m.eval mem e
  | .literal _, _ => rfl
  | .var name, h => h.read_eq (List.mem_singleton_self name)
  | .endpointOf set element slot, h => by
      rw [Expr.reads_endpointOf] at h
      rw [eval, eval, eval_congr element h]
  | .fieldLoad set field element, h => by
      rw [Expr.reads_fieldLoad] at h
      rw [eval, eval, eval_congr element h]
  | .field _ _, _ => rfl
  | .binary op lhs rhs, h => by
      rw [Expr.reads_binary] at h
      rw [eval, eval, eval_congr lhs (h.mono (List.subset_append_left ..)),
        eval_congr rhs (h.mono (List.subset_append_right ..))]
  | .neg inner, h => by
      rw [Expr.reads_neg] at h
      rw [eval, eval, eval_congr inner h]
  | .setSize _, _ => rfl
  | .locate pattern row col search, h => by
      rw [Expr.reads_locate] at h
      rw [eval, eval, eval_congr row (h.mono (List.subset_append_left ..)),
        eval_congr col (h.mono (List.subset_append_right ..))]
  | .load buffer offset block, h => by
      rw [Expr.reads_load] at h
      rw [eval, eval, eval_congr offset (h.mono (List.subset_cons_self ..)), Memory.buffer,
        Memory.buffer, (h buffer (List.mem_cons_self ..)).2]
  | .sparseLoad buffer position block, h => by
      rw [Expr.reads_sparseLoad] at h
      have hblock : ∀ v, sparseBlock mem' buffer block v = sparseBlock mem buffer block v := by
        intro v
        cases v <;> simp only [sparseBlock, Memory.buffer, (h buffer (List.mem_cons_self ..)).2]
      rw [eval, eval, eval_congr position (h.mono (List.subset_cons_self ..))]
      simp only [hblock]
  | .endpoint _ _, _ => rfl
  | .elementField _ _, _ => rfl
  | .index _ _, _ => rfl
  | .indexed _, _ => rfl
  | .tensorRead _ _ _, _ => rfl
termination_by structural e => e

/-! ## Lowered accesses -/

namespace Expr

theorem reads_extentExpr (dim : IndexDomain) : (dim.extentExpr : Expr α).reads = [] := by
  cases dim <;> rfl

theorem reads_rowMajorFrom (outer : Expr α) (es : List (Expr α)) (dims : List IndexDomain) :
    (rowMajorFrom outer es dims).reads ⊆ outer.reads ++ readsOfList es := by
  induction es generalizing outer dims with
  | nil => simp [rowMajorFrom]
  | cons e rest ih =>
      cases dims with
      | nil => simp [rowMajorFrom]
      | cons dim dims =>
          refine List.Subset.trans (ih _ dims) ?_
          simp [reads_binary, reads_extentExpr, readsOfList_cons]

theorem reads_rowMajor (es : List (Expr α)) (dims : List IndexDomain) :
    (rowMajor es dims).reads ⊆ readsOfList es := by
  cases es with
  | nil => exact List.nil_subset _
  | cons e rest =>
      cases dims with
      | nil => exact List.nil_subset _
      | cons dim dims =>
          rw [readsOfList_cons]
          exact reads_rowMajorFrom e rest dims

end Expr

namespace AccessContext

variable {c : AccessContext α}

theorem reads_of_offset {type : TensorType} {block : BlockShape} {es : List (Expr α)}
    {offset : Expr α} (h : AccessContext.offset type block es = .ok offset) :
    offset.reads ⊆ Expr.readsOfList es := by
  obtain ⟨length, _, h⟩ := Outcome.bind_eq_ok_iff.1 h
  obtain rfl := Except.ok.inj h
  split
  · exact Expr.reads_rowMajor es type.dims
  · rw [Expr.reads_binary]
    exact List.append_subset.2 ⟨Expr.reads_rowMajor es type.dims, List.nil_subset _⟩

/-- The address of an entry reads the tensor, the position and what its indices read. -/
theorem Addresses.reads {tensor : VarName} {s : TensorStorage} {indices : List (Expr α)}
    {position : Option VarName} {address : Address α}
    (h : c.Addresses tensor s indices position address)
    (hindices : ∀ es, c.lowerExprs indices = .ok es →
      Expr.readsOfList es ⊆ Expr.readsOfList indices) :
    (address.read tensor).reads ⊆ (Expr.tensorRead tensor indices position).reads := by
  rw [Expr.reads_tensorRead]
  refine List.Subset.trans ?_ (List.cons_subset_cons _ (List.Subset.refl _))
  cases h with
  | dense _ _ _ hes hoffset =>
      exact List.cons_subset_cons _ (List.Subset.trans (reads_of_offset hoffset)
        (List.Subset.trans (hindices _ hes) (List.subset_append_right ..)))
  | position => simp [Address.read, Expr.reads, Expr.subexprs, Expr.ownReads]
  | @search p row col _ _ hes =>
      have hreads : (Expr.locate p row col c.search).reads = Expr.readsOfList [row, col] := by
        rw [Expr.reads_locate, Expr.readsOfList_cons, Expr.readsOfList_cons]
        simp [Expr.readsOfList, Expr.subexprsOfList]
      rw [Address.read, Expr.reads_sparseLoad, hreads]
      exact List.cons_subset_cons _
        (List.Subset.trans (hindices _ hes) (List.subset_append_right ..))
  | register => exact List.cons_subset_cons _ (List.nil_subset _)

mutual

/-- **Lowering the accesses** of an expression adds no name that it reads. -/
theorem reads_of_lowerExpr (e : Expr α) {e' : Expr α} (h : c.lowerExpr e = .ok e') :
    e'.reads ⊆ e.reads :=
  match e with
  | .tensorRead tensor indices position => by
      obtain ⟨address, haddress, hout⟩ := Outcome.bind_eq_ok_iff.1 h
      obtain rfl := Except.ok.inj hout
      obtain ⟨s, hs, _⟩ := Outcome.bind_eq_ok_iff.1 haddress
      exact (addresses_of_address (Outcome.orFail_eq_ok_iff.1 hs) haddress).reads
        fun es hes => reads_of_lowerExprs indices hes
  | .binary op lhs rhs => by
      obtain ⟨lhs', rhs', hlhs, hrhs, rfl⟩ := lowerExpr_binary_eq_ok_iff.1 h
      rw [Expr.reads_binary, Expr.reads_binary]
      exact List.append_subset.2
        ⟨List.Subset.trans (reads_of_lowerExpr lhs hlhs) (List.subset_append_left ..),
          List.Subset.trans (reads_of_lowerExpr rhs hrhs) (List.subset_append_right ..)⟩
  | .neg inner => by
      obtain ⟨inner', hinner, rfl⟩ := lowerExpr_neg_eq_ok_iff.1 h
      rw [Expr.reads_neg, Expr.reads_neg]
      exact reads_of_lowerExpr inner hinner
  | .endpointOf set element slot => by
      obtain ⟨element', helement, rfl⟩ := lowerExpr_endpointOf_eq_ok_iff.1 h
      rw [Expr.reads_endpointOf, Expr.reads_endpointOf]
      exact reads_of_lowerExpr element helement
  | .fieldLoad set field element => by
      obtain ⟨element', helement, rfl⟩ := lowerExpr_fieldLoad_eq_ok_iff.1 h
      rw [Expr.reads_fieldLoad, Expr.reads_fieldLoad]
      exact reads_of_lowerExpr element helement
  | .locate pattern row col search => by
      obtain ⟨row', col', hrow, hcol, rfl⟩ := lowerExpr_locate_eq_ok_iff.1 h
      rw [Expr.reads_locate, Expr.reads_locate]
      exact List.append_subset.2
        ⟨List.Subset.trans (reads_of_lowerExpr row hrow) (List.subset_append_left ..),
          List.Subset.trans (reads_of_lowerExpr col hcol) (List.subset_append_right ..)⟩
  | .load buffer offset block => by
      obtain ⟨offset', hoffset, rfl⟩ := lowerExpr_load_eq_ok_iff.1 h
      rw [Expr.reads_load, Expr.reads_load]
      exact List.cons_subset_cons _ (reads_of_lowerExpr offset hoffset)
  | .sparseLoad buffer position block => by
      obtain ⟨position', hposition, rfl⟩ := lowerExpr_sparseLoad_eq_ok_iff.1 h
      rw [Expr.reads_sparseLoad, Expr.reads_sparseLoad]
      exact List.cons_subset_cons _ (reads_of_lowerExpr position hposition)
  | .literal _ => by
      obtain rfl := Except.ok.inj h
      exact List.Subset.refl _
  | .var _ => by
      obtain rfl := Except.ok.inj h
      exact List.Subset.refl _
  | .field _ _ => by
      obtain rfl := Except.ok.inj h
      exact List.Subset.refl _
  | .setSize _ => by
      obtain rfl := Except.ok.inj h
      exact List.Subset.refl _
  | .endpoint _ _ => by
      obtain rfl := Except.ok.inj h
      exact List.Subset.refl _
  | .elementField _ _ => by
      obtain rfl := Except.ok.inj h
      exact List.Subset.refl _
  | .index _ _ => by
      obtain rfl := Except.ok.inj h
      exact List.Subset.refl _
  | .indexed _ => by
      obtain rfl := Except.ok.inj h
      exact List.Subset.refl _
termination_by structural e

theorem reads_of_lowerExprs (es : List (Expr α)) {es' : List (Expr α)}
    (h : c.lowerExprs es = .ok es') : Expr.readsOfList es' ⊆ Expr.readsOfList es :=
  match es with
  | [] => by
      obtain rfl := Except.ok.inj h
      exact List.Subset.refl _
  | e :: rest => by
      obtain ⟨e', rest', he, hrest, rfl⟩ := lowerExprs_cons_eq_ok_iff.1 h
      rw [Expr.readsOfList_cons, Expr.readsOfList_cons]
      exact List.append_subset.2
        ⟨List.Subset.trans (reads_of_lowerExpr e he) (List.subset_append_left ..),
          List.Subset.trans (reads_of_lowerExprs rest hrest) (List.subset_append_right ..)⟩
termination_by structural es

end

end AccessContext

end GraphTensor
