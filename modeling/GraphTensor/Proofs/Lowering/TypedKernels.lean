import GraphTensor.Proofs.Lowering.Runs
import GraphTensor.Proofs.Machine.Typing
set_option autoImplicit false

/-! # Kernels come to values of their types

The types of a kernel's expressions are found before lowering, in a scope that grows with each
local. At run time a memory holds a value of its type for each name in scope
(`KernelContext.Holds`), so that a typed expression, lowered, comes to a value of its type, and each
statement leaves a memory for the scope after it (`TypeScope.next`).

Typing leaves some things open: what a position is that a read names, that endpoints are no value,
and whether what is added to a local can be added to it. `Stmt.UsedAsTyped` names these, each for
the statements that it concerns. -/

namespace GraphTensor

variable {α : Type}

/-! ## What typing leaves open -/

/-- The fields that an expression of a kernel over a set reads, each with its set. -/
def Expr.fieldsRead (set : SetName) (e : Expr α) : List (SetName × FieldName) :=
  e.subexprs.filterMap fun
    | .elementField _ name => some (set, name)
    | .fieldLoad other name _ => some (other, name)
    | _ => none

/-- The fields that an expression of a kernel over a set reads are bound. -/
def Bindings.Supplies (b : Bindings α) (set : SetName) (e : Expr α) : Prop :=
  ∀ p ∈ e.fieldsRead set, ∃ data, b.field p.1 p.2 = .ok data

theorem Bindings.Supplies.mono {b : Bindings α} {set : SetName} {e e' : Expr α}
    (h : b.Supplies set e) (hsub : e'.subexprs ⊆ e.subexprs) : b.Supplies set e' :=
  fun _ hmem => h _ (List.filterMap_subset _ hsub hmem)

/-- The positions that the reads in an expression name are integers. -/
def TypeScope.Places (scope : TypeScope α) (e : Expr α) : Prop :=
  ∀ name ∈ e.positions, ∃ type, scope.lookup name = .ok type ∧ type.isIndex = true

theorem TypeScope.Places.mono {scope : TypeScope α} {e e' : Expr α} (h : scope.Places e)
    (hsub : e'.subexprs ⊆ e.subexprs) : scope.Places e' :=
  fun _ hmem => h _ (List.filterMap_subset _ hsub hmem)

/-- The values of a statement are used as their types allow, where the checks of lowering do not see
    to it. -/
def Stmt.UsedAsTyped (scope : TypeScope α) : Stmt α → Prop
  | .assign _ value => scope.Places value ∧ ∀ set, scope.typeOf value ≠ .ok (.endpoints set)
  | .accumulate name value => scope.Places value ∧ ∀ bound type, scope.lookup name = .ok bound →
      scope.typeOf value = .ok type → bound.Adds type
  | .tensorWrite _ _ _ value _ => scope.Places value
  | _ => True

/-- The scope after a statement. -/
def TypeScope.next (scope : TypeScope α) : Stmt α → TypeScope α
  | .assign name value =>
    match scope.typeOf value with
    | .ok type => scope.bind name type
    | .error _ => scope
  | _ => scope

/-- The scope after statements. -/
def TypeScope.after (scope : TypeScope α) (body : List (Stmt α)) : TypeScope α :=
  body.foldl TypeScope.next scope

/-- All values of a body are used as their types allow, each statement in the scope that the statements
    before it leave. -/
def Stmt.AllUsedAsTyped : TypeScope α → List (Stmt α) → Prop
  | _, [] => True
  | scope, s :: rest => s.UsedAsTyped scope ∧ AllUsedAsTyped (scope.next s) rest

theorem Expr.subexprs_subset_ofList {es : List (Expr α)} {e : Expr α} (he : e ∈ es) :
    e.subexprs ⊆ subexprsOfList es := by
  induction es with
  | nil => cases he
  | cons first rest ih =>
      rw [subexprsOfList]
      rcases List.mem_cons.1 he with rfl | he
      · exact List.subset_append_left _ _
      · exact List.subset_append_of_subset_right _ (ih he)

/-! ## Types that lowering finds -/

namespace TypeScope

variable {scope : TypeScope α} {set : SetName} {type : ValueType}

theorem endpointType_eq_ok {slot : Nat} (h : scope.endpointType set slot = .ok type) :
    ∃ decl ep, scope.func.set? set = some decl ∧ decl.endpoints = some ep ∧
      type = .element ep.set := by
  obtain ⟨decl, hdecl, hslot⟩ := Outcome.bind_eq_ok_iff.1 h
  split at hslot
  · cases hslot
  · next ep hep =>
      split at hslot
      · cases hslot
      · exact ⟨decl, ep, Outcome.orFail_eq_ok_iff.1 hdecl, hep, (Except.ok.inj hslot).symm⟩

/-- A field has the type that its set declares. -/
theorem fieldType_eq_ok {field : FieldName} (h : scope.fieldType set field = .ok type) :
    ∃ decl declared, scope.func.set? set = some decl ∧ decl.fields.get? field = some declared ∧
      type = declared.valueType := by
  obtain ⟨decl, hdecl, hfield⟩ := Outcome.bind_eq_ok_iff.1 h
  have hset := Outcome.orFail_eq_ok_iff.1 hdecl
  split at hfield
  · next block hget => exact ⟨decl, .float block, hset, hget, (Except.ok.inj hfield).symm⟩
  · next hget => exact ⟨decl, .bool, hset, hget, (Except.ok.inj hfield).symm⟩
  · cases hfield

end TypeScope

/-! ## Row-major places -/

namespace Machine

variable [Scalar α] {m : Machine α} {mem : Memory α}

theorem yields_rowMajorFrom {outer : Expr α} {es : List (Expr α)} {dims : List IndexDomain}
    {extents : List Nat} (hextents : m.Extents dims extents)
    (houter : (m.eval mem outer).Yields (·.HasType .int))
    (hes : ∀ e ∈ es, (m.eval mem e).Yields (·.HasType .int)) :
    (m.eval mem (rowMajorFrom outer es dims)).Yields (·.HasType .int) := by
  induction hextents generalizing outer es with
  | nil => cases es <;> exact houter
  | @cons dim n dims extents hn _ ih =>
      cases es with
      | nil => exact houter
      | cons e es =>
          have hextent : (m.eval mem (dim.extentExpr : Expr α)).Yields (·.HasType .int) := by
            rw [eval_extentExpr hn]
            trivial
          have hscaled : (m.eval mem (.binary .mul outer dim.extentExpr)).Yields (·.HasType .int) := by
            rw [eval]
            exact houter.bind fun _ hv => hextent.bind fun _ hw => Value.yields_operate hv hw rfl
          refine ih ?_ fun e' he' => hes e' (List.mem_cons_of_mem _ he')
          rw [eval]
          exact hscaled.bind fun _ hv =>
            (hes e (List.mem_cons_self ..)).bind fun _ hw => Value.yields_operate hv hw rfl

theorem yields_rowMajor {es : List (Expr α)} {dims : List IndexDomain} {extents : List Nat}
    (hextents : m.Extents dims extents)
    (hes : ∀ e ∈ es, (m.eval mem e).Yields (·.HasType .int)) :
    (m.eval mem (rowMajor es dims)).Yields (·.HasType .int) := by
  cases es with
  | nil => exact trivial
  | cons e es =>
      cases hextents with
      | nil => exact trivial
      | cons _ hrest =>
          exact yields_rowMajorFrom hrest (hes e (List.mem_cons_self ..))
            fun e' he' => hes e' (List.mem_cons_of_mem _ he')

theorem yields_offset {type : TensorType} {block : BlockShape} {es : List (Expr α)} {offset : Expr α}
    {extents : List Nat} (hoffset : AccessContext.offset type block es = .ok offset)
    (hextents : m.Extents type.dims extents)
    (hes : ∀ e ∈ es, (m.eval mem e).Yields (·.HasType .int)) :
    (m.eval mem offset).Yields (·.HasType .int) := by
  obtain ⟨length, _, hout⟩ := Outcome.bind_eq_ok_iff.1 hoffset
  obtain rfl := Except.ok.inj hout
  have hplace := yields_rowMajor hextents hes
  split
  · exact hplace
  · rw [eval]
    exact hplace.bind fun _ hv => Ran.Yields.of_ok (b := .int _) rfl
      (Value.yields_operate (r := .int) hv trivial rfl)

theorem yields_asInt {β : Type} {Q : β → Prop} {place : Place} {e : Expr α} {g : Int → Ran β}
    (he : (m.eval mem e).Yields (·.HasType .int)) (hg : ∀ n, (g n).Yields Q) :
    (do let v ← m.eval mem e; let n ← v.asInt place; g n : Ran β).Yields Q := by
  refine he.bind fun v hv => ?_
  obtain ⟨n, rfl⟩ := hv.exists_int rfl
  exact hg n

theorem yields_asBlock {β : Type} {Q : β → Prop} {place : Place} {e : Expr α} {block : BlockShape}
    {g : BlockValue α → Ran β} (he : (m.eval mem e).Yields (·.HasType (.block block)))
    (hg : ∀ b, b.shape = block → (g b).Yields Q) :
    (do let v ← m.eval mem e; let b ← v.asBlock place; g b : Ran β).Yields Q := by
  refine he.bind fun v hv => ?_
  obtain ⟨b, rfl, hb⟩ := hv.exists_block
  exact hg b hb

end Machine

/-! ## Runs of a kernel -/

namespace KernelContext

section

variable [Scalar α]

/-- What a run has for the expressions of a kernel: the sets that the function declares have their
    sizes and topologies, and the fields that are bound suit their declarations. -/
structure Serves (c : KernelContext) (a : AccessContext α) (f : Func α) (m : Machine α) : Prop where
  /-- The set of the assembly is declared. -/
  declared : f.set? c.set.name = some c.set
  /-- The kernel binds an element of the set and its endpoints. -/
  checked : c.kernel.check c.set = .ok ()
  /-- The machine runs a function with the same variables. -/
  types : ∀ var, m.func.varType? var = f.varType? var
  /-- Accesses are lowered for the same variables. -/
  func : ∀ var, a.func.varType? var = f.varType? var
  /-- Accesses are lowered with the same descriptors. -/
  storages : a.storages = c.storages
  /-- The descriptors suit the tensors. -/
  describes : m.Describes c.storages
  /-- Every declared set has a size. -/
  sized : ∀ set decl, f.set? set = some decl → ∃ n, m.resolution.size set = .ok n
  /-- Every declared relation has its topology. -/
  related : ∀ set decl ep, f.set? set = some decl → decl.endpoints = some ep →
    ∃ t, m.resolution.topology set = .ok t
  /-- The values of a field are of the declared kind. -/
  fields : ∀ set decl field type data, f.set? set = some decl →
    decl.fields.get? field = some type → m.bindings.field set field = .ok data →
      data.kind = type.kind

/-- A scope in which a kernel is checked. -/
structure Within (c : KernelContext) (f : Func α) (scope : TypeScope α) : Prop where
  /-- It is one of the function. -/
  func : scope.func = f
  /-- The element is one of the set, unless it is hidden. -/
  element : ∀ set, scope.lookup c.kernel.element.name = .ok (.element set) → set = c.set.name
  /-- Endpoints are those of the set. -/
  endpoints : ∀ name set, scope.lookup name = .ok (.endpoints set) → set = c.set.name

/-- A memory holds values of their types for the names in scope. -/
structure Holds (c : KernelContext) (m : Machine α) (scope : TypeScope α) (mem : Memory α) :
    Prop where
  /-- Every tensor has its buffer. -/
  laid : m.Laid c.storages mem
  /-- No local hides a buffer. -/
  apart : mem.Apart
  /-- The element is bound. -/
  element : ∃ n, mem.locals.get? c.kernel.element.name = some (.int n)
  /-- A name in scope that stands for a value has one of its type. -/
  bound : ∀ name type, scope.lookup name = .ok type → type.isValue = true →
    ∃ v, mem.locals.get? name = some v ∧ v.HasType type

end

variable [Scalar α] {c : KernelContext} {a : AccessContext α} {f : Func α} {m : Machine α}
  {scope : TypeScope α} {mem : Memory α} {type : ValueType}

/-! ## Expressions -/

theorem Holds.eval_var (hm : c.Holds m scope mem) {name : VarName} (htype : scope.lookup name = .ok type)
    (hvalue : type.isValue = true) : (m.eval mem (.var name)).Yields (·.HasType type) := by
  obtain ⟨v, hv, htyped⟩ := hm.bound name type htype hvalue
  rw [Machine.eval, Memory.read, hv]
  exact htyped

theorem Holds.eval_element (hm : c.Holds m scope mem) :
    (m.eval mem (c.element : Expr α)).Yields (·.HasType .int) := by
  obtain ⟨n, hn⟩ := hm.element
  rw [KernelContext.element, Machine.eval, Memory.read, hn]
  trivial

/-- An endpoint of an integer element. -/
theorem Serves.yields_endpointOf (h : c.Serves a f m) (hfunc : scope.func = f) {set : SetName}
    {slot : Nat} {element : Expr α} (htype : scope.endpointType set slot = .ok type)
    (helement : (m.eval mem element).Yields (·.HasType .int)) :
    (m.eval mem (.endpointOf set element slot)).Yields (·.HasType type) := by
  obtain ⟨decl, ep, hdecl, hep, rfl⟩ := TypeScope.endpointType_eq_ok htype
  obtain ⟨t, ht⟩ := h.related set decl ep (hfunc ▸ hdecl) hep
  rw [Machine.eval]
  refine Ran.Yields.of_ok ht (helement.bind fun v hv => ?_)
  obtain ⟨n, rfl⟩ := hv.exists_int rfl
  refine (Machine.yields_endpointValue t set slot n).imp fun w _ hw => ?_
  obtain ⟨k, rfl⟩ := hw.exists_int rfl
  trivial

/-- A field of an integer element. -/
theorem Serves.yields_fieldLoad (h : c.Serves a f m) (hfunc : scope.func = f) {set : SetName}
    {field : FieldName} {element : Expr α} (htype : scope.fieldType set field = .ok type)
    (hbound : ∃ data, m.bindings.field set field = .ok data)
    (helement : (m.eval mem element).Yields (·.HasType .int)) :
    (m.eval mem (.fieldLoad set field element)).Yields (·.HasType type) := by
  obtain ⟨decl, declared, hdecl, hfield, rfl⟩ := TypeScope.fieldType_eq_ok htype
  obtain ⟨k, hk⟩ := h.sized set decl (hfunc ▸ hdecl)
  obtain ⟨data, hdata⟩ := hbound
  have hkind := h.fields set decl field declared data (hfunc ▸ hdecl) hfield hdata
  rw [Machine.eval]
  refine Ran.Yields.of_ok hk (helement.bind fun v hv => ?_)
  obtain ⟨n, rfl⟩ := hv.exists_int rfl
  refine (Value.yields_asIndex ..).bind fun e _ => Ran.Yields.of_ok hdata ?_
  exact Machine.yields_fieldValue hkind _ e

/-- **A read of a tensor** at integer indices gives one of its blocks. -/
theorem Serves.yields_tensorRead (h : c.Serves a f m) (hm : c.Holds m scope mem) {tensor : VarName}
    {type : TensorType} {indices : List (Expr α)} {position : Option VarName} {e : Expr α}
    (htype : f.varType? tensor = some (.tensor type))
    (hlower : a.lowerExpr (.tensorRead tensor indices position) = .ok e)
    (hindices : ∀ es, a.lowerExprs indices = .ok es →
      ∀ e ∈ es, (m.eval mem e).Yields (·.HasType .int))
    (hposition : ∀ name, position = some name →
      ∃ type, scope.lookup name = .ok type ∧ type.isIndex = true) :
    (m.eval mem e).Yields (·.HasType (.block type.block)) := by
  have htype' : m.func.varType? tensor = some (.tensor type) := (h.types tensor).trans htype
  -- the buffer has the layout that the address was chosen for
  obtain ⟨s, b, hs, hblock, hb, hshaped⟩ := hm.laid.shaped h.describes htype'
  obtain ⟨address, haddress, rfl⟩ := AccessContext.lowerExpr_tensorRead (h.storages ▸ hs) hlower
  rw [← hblock]
  cases haddress with
  | @dense _ type' es offset hkind htensor _ hes hoffset =>
      obtain rfl : type = type' := by
        simpa [Func.tensorType?, h.func, htype, ValueType.asTensor?] using htensor
      obtain ⟨values, extents, rfl, hextents, _⟩ := hshaped.of_dense hkind
      rw [Address.read, Machine.eval]
      refine Machine.yields_asInt (Machine.yields_offset hoffset hextents (hindices es hes))
        fun n => Ran.Yields.of_ok (Outcome.orFail_eq_ok_iff.2 hb) ?_
      exact (Buffer.yields_load ..).bind fun _ hshape => hshape
  | @position p name hkind =>
      obtain ⟨found, hfound, hindex⟩ := hposition name rfl
      rw [Address.read, Machine.eval]
      refine (hm.eval_var hfound (ValueType.isValue_of_isIndex hindex)).bind fun v hv => ?_
      exact Machine.yields_sparseBlock hb (Or.inr (hv.exists_int hindex))
  | @search p row col hkind _ hes =>
      obtain ⟨q, values, rfl, _, hq, _⟩ := hshaped.of_sparse hkind
      have hplaces := hindices _ hes
      rw [Address.read, Machine.eval]
      refine Ran.Yields.bind (P := fun v => v = .miss ∨ ∃ n, v = .int n) ?_
        fun v hv => Machine.yields_sparseBlock hb hv
      rw [Machine.eval]
      refine Ran.Yields.of_ok hq (Machine.yields_asInt (hplaces row (by simp)) fun x => ?_)
      refine Machine.yields_asInt (hplaces col (by simp)) fun y => ?_
      exact Machine.locateValue_cases ..
  | register hkind =>
      obtain ⟨block, rfl, _, hshape⟩ := hshaped.of_register hkind
      rw [Address.read, Machine.eval, Memory.read, hm.apart tensor _ hb, hb]
      exact hshape

omit [Scalar α] in
theorem isValue_of_resultType {op : BinaryOp} {l r : ValueType} (h : op.resultType l r = .ok type) :
    l.isValue = true ∧ r.isValue = true := by
  rcases BinaryOp.resultType_eq_ok h with ⟨rfl, rfl, _⟩ | ⟨s, t, _, rfl, rfl, _⟩ <;> exact ⟨rfl, rfl⟩

mutual

/-- **Typed expressions.** An expression that a kernel takes for a value, lowered, comes to a value of
    its type. -/
theorem Serves.yields_eval (h : c.Serves a f m) (hw : c.Within f scope) (hm : c.Holds m scope mem)
    (e : Expr α) {e' e'' : Expr α} {type : ValueType} (htakes : c.Takes scope e type e')
    (hvalue : type.isValue = true) (hlower : a.lowerExpr e' = .ok e'')
    (hfields : m.bindings.Supplies c.set.name e) (hplaces : scope.Places e) :
    (m.eval mem e'').Yields (·.HasType type) := by
  match e, htakes with
  | .literal value, .literal htype =>
      obtain rfl := Except.ok.inj hlower
      rw [Machine.eval]
      exact Machine.yields_literalValue htype
  | .var name, .var htype _ =>
      obtain rfl := Except.ok.inj hlower
      exact hm.eval_var htype hvalue
  | .setSize set, .setSize hset =>
      obtain rfl := Except.ok.inj hlower
      obtain ⟨k, hk⟩ := h.sized set _ (hw.func ▸ hset)
      rw [Machine.eval, hk]
      trivial
  | .endpoint endpoints slot, .endpoint hendpoints hslot =>
      obtain rfl := Except.ok.inj hlower
      rw [hw.endpoints endpoints _ hendpoints] at hslot
      exact h.yields_endpointOf hw.func hslot hm.eval_element
  | .elementField _ field, .elementField helement hfield =>
      obtain rfl := Except.ok.inj hlower
      rw [hw.element _ helement] at hfield
      exact h.yields_fieldLoad hw.func hfield
        (hfields (c.set.name, field) (by simp [Expr.fieldsRead, Expr.subexprs])) hm.eval_element
  | .endpointOf set element slot, .endpointOf helement hexpect hslot =>
      obtain ⟨element'', hlowered, rfl⟩ := AccessContext.lowerExpr_endpointOf_eq_ok_iff.1 hlower
      have hindex := ValueType.isIndex_of_expectElement hexpect
      have hsub : element.subexprs ⊆ (Expr.endpointOf set element slot).subexprs := by
        rw [Expr.subexprs]
        exact List.subset_cons_self ..
      have heval := h.yields_eval hw hm element helement (ValueType.isValue_of_isIndex hindex) hlowered
        (hfields.mono hsub) (hplaces.mono hsub)
      exact h.yields_endpointOf hw.func hslot (heval.imp fun _ _ hv => hv.int_of_isIndex hindex)
  | .fieldLoad set field element, .fieldLoad helement hexpect hfield =>
      obtain ⟨element'', hlowered, rfl⟩ := AccessContext.lowerExpr_fieldLoad_eq_ok_iff.1 hlower
      have hindex := ValueType.isIndex_of_expectElement hexpect
      have hsub : element.subexprs ⊆ (Expr.fieldLoad set field element).subexprs := by
        rw [Expr.subexprs]
        exact List.subset_cons_self ..
      have heval := h.yields_eval hw hm element helement (ValueType.isValue_of_isIndex hindex) hlowered
        (hfields.mono hsub) (hplaces.mono hsub)
      exact h.yields_fieldLoad hw.func hfield
        (hfields (set, field) (by simp [Expr.fieldsRead, Expr.subexprs]))
        (heval.imp fun _ _ hv => hv.int_of_isIndex hindex)
  | .binary op lhs rhs, .binary hlhs hrhs hresult =>
      obtain ⟨lhs'', rhs'', hlhs', hrhs', rfl⟩ := AccessContext.lowerExpr_binary_eq_ok_iff.1 hlower
      obtain ⟨hlvalue, hrvalue⟩ := isValue_of_resultType hresult
      have hleft : lhs.subexprs ⊆ (Expr.binary op lhs rhs).subexprs := by
        rw [Expr.subexprs]
        exact List.subset_cons_of_subset _ (List.subset_append_left _ _)
      have hright : rhs.subexprs ⊆ (Expr.binary op lhs rhs).subexprs := by
        rw [Expr.subexprs]
        exact List.subset_cons_of_subset _ (List.subset_append_right _ _)
      have hx := h.yields_eval hw hm lhs hlhs hlvalue hlhs' (hfields.mono hleft) (hplaces.mono hleft)
      have hy := h.yields_eval hw hm rhs hrhs hrvalue hrhs' (hfields.mono hright)
        (hplaces.mono hright)
      rw [Machine.eval]
      exact hx.bind fun _ hv => hy.bind fun _ hw => Value.yields_operate hv hw hresult
  | .neg inner, .neg hinner hresult =>
      obtain ⟨inner'', hlowered, rfl⟩ := AccessContext.lowerExpr_neg_eq_ok_iff.1 hlower
      have hsub : inner.subexprs ⊆ (Expr.neg inner).subexprs := by
        rw [Expr.subexprs]
        exact List.subset_cons_self ..
      have heval := h.yields_eval hw hm inner hinner hvalue hlowered (hfields.mono hsub)
        (hplaces.mono hsub)
      rw [Machine.eval]
      exact heval.bind fun _ hv => Value.yields_neg hv hresult
  | .tensorRead tensor indices position, .tensorRead _ htype hindices =>
      have hsub : ∀ e ∈ indices,
          e.subexprs ⊆ (Expr.tensorRead tensor indices position).subexprs := by
        intro e he
        rw [Expr.subexprs]
        exact List.subset_cons_of_subset _ (Expr.subexprs_subset_ofList he)
      refine h.yields_tensorRead hm (hw.func ▸ htype) hlower (fun es hes => ?_) ?_
      · exact h.yields_indices hw hm indices hindices hes (fun e he => hfields.mono (hsub e he))
          fun e he => hplaces.mono (hsub e he)
      · rintro name rfl
        exact hplaces name (by simp [Expr.positions_tensorRead])
termination_by structural e

theorem Serves.yields_indices (h : c.Serves a f m) (hw : c.Within f scope)
    (hm : c.Holds m scope mem) (es : List (Expr α)) {es' es'' : List (Expr α)}
    {dims : List IndexDomain} (htakes : c.TakesAll scope es dims es')
    (hlower : a.lowerExprs es' = .ok es'')
    (hfields : ∀ e ∈ es, m.bindings.Supplies c.set.name e) (hplaces : ∀ e ∈ es, scope.Places e) :
    ∀ e ∈ es'', (m.eval mem e).Yields (·.HasType .int) := by
  match es, htakes with
  | [], .nil =>
      obtain rfl := Except.ok.inj hlower
      exact fun _ he => (List.not_mem_nil he).elim
  | e :: rest, .cons he hfit hrest =>
      obtain ⟨e'', rest'', he', hrest', rfl⟩ := AccessContext.lowerExprs_cons_eq_ok_iff.1 hlower
      have hindex := ValueType.isIndex_of_fitsIndex hfit
      have hfirst := h.yields_eval hw hm e he (ValueType.isValue_of_isIndex hindex) he'
        (hfields e (List.mem_cons_self ..)) (hplaces e (List.mem_cons_self ..))
      refine List.forall_mem_cons.2 ⟨hfirst.imp fun _ _ hv => hv.int_of_isIndex hindex, ?_⟩
      exact h.yields_indices hw hm rest hrest hrest'
        (fun e he => hfields e (List.mem_cons_of_mem _ he))
        fun e he => hplaces e (List.mem_cons_of_mem _ he)
termination_by structural es

end

/-! ## Statements -/

omit [Scalar α] in
/-- A local that is bound to a value leaves the kernel's own variables as they are. -/
theorem Within.bind (hw : c.Within f scope) {name : VarName} (hname : name ≠ c.kernel.element.name)
    (htype : ∀ set, type ≠ .endpoints set) : c.Within f (scope.bind name type) where
  func := hw.func
  element := fun set hset => by
    rw [lookup_bind, if_neg hname] at hset
    exact hw.element set hset
  endpoints := fun other set hset => by
    rw [lookup_bind] at hset
    split at hset
    · exact absurd (Except.ok.inj hset) (htype set)
    · exact hw.endpoints other set hset

omit [Scalar α] in
theorem Within.next (hw : c.Within f scope) {s : Stmt α} (hs : s.UsedAsTyped scope)
    (hname : ∀ name, s.boundName? = some name → name ≠ c.kernel.element.name) :
    c.Within f (scope.next s) := by
  unfold TypeScope.next
  split
  · next name value =>
      split
      · next type htype =>
          exact hw.bind (hname name rfl) fun set heq => hs.2 set (heq ▸ htype)
      · exact hw
  · exact hw

theorem Holds.withLocal (hm : c.Holds m scope mem) {scope' : TypeScope α} {name : VarName}
    {v : Value α} (hnone : mem.buffers.get? name = none) (hname : name ≠ c.kernel.element.name)
    (hself : ∀ type, scope'.lookup name = .ok type → v.HasType type)
    (hother : ∀ other, name ≠ other → scope'.lookup other = scope.lookup other) :
    c.Holds m scope' (mem.withLocal name v) := by
  have hchanges : mem.Changes [name] [] (mem.withLocal name v) :=
    .single (.value (List.mem_singleton_self _) hnone)
  refine ⟨hm.laid.changes hchanges,
    hchanges.apart hm.apart fun _ hmem => (List.not_mem_nil hmem).elim, ?_, ?_⟩
  · obtain ⟨n, hn⟩ := hm.element
    exact ⟨n, by simpa [Memory.withLocal, Table.get?_insert, hname] using hn⟩
  · intro other type htype hvalue
    by_cases heq : name = other
    · subst heq
      exact ⟨v, by simp [Memory.withLocal, Table.get?_insert], hself type htype⟩
    · rw [hother other heq] at htype
      simpa [Memory.withLocal, Table.get?_insert, heq] using hm.bound other type htype hvalue

/-- A statement that keeps the locals. -/
theorem Holds.keptLocals (hm : c.Holds m scope mem) {s : Stmt α} {mem' : Memory α}
    (hexec : m.exec s mem = .ok mem') (hbinds : s.binds = [])
    (hlocals : mem'.locals = mem.locals) : c.Holds m scope mem' := by
  have hchanges := Machine.changes_exec s hexec
  rw [hbinds] at hchanges
  refine ⟨hm.laid.changes hchanges,
    hchanges.apart hm.apart fun _ hmem => (List.not_mem_nil hmem).elim, ?_, ?_⟩
  · rw [hlocals]
    exact hm.element
  · rw [hlocals]
    exact hm.bound

theorem Holds.buffer_none (hm : c.Holds m scope mem) (h : c.Serves a f m) {name : VarName}
    (hname : f.varType? name = none) : mem.buffers.get? name = none :=
  hm.laid.buffer_none fun type htype => by
    rw [h.types, hname] at htype
    cases htype

/-- An assignment binds a local of the value's type. -/
theorem Serves.yields_assign (h : c.Serves a f m) (hw : c.Within f scope) (hm : c.Holds m scope mem)
    {name : VarName} {value value' value'' : Expr α} (hname : f.varType? name = none)
    (helement : name ≠ c.kernel.element.name) (htype : scope.typeOf value = .ok type)
    (htensor : type.asTensor? = none) (hresolve : c.resolve value = .ok value')
    (hlower : a.lowerExpr value' = .ok value'') (hfields : m.bindings.Supplies c.set.name value)
    (huse : (Stmt.assign name value).UsedAsTyped scope) :
    (m.exec (.assign name value'') mem).Yields (c.Holds m (scope.bind name type)) := by
  have hvalue : type.isValue = true := by
    cases type with
    | tensor _ => cases htensor
    | endpoints set => exact absurd htype (huse.2 set)
    | _ => rfl
  have hnone := hm.buffer_none h hname
  rw [Machine.exec, Machine.assign, hnone]
  have htakes := takes_of_resolve value htype htensor hresolve
  refine (h.yields_eval hw hm value htakes hvalue hlower hfields huse.1).bind fun v hv => ?_
  refine hm.withLocal hnone helement (fun found hfound => ?_) fun other hother => ?_
  · rw [lookup_bind, if_pos rfl] at hfound
    exact Except.ok.inj hfound ▸ hv
  · rw [lookup_bind, if_neg hother]

/-- An addition to a local keeps its type. -/
theorem Serves.yields_accumulate (h : c.Serves a f m) (hw : c.Within f scope)
    (hm : c.Holds m scope mem) {name : VarName} {value value' value'' : Expr α} {bound : ValueType}
    (hname : f.varType? name = none) (helement : name ≠ c.kernel.element.name)
    (htype : scope.typeOf value = .ok type) (htensor : type.asTensor? = none)
    (hbound : scope.lookup name = .ok bound) (hresolve : c.resolve value = .ok value')
    (hlower : a.lowerExpr value' = .ok value'')
    (hfields : m.bindings.Supplies c.set.name value)
    (huse : (Stmt.accumulate name value).UsedAsTyped scope) :
    (m.exec (.accumulate name value'') mem).Yields (c.Holds m scope) := by
  have hadds : bound.Adds type := huse.2 bound type hbound htype
  have hvalues : bound.isValue = true ∧ type.isValue = true := by
    rcases hadds with ⟨hl, hr⟩ | ⟨shape, rfl, rfl⟩
    · exact ⟨ValueType.isValue_of_isIndex hl, ValueType.isValue_of_isIndex hr⟩
    · exact ⟨rfl, rfl⟩
  have hnone := hm.buffer_none h hname
  obtain ⟨current, hcurrent, hcurrentType⟩ := hm.bound name bound hbound hvalues.1
  rw [Machine.exec, Machine.assign, hnone]
  have htakes := takes_of_resolve value htype htensor hresolve
  refine (h.yields_eval hw hm value htakes hvalues.2 hlower hfields huse.1).bind fun v hv => ?_
  refine Ran.Yields.of_ok (Outcome.orFail_eq_ok_iff.2 hcurrent) ?_
  refine (Value.yields_add hcurrentType hv hadds).bind fun sum hsum => ?_
  refine hm.withLocal hnone helement (fun found hfound => ?_) fun _ _ => rfl
  exact Except.ok.inj (hbound.symm.trans hfound) ▸ hsum

omit [Scalar α] in
theorem fieldsRead_of_role {set : SetName} {index : Expr α} {role : IndexRole}
    (h : c.kernel.role? index = some role) : index.fieldsRead set = [] := by
  unfold KernelVars.role? at h
  split at h
  · rfl
  · rfl
  · cases h

theorem Serves.yields_roles (h : c.Serves a f m) (hw : c.Within f scope) (hm : c.Holds m scope mem)
    {indices : List (Expr α)} {dims : List IndexDomain} {roles : List IndexRole}
    (hfit : c.RolesFit scope indices dims roles) :
    ∀ e ∈ roles.map (IndexRole.expr c), (m.eval mem e).Yields (·.HasType .int) := by
  induction hfit with
  | nil => exact fun _ he => (List.not_mem_nil he).elim
  | @cons index indices set dims role roles hrole htype _ ih =>
      have hfields : m.bindings.Supplies c.set.name index := by
        rw [Bindings.Supplies, fieldsRead_of_role hrole]
        exact fun _ hmem => (List.not_mem_nil hmem).elim
      have hplaces : scope.Places index := by
        rw [TypeScope.Places, positions_of_role hrole]
        exact fun _ hmem => (List.not_mem_nil hmem).elim
      have hlower : a.lowerExpr (role.expr c) = .ok (role.expr c) := by cases role <;> rfl
      have htakes := takes_of_resolve index htype rfl (resolve_of_role hrole)
      have hfirst := h.yields_eval hw hm index htakes rfl hlower hfields hplaces
      exact List.forall_mem_cons.2 ⟨hfirst.imp fun _ _ hv => hv.int_of_isIndex rfl, ih⟩

/-- **A write** adds a block to its target, unless it misses the target's pattern. -/
theorem Serves.yields_write (h : c.Serves a f m) (hw : c.Within f scope) (hm : c.Holds m scope mem)
    {target : VarName} {indices : List (Expr α)} {value value' : Expr α} {type : TensorType}
    {roles : List IndexRole} {storage : TensorStorage} {s : Stmt α}
    (hfits : c.WriteFits scope target indices value type roles storage)
    (htakes : c.Takes scope value (.block type.block) value')
    (hs : a.lowerStmt (.tensorWrite target (roles.map (IndexRole.expr c)) none value' true) = .ok s)
    (hfields : m.bindings.Supplies c.set.name value) (hplaces : scope.Places value) :
    (m.exec s mem).Yields (c.Holds m scope) := by
  have htype : m.func.varType? target = some (.tensor type) :=
    (h.types target).trans (hw.func ▸ hfits.isTensor)
  -- a store, a sparse store or a sum, whichever the layout of the target's buffer asks for
  obtain ⟨storage', b, hstorage, hblock, hb, hshaped⟩ := hm.laid.shaped h.describes htype
  obtain rfl : storage = storage' := Option.some.inj (hfits.hasStorage.symm.trans hstorage)
  obtain ⟨value'', hlower, hlowered⟩ := lowerStmt_write (h.storages ▸ hstorage) hs
  have hindices := h.yields_roles hw hm hfits.hasRoles
  have hvalue : (m.eval mem value'').Yields (·.HasType (.block storage.block)) := by
    rw [hblock]
    exact h.yields_eval hw hm value htakes rfl hlower hfields hplaces
  cases hshaped with
  | @dense values extents hkind hextents =>
      rw [hkind] at hlowered
      obtain ⟨type', offset, htensor, _, hoffset, rfl⟩ := hlowered
      obtain rfl : type = type' := by
        simpa [Func.tensorType?, h.func, ← h.types, htype, ValueType.asTensor?] using htensor
      have hstore : (m.exec (.store target offset value'' true) mem).Yields fun _ => True := by
        rw [Machine.exec]
        refine Machine.yields_asInt (Machine.yields_offset hoffset hextents hindices) fun n => ?_
        exact Machine.yields_asBlock hvalue fun w hw => Machine.yields_store hb hw n true
      exact hstore.imp fun mem' hexec _ =>
        hm.keptLocals hexec rfl (Machine.refills_execStore hexec).locals_eq
  | @sparse p q values hkind _ hq =>
      rw [hkind] at hlowered
      obtain ⟨row, col, rfl, rfl⟩ := hlowered
      have hstore : (m.exec (.sparseStore target (.locate p (row.expr c) (col.expr c) a.search)
          value'' true storage.block) mem).Yields fun _ => True := by
        rw [Machine.exec]
        refine Ran.Yields.bind (P := fun v => v = .miss ∨ ∃ n, v = .int n) ?_ fun v hv => ?_
        · rw [Machine.eval]
          refine Ran.Yields.of_ok hq (Machine.yields_asInt (hindices _ (by simp)) fun x => ?_)
          refine Machine.yields_asInt (hindices _ (by simp)) fun y => ?_
          exact Machine.locateValue_cases ..
        · rcases hv with rfl | ⟨n, rfl⟩
          · exact rfl
          · refine Ran.Yields.of_ok (b := n) rfl (Machine.yields_asBlock hvalue fun w hw => ?_)
            refine Ran.Yields.of_ok (b := ()) (Outcome.failIf_eq_ok_iff.2 (by simp [hw])) ?_
            exact Machine.yields_sparseStore hb n w true
      exact hstore.imp fun mem' hexec _ =>
        hm.keptLocals hexec rfl (Machine.refills_execSparseStore hexec).locals_eq
  | @register block hkind _ hshape =>
      rw [hkind] at hlowered
      obtain rfl := hlowered
      have hstore : (m.exec (.accumulate target value'') mem).Yields fun _ => True := by
        rw [Machine.exec]
        exact Machine.yields_accumulate hm.apart hb (hshape ▸ block.size_data) hvalue
      refine hstore.imp fun mem' hexec _ => hm.keptLocals hexec rfl ?_
      rw [Machine.exec] at hexec
      exact (Machine.refills_assign hb hexec).locals_eq

/-! ## Bodies -/

/-- What a kernel binds and reads suits a run: its locals are not declared, and its fields are bound. -/
structure Admits (c : KernelContext) (f : Func α) (b : Bindings α) (body : List (Stmt α)) : Prop where
  /-- The kernel's own variables are not bound anew. -/
  kept : c.kernel.KeptBy body
  /-- A local is not declared. -/
  undeclared : ∀ s ∈ body, ∀ name, s.boundName? = some name → f.varType? name = none
  /-- The fields that the kernel reads are bound. -/
  fields : ∀ s ∈ body, ∀ e ∈ s.exprs, b.Supplies c.set.name e

omit [Scalar α] in
theorem Admits.tail {b : Bindings α} {s : Stmt α} {rest : List (Stmt α)}
    (h : c.Admits f b (s :: rest)) : c.Admits f b rest where
  kept := fun s hs => h.kept s (List.mem_cons_of_mem _ hs)
  undeclared := fun s hs => h.undeclared s (List.mem_cons_of_mem _ hs)
  fields := fun s hs => h.fields s (List.mem_cons_of_mem _ hs)

omit [Scalar α] in
/-- The scope after some statements of a kernel is one of the kernel. -/
theorem Within.after {body : List (Stmt α)} (hw : c.Within f scope) (hkept : c.kernel.KeptBy body)
    (huse : Stmt.AllUsedAsTyped scope body) (k : Nat) :
    c.Within f (scope.after (body.take k)) := by
  induction body generalizing scope k with
  | nil => cases k <;> exact hw
  | cons s rest ih =>
      cases k with
      | zero => exact hw
      | succ k =>
          have hnext := hw.next huse.1 fun name hname => (hkept s (List.mem_cons_self ..) name hname).1
          exact ih hnext (fun s hs => hkept s (List.mem_cons_of_mem _ hs)) huse.2 k

/-- **A kernel**, up to any of its statements, leaves values of their types for the names that are then
    in scope. -/
theorem Serves.yields_take (h : c.Serves a f m) {body lowered final : List (Stmt α)}
    (hl : c.Lowers scope body lowered) (hfinal : a.lowerBody lowered = .ok final)
    (hw : c.Within f scope) (hm : c.Holds m scope mem) (hadmits : c.Admits f m.bindings body)
    (huse : Stmt.AllUsedAsTyped scope body) (k : Nat) :
    (m.execAll (final.take k) mem).Yields (c.Holds m (scope.after (body.take k))) := by
  induction hl generalizing final mem k with
  | nil =>
      obtain rfl := Except.ok.inj hfinal
      cases k <;> exact hm
  | @assign scope name value value' type rest rest' htype htensor hvalue _ ih =>
      obtain ⟨s', final', hs, hrest, rfl⟩ := AccessContext.lowerBody_cons_eq_ok.1 hfinal
      obtain ⟨value'', hlower, rfl⟩ := AccessContext.lowerStmt_assign_eq_ok_iff.1 hs
      cases k with
      | zero => exact hm
      | succ k =>
          have helement := (hadmits.kept _ (List.mem_cons_self ..) name rfl).1
          -- the scope of what follows has the type that lowering found
          have hnext : scope.next (.assign name value) = scope.bind name type := by
            rw [TypeScope.next, htype]
          have hw' := hw.next huse.1 fun other heq => Option.some.inj heq ▸ helement
          have huse' := huse.2
          rw [hnext] at hw' huse'
          rw [List.take_succ_cons, List.take_succ_cons, Machine.execAll, TypeScope.after,
            List.foldl_cons, hnext]
          refine (h.yields_assign hw hm (hadmits.undeclared _ (List.mem_cons_self ..) name rfl)
            helement htype htensor hvalue hlower ?_ huse.1).bind fun mem' hm' =>
              ih hrest hw' hm' hadmits.tail huse' k
          exact hadmits.fields _ (List.mem_cons_self ..) value (List.mem_singleton_self _)
  | @accumulate scope name value value' type bound rest rest' htype htensor hvalue hbound _ ih =>
      obtain ⟨s', final', hs, hrest, rfl⟩ := AccessContext.lowerBody_cons_eq_ok.1 hfinal
      obtain ⟨value'', hlower, rfl⟩ := AccessContext.lowerStmt_accumulate_eq_ok_iff.1 hs
      cases k with
      | zero => exact hm
      | succ k =>
          have helement := (hadmits.kept _ (List.mem_cons_self ..) name rfl).1
          rw [List.take_succ_cons, List.take_succ_cons, Machine.execAll]
          refine (h.yields_accumulate hw hm (hadmits.undeclared _ (List.mem_cons_self ..) name rfl)
            helement htype htensor hbound hvalue hlower ?_ huse.1).bind fun mem' hm' =>
              ih hrest hw hm' hadmits.tail huse.2 k
          exact hadmits.fields _ (List.mem_cons_self ..) value (List.mem_singleton_self _)
  | @write scope target indices position value value' type roles storage rest rest' _ hfits hvalue _
      ih =>
      obtain ⟨s', final', hs, hrest, rfl⟩ := AccessContext.lowerBody_cons_eq_ok.1 hfinal
      cases k with
      | zero => exact hm
      | succ k =>
          rw [List.take_succ_cons, List.take_succ_cons, Machine.execAll]
          have htakes := takes_of_resolve value hfits.isBlock rfl hvalue
          refine (h.yields_write hw hm hfits htakes hs ?_ huse.1).bind fun mem' hm' =>
            ih hrest hw hm' hadmits.tail huse.2 k
          exact hadmits.fields _ (List.mem_cons_self ..) value
            (List.mem_append_right _ (List.mem_singleton_self _))

end KernelContext

end GraphTensor
