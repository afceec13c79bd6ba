import GraphTensor.Proofs.Lowering.Kernels
set_option autoImplicit false

/-! # What becomes of a kernel's expressions

An expression of a kernel is typed in a scope and resolved for the element of the assembly:
endpoints and fields of the element are looked up by its number, and the rest stays. What a kernel
takes (`KernelContext.Takes`) is only part of the language: tensors stand in reads alone, and no
read is of a target. The relation puts an expression, its type and what it is resolved to side by
side, so that proofs about kernels go by induction on it. -/

namespace GraphTensor

variable {α : Type}

/-! ## Types of values that are no tensors -/

theorem ValueType.asTensor?_of_expectElement {type : ValueType} (h : type.expectElement = .ok ()) :
    type.asTensor? = none := by
  cases type <;> first | rfl | cases h

theorem ValueType.asTensor?_of_fitsIndex {type : ValueType} {dim : IndexDomain}
    (h : type.fitsIndex dim = true) : type.asTensor? = none := by
  cases type <;> first | rfl | cases h

theorem BinaryOp.asTensor?_of_resultType {op : BinaryOp} {l r type : ValueType}
    (h : op.resultType l r = .ok type) : l.asTensor? = none ∧ r.asTensor? = none := by
  unfold BinaryOp.resultType at h
  split at h
  · exact ⟨rfl, rfl⟩
  · exact ⟨rfl, rfl⟩
  · cases h

namespace KernelContext

/-! ## Expressions that a kernel takes -/

mutual

/-- The expressions that a kernel takes in a scope, each with its type and what it is resolved to. -/
inductive Takes (c : KernelContext) (scope : TypeScope α) :
    Expr α → ValueType → Expr α → Prop where
  /-- A literal. -/
  | literal {value : Literal α} {type : ValueType} (htype : value.type = .ok type) :
      Takes c scope (.literal value) type (.literal value)
  /-- A name that is no tensor. -/
  | var {name : VarName} {type : ValueType} (htype : scope.lookup name = .ok type)
      (htensor : type.asTensor? = none) : Takes c scope (.var name) type (.var name)
  /-- The size of a declared set. -/
  | setSize {set : SetName} {decl : SetDecl} (hset : scope.func.set? set = some decl) :
      Takes c scope (.setSize set) .int (.setSize set)
  /-- An endpoint of the element. -/
  | endpoint {endpoints : VarName} {slot : Nat} {set : SetName} {type : ValueType}
      (hendpoints : scope.lookup endpoints = .ok (.endpoints set))
      (htype : scope.endpointType set slot = .ok type) :
      Takes c scope (.endpoint endpoints slot) type (.endpointOf c.set.name c.element slot)
  /-- A field of the element. -/
  | elementField {field : FieldName} {set : SetName} {type : ValueType}
      (helement : scope.lookup c.kernel.element.name = .ok (.element set))
      (htype : scope.fieldType set field = .ok type) :
      Takes c scope (.elementField c.kernel.element.name field) type
        (.fieldLoad c.set.name field c.element)
  /-- An endpoint of an element that is worked out. -/
  | endpointOf {set : SetName} {element element' : Expr α} {slot : Nat} {found type : ValueType}
      (helement : Takes c scope element found element') (hexpect : found.expectElement = .ok ())
      (htype : scope.endpointType set slot = .ok type) :
      Takes c scope (.endpointOf set element slot) type (.endpointOf set element' slot)
  /-- A field of an element that is worked out. -/
  | fieldLoad {set : SetName} {field : FieldName} {element element' : Expr α}
      {found type : ValueType} (helement : Takes c scope element found element')
      (hexpect : found.expectElement = .ok ()) (htype : scope.fieldType set field = .ok type) :
      Takes c scope (.fieldLoad set field element) type (.fieldLoad set field element')
  /-- A read of a tensor that is no target. -/
  | tensorRead {tensor : VarName} {type : TensorType} {indices indices' : List (Expr α)}
      {position : Option VarName} (htarget : tensor ∉ c.targets)
      (htype : scope.func.varType? tensor = some (.tensor type))
      (hindices : TakesAll c scope indices type.dims indices') :
      Takes c scope (.tensorRead tensor indices position) (.block type.block)
        (.tensorRead tensor indices' position)
  /-- An operation on two values. -/
  | binary {op : BinaryOp} {lhs rhs lhs' rhs' : Expr α} {l r type : ValueType}
      (hlhs : Takes c scope lhs l lhs') (hrhs : Takes c scope rhs r rhs')
      (hresult : op.resultType l r = .ok type) :
      Takes c scope (.binary op lhs rhs) type (.binary op lhs' rhs')
  /-- A number or a block, negated. -/
  | neg {inner inner' : Expr α} {type : ValueType} (hinner : Takes c scope inner type inner')
      (hresult : type = .int ∨ ∃ shape, type = .block shape) :
      Takes c scope (.neg inner) type (.neg inner')

/-- The indices that a kernel takes for dimensions, each with what it is resolved to. -/
inductive TakesAll (c : KernelContext) (scope : TypeScope α) :
    List (Expr α) → List IndexDomain → List (Expr α) → Prop where
  /-- There are no indices. -/
  | nil : TakesAll c scope [] [] []
  /-- An index before the others. -/
  | cons {e e' : Expr α} {es es' : List (Expr α)} {type : ValueType} {dim : IndexDomain}
      {dims : List IndexDomain} (h : Takes c scope e type e') (hfits : type.fitsIndex dim = true)
      (hrest : TakesAll c scope es dims es') :
      TakesAll c scope (e :: es) (dim :: dims) (e' :: es')

end

variable {c : KernelContext} {scope : TypeScope α}

theorem TakesAll.length_eq {es es' : List (Expr α)} {dims : List IndexDomain}
    (h : c.TakesAll scope es dims es') : es'.length = dims.length := by
  induction es generalizing dims es' with
  | nil =>
      cases h
      rfl
  | cons e rest ih =>
      cases h with
      | cons _ _ hrest => rw [List.length_cons, List.length_cons, ih hrest]

mutual

/-- **Expressions.** What is typed as no tensor and resolved is what a kernel takes. -/
theorem takes_of_resolve (e : Expr α) {e' : Expr α} {type : ValueType}
    (htype : scope.typeOf e = .ok type) (htensor : type.asTensor? = none)
    (hresolve : c.resolve e = .ok e') : c.Takes scope e type e' := by
  match e with
  | .literal value =>
      obtain rfl := Except.ok.inj hresolve
      exact .literal htype
  | .var name =>
      obtain rfl := Except.ok.inj hresolve
      exact .var htype htensor
  | .setSize set =>
      obtain rfl := Except.ok.inj hresolve
      obtain ⟨decl, hdecl, hout⟩ := Outcome.bind_eq_ok_iff.1 htype
      obtain rfl := Except.ok.inj hout
      exact .setSize (Outcome.orFail_eq_ok_iff.1 hdecl)
  | .endpoint endpoints slot =>
      obtain rfl := Except.ok.inj hresolve
      obtain ⟨found, hfound, hslot⟩ := Outcome.bind_eq_ok_iff.1 htype
      split at hslot
      · exact .endpoint hfound hslot
      · cases hslot
  | .elementField element field =>
      rw [resolve] at hresolve
      split at hresolve
      · cases hresolve
      · next helement =>
          obtain rfl := Except.ok.inj hresolve
          obtain rfl := not_not.1 helement
          obtain ⟨found, hfound, hfield⟩ := Outcome.bind_eq_ok_iff.1 htype
          split at hfield
          · exact .elementField hfound hfield
          · cases hfield
  | .endpointOf set element slot =>
      obtain ⟨element', helement, hout⟩ := Outcome.bind_eq_ok_iff.1 hresolve
      obtain rfl := Except.ok.inj hout
      obtain ⟨found, hfound, hrest⟩ := Outcome.bind_eq_ok_iff.1 htype
      obtain ⟨_, hexpect, hslot⟩ := Outcome.bind_eq_ok_iff.1 hrest
      have htensor := ValueType.asTensor?_of_expectElement hexpect
      exact .endpointOf (takes_of_resolve element hfound htensor helement) hexpect hslot
  | .fieldLoad set field element =>
      obtain ⟨element', helement, hout⟩ := Outcome.bind_eq_ok_iff.1 hresolve
      obtain rfl := Except.ok.inj hout
      obtain ⟨found, hfound, hrest⟩ := Outcome.bind_eq_ok_iff.1 htype
      obtain ⟨_, hexpect, hfield⟩ := Outcome.bind_eq_ok_iff.1 hrest
      have htensor := ValueType.asTensor?_of_expectElement hexpect
      exact .fieldLoad (takes_of_resolve element hfound htensor helement) hexpect hfield
  | .tensorRead tensor indices position =>
      rw [resolve] at hresolve
      split at hresolve
      · cases hresolve
      · next htarget =>
          obtain ⟨indices', hindices, hout⟩ := Outcome.bind_eq_ok_iff.1 hresolve
          obtain rfl := Except.ok.inj hout
          obtain ⟨tensorType, hdeclared, htyped⟩ := Outcome.bind_eq_ok_iff.1 htype
          split at htyped
          · cases htyped
          · next hcount =>
              obtain ⟨_, hchecked, hblock⟩ := Outcome.bind_eq_ok_iff.1 htyped
              obtain rfl := Except.ok.inj hblock
              exact .tensorRead (by simpa using htarget) (tensor_eq_ok hdeclared)
                (takesAll_of_resolveList indices (not_not.1 hcount) hchecked hindices)
  | .binary op lhs rhs =>
      obtain ⟨lhs', hlhs, hrest⟩ := Outcome.bind_eq_ok_iff.1 hresolve
      obtain ⟨rhs', hrhs, hout⟩ := Outcome.bind_eq_ok_iff.1 hrest
      obtain rfl := Except.ok.inj hout
      obtain ⟨l, hl, hrest⟩ := Outcome.bind_eq_ok_iff.1 htype
      obtain ⟨r, hr, hresult⟩ := Outcome.bind_eq_ok_iff.1 hrest
      obtain ⟨hl', hr'⟩ := BinaryOp.asTensor?_of_resultType hresult
      exact .binary (takes_of_resolve lhs hl hl' hlhs) (takes_of_resolve rhs hr hr' hrhs) hresult
  | .neg inner =>
      obtain ⟨inner', hinner, hout⟩ := Outcome.bind_eq_ok_iff.1 hresolve
      obtain rfl := Except.ok.inj hout
      obtain ⟨found, hfound, hresult⟩ := Outcome.bind_eq_ok_iff.1 htype
      split at hresult
      · next shape =>
          obtain rfl := Except.ok.inj hresult
          exact .neg (takes_of_resolve inner hfound rfl hinner) (Or.inr ⟨shape, rfl⟩)
      · obtain rfl := Except.ok.inj hresult
        exact .neg (takes_of_resolve inner hfound rfl hinner) (Or.inl rfl)
      · cases hresult
  -- whole tensors, and what only later passes make, are refused
  | .field set field => cases hresolve
  | .index free body => cases hresolve
  | .indexed operand => cases hresolve
  | .locate pattern row col search => cases hresolve
  | .load buffer offset block => cases hresolve
  | .sparseLoad buffer position block => cases hresolve
termination_by structural e

theorem takesAll_of_resolveList (es : List (Expr α)) {es' : List (Expr α)} {tensor : VarName}
    {dims : List IndexDomain} {place : Nat} (hlength : es.length = dims.length)
    (htype : scope.checkIndices tensor es dims place = .ok ())
    (hresolve : c.resolveList es = .ok es') : c.TakesAll scope es dims es' := by
  match es with
  | [] =>
      obtain rfl := Except.ok.inj hresolve
      cases dims with
      | nil => exact .nil
      | cons dim dims => cases hlength
  | e :: rest =>
      cases dims with
      | nil => cases hlength
      | cons dim dims =>
          obtain ⟨e', he, hrest⟩ := Outcome.bind_eq_ok_iff.1 hresolve
          obtain ⟨rest', hrest', hout⟩ := Outcome.bind_eq_ok_iff.1 hrest
          obtain rfl := Except.ok.inj hout
          obtain ⟨type, htyped, hfits⟩ := Outcome.bind_eq_ok_iff.1 htype
          split at hfits
          · next hfit =>
              have htensor := ValueType.asTensor?_of_fitsIndex hfit
              exact .cons (takes_of_resolve e htyped htensor he) hfit
                (takesAll_of_resolveList rest (Nat.succ.inj hlength) hfits hrest')
          · cases hfits
termination_by structural es

end

end KernelContext

end GraphTensor
