import GraphTensor.Lowering.Error
set_option autoImplicit false

/-! # Types of expressions

The passes check what they need: the shapes of blocks, the sets that elements belong to, and the
domains of the indices of a read. `TypeScope.typeOf` gives the type of an expression in a scope, or
the first error in it. Names bound by a kernel come before those that the function declares
(`TypeScope.lookup`), but tensors are looked up among the declarations alone (`TypeScope.tensor`).

Two integers make an integer, and two blocks a block of the shape that `BinaryOp.resultType` works
out; an integer and an element are both fit to be an index (`ValueType.fitsIndex`). The position
that a read names has no part in its type. -/

namespace GraphTensor

/-- What names stand for while an expression is checked. -/
structure TypeScope (α : Type) where
  /-- The function. -/
  func : Func α
  /-- The names bound so far. -/
  locals : Table VarName ValueType

namespace TypeScope

variable {α : Type}

/-- The scope of a function with nothing bound. -/
def ofFunc (f : Func α) : TypeScope α :=
  ⟨f, Table.empty⟩

/-- Binds a name, ahead of any declaration. -/
def bind (s : TypeScope α) (name : VarName) (type : ValueType) : TypeScope α :=
  { s with locals := s.locals.insert name type }

/-- Binds a variable. -/
def bindVariable (s : TypeScope α) (v : Variable) : TypeScope α :=
  s.bind v.name v.type

/-- The type of a name. -/
def lookup (s : TypeScope α) (name : VarName) : Lowered ValueType :=
  match s.locals.get? name with
  | some type => .ok type
  | none => Outcome.orFail (.unknownVariable name) (s.func.varType? name)

/-- The tensor type that the function declares for a name. -/
def tensor (s : TypeScope α) (name : VarName) : Lowered TensorType :=
  match s.func.varType? name with
  | some (.tensor t) => .ok t
  | some other => Lowered.unsupported (.notTensor name other)
  | none => Outcome.fail (.unknownVariable name)

/-- The type of an endpoint of an element of a relation. -/
def endpointType (s : TypeScope α) (relation : SetName) (slot : Nat) : Lowered ValueType := do
  let decl ← s.func.findSet relation
  match decl.endpoints with
  | none => Lowered.unsupported (.noEndpoints relation)
  | some endpoints =>
    if endpoints.arity ≤ slot then
      Lowered.unsupported (.slotOutOfRange slot relation endpoints.arity)
    else return .element endpoints.set

/-- The type of a field of an element of a set. -/
def fieldType (s : TypeScope α) (set : SetName) (field : FieldName) : Lowered ValueType := do
  let decl ← s.func.findSet set
  match decl.fields.get? field with
  | some (.float block) => return .block block
  | some .bool => return .bool
  | none => Outcome.fail (.unknownField set field)

end TypeScope

/-- The type of an operation on values of two types. -/
def BinaryOp.resultType (op : BinaryOp) (lhs rhs : ValueType) : Lowered ValueType :=
  let mismatch : LowerError := .shapeMismatch (.operation op) (.type lhs) (.type rhs)
  match lhs, rhs with
  | .int, .int => .ok .int
  | .block l, .block r =>
    let shape : Option BlockShape := match op with
      | .add => l.sum r
      | .sub => l.sum r
      | .mul => l.product r
      | .div => if r = .scalar then some l else none
    Outcome.orFail mismatch (shape.map ValueType.block)
  | _, _ => Outcome.fail mismatch

/-- A value of the type gives an element of a set. -/
def ValueType.expectElement : ValueType → Lowered Unit
  | .int => .ok ()
  | .element _ => .ok ()
  | other => Lowered.unsupported (.elementIndex other)

/-- A value of the type can index a dimension of a tensor that is read. -/
def ValueType.fitsIndex (type : ValueType) (dim : IndexDomain) : Bool :=
  match type, dim with
  | .element set, .set expected => set == expected
  | .int, _ => true
  | _, _ => false

/-- The type of a constant. The numbers of a block have to be as many as its shape asks for. -/
def Literal.type {α : Type} : Literal α → Lowered ValueType
  | .float _ => .ok .float
  | .int _ => .ok .int
  | .bool _ => .ok .bool
  | .block shape values => do
    let count ← Outcome.orAbort shape.length?
    if values.size ≠ count then
      Outcome.fail (.shapeMismatch .blockLiteral (.values count) (.values values.size))
    else return .block shape

namespace TypeScope

variable {α : Type}

mutual

/-- The type of an expression. -/
def typeOf (s : TypeScope α) (e : Expr α) : Lowered ValueType :=
  match e with
  | .literal value => value.type
  | .var name => s.lookup name
  | .endpoint endpoints slot => do
    match ← s.lookup endpoints with
    | .endpoints set => s.endpointType set slot
    | other => Lowered.unsupported (.endpointThrough endpoints other)
  | .endpointOf set element slot => do
    (← s.typeOf element).expectElement
    s.endpointType set slot
  | .elementField element field => do
    match ← s.lookup element with
    | .element set => s.fieldType set field
    | other => Lowered.unsupported (.fieldOn element other)
  | .fieldLoad set field element => do
    (← s.typeOf element).expectElement
    s.fieldType set field
  | .field set field => do
    match ← s.fieldType set field with
    | .block block => return .tensor (.vector set block)
    | _ => Lowered.unsupported (.notFloatField set field)
  | .binary op lhs rhs => do
    let l ← s.typeOf lhs
    let r ← s.typeOf rhs
    op.resultType l r
  | .neg inner => do
    match ← s.typeOf inner with
    | .block shape => return .block shape
    | .int => return .int
    | other => Outcome.fail (.shapeMismatch .negation .blockOrInt (.type other))
  | .index _ _ => Lowered.unsupported .strayIndexExpression
  | .indexed _ => Lowered.unsupported .strayIndexExpression
  | .tensorRead tensor indices _ => do
    let type ← s.tensor tensor
    if indices.length ≠ type.rank then
      Outcome.fail (.indexDomainMismatch (.readOf tensor) (.count indices.length)
        (.rank type.rank) (.rank indices.length))
    else
      s.checkIndices tensor indices type.dims 0
      return .block type.block
  | .setSize set => do
    let _ ← s.func.findSet set
    return .int
  | .locate _ _ _ _ => .ok .int
  | .load _ _ block => .ok (.block block)
  | .sparseLoad _ _ block => .ok (.block block)
termination_by structural e

/-- Checks the indices of a read against the dimensions, from a place on. -/
def checkIndices (s : TypeScope α) (tensor : VarName) (indices : List (Expr α))
    (dims : List IndexDomain) (place : Nat) : Lowered Unit :=
  match indices with
  | [] => .ok ()
  | index :: rest =>
    match dims with
    | [] => .ok ()
    | dim :: dims => do
      let type ← s.typeOf index
      if type.fitsIndex dim then s.checkIndices tensor rest dims (place + 1)
      else
        Outcome.fail (.indexDomainMismatch (.readOf tensor) (.place place) (.domain dim)
          (.type type))
termination_by structural indices

end

/-- The shape of an expression that has to be a block. -/
def blockOf (s : TypeScope α) (e : Expr α) (site : Site) : Lowered BlockShape := do
  match ← s.typeOf e with
  | .block shape => return shape
  | other => Outcome.fail (.shapeMismatch site .anyBlock (.type other))

end TypeScope

end GraphTensor
