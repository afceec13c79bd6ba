import GraphTensor.Binding.Data
import GraphTensor.Machine.Value
import GraphTensor.Program.Func
set_option autoImplicit false

/-! # Bindings

`Bindings` hold what a function runs on: the data of each set (`Bindings.set`) and the value of each
parameter (`Bindings.param`), both by name. Reading something that is not bound is an error of the
run that names it, and `Bindings.storeField`, with which a run commits its updates, fails in the
same way on a set that is not there.

Bindings suit a function if every set that it declares is bound, every relation with the declared
arity, every field that is bound with the declared type and a value for each element, and every
parameter. `Bindings.check` looks at these in the order of the declarations, sets before parameters,
and ends in the first violation: `Bindings.checkSet` is `Bindings.checkEndpoints` and then
`Bindings.checkField` for each declared field. What is bound beyond the declarations is not looked
at, nor are the values of parameters. -/

namespace GraphTensor

/-- The kind of values that a type of fields asks for. -/
def FieldType.kind : FieldType → Quality
  | float block => .shape block
  | bool => .bool

/-- What a caller supplies. -/
structure Bindings (α : Type) where
  /-- The data of the sets. -/
  sets : Table SetName (SetData α)
  /-- The values of the parameters. -/
  params : Table VarName (Value α)

namespace Bindings

variable {α : Type}

/-- Nothing bound. -/
def empty : Bindings α :=
  ⟨Table.empty, Table.empty⟩

/-- The bindings with a set. -/
def withSet (b : Bindings α) (set : SetName) (data : SetData α) : Bindings α :=
  { b with sets := b.sets.insert set data }

/-- The bindings with a parameter. -/
def withParam (b : Bindings α) (param : VarName) (value : Value α) : Bindings α :=
  { b with params := b.params.insert param value }

/-- The data of a set. -/
def set (b : Bindings α) (set : SetName) : Ran (SetData α) :=
  Outcome.orFail (.unboundSet set) (b.sets.get? set)

/-- The value of a parameter. -/
def param (b : Bindings α) (param : VarName) : Ran (Value α) :=
  Outcome.orFail (.unboundVariable param) (b.params.get? param)

/-- The values of a field. -/
def field (b : Bindings α) (set : SetName) (field : FieldName) : Ran (FieldData α) := do
  let data ← b.set set
  Outcome.orFail (.unboundField set field) (data.fields.get? field)

/-- The bindings with the values of a field of a bound set replaced or added. -/
def storeField (b : Bindings α) (set : SetName) (field : FieldName) (values : FieldData α) :
    Ran (Bindings α) := do
  let data ← b.set set
  return b.withSet set (data.withField field values)

/-! ## Suiting a function -/

/-- Checks the endpoints of a relation against their declaration. -/
def checkEndpoints (decl : SetDecl) (data : SetData α) : Ran Unit :=
  match decl.endpoints with
  | none => .ok ()
  | some declared =>
    let found := (data.endpoints.map EndpointData.arity).getD 0
    Outcome.failIf (data.endpoints.isNone || found != declared.arity)
      (.bindingMismatch (.arityOf decl.name) declared.arity found)

/-- Checks the values of a field against its declaration, if they are bound. -/
def checkField (set : SetName) (data : SetData α) (field : FieldName) (type : FieldType) :
    Ran Unit :=
  match data.fields.get? field with
  | none => .ok ()
  | some values => do
    Outcome.failIf (values.kind != type.kind)
      (.typeMismatch (.field set field) type.kind values.kind)
    let complete ← values.covers data.size
    Outcome.failIf (!complete) (.bindingMismatch (.field set field) data.size values.elementCount)

/-- Checks the data of a set against its declaration. -/
def checkSet (b : Bindings α) (decl : SetDecl) : Ran Unit := do
  let data ← b.set decl.name
  checkEndpoints decl data
  decl.fields.entries.forM fun (field, type) => checkField decl.name data field type

/-- Checks the bindings against a function: its sets in the order of their declaration, then its
    parameters. -/
def check (b : Bindings α) (f : Func α) : Ran Unit := do
  f.sets.decls.forM b.checkSet
  f.params.forM fun p => do
    let _ ← b.param p.name
    .ok ()

end Bindings

end GraphTensor
