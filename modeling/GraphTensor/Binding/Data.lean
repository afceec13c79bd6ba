import GraphTensor.Block.Shape
import GraphTensor.Machine.Error
import GraphTensor.Table
set_option autoImplicit false

/-! # The data of a set

A caller binds a set to its number of elements, to the endpoints of each element if it is a relation
(`EndpointData`), and to the values of some of its fields (`FieldData`): truth values, or one block
of a common shape for each element, laid out one after another. The order of the elements is the one
the caller gives and is the same in all of them.

`SetData` carries the proof that a relation has as many elements as its tuples make up;
`SetData.plain`, `SetData.relation` and `SetData.subset` build the three kinds of data, and
`SetData.withField` adds values without a look at their number. That number is checked where
bindings are checked, by `FieldData.covers`, where the product of elements and block length has to
be a word. -/

namespace GraphTensor

/-- The values of a field. -/
inductive FieldData (α : Type) where
  /-- A block for each element, one after another. -/
  | float (block : BlockShape) (values : Array α)
  /-- A truth value for each element. -/
  | bool (flags : List Bool)
deriving DecidableEq, Repr

namespace FieldData

variable {α : Type}

/-- The number of elements that the values are for; there are none for blocks without numbers. -/
def elementCount : FieldData α → Nat
  | float block values => if block.isEmpty then 0 else values.size / block.length
  | bool flags => flags.length

/-- The number of elements that the values are for, if the length of a block is a word. -/
def elementCount? : FieldData α → Option Nat
  | float block values => block.length?.map fun _ => (float block values).elementCount
  | bool flags => some flags.length

/-- The kind of the values. -/
def kind : FieldData α → Quality
  | float block _ => .shape block
  | bool _ => .bool

/-- There is one value for each of a number of elements. The numbers that this takes have to be a
    word. -/
def covers (d : FieldData α) (count : Nat) : Ran Bool :=
  match d with
  | float block values => do
    let length ← Outcome.orAbort block.length?
    let expected ← Outcome.orAbort (Word.mul? count length)
    return values.size == expected
  | bool flags => .ok (flags.length == count)

end FieldData

/-- The endpoints of the elements of a relation. -/
structure EndpointData where
  /-- The number of endpoints of an element. -/
  arity : Nat
  /-- The endpoints, element after element. -/
  tuples : Array Nat
deriving DecidableEq, Repr

/-- The data of a set. -/
structure SetData (α : Type) where
  /-- The number of elements. -/
  size : Nat
  /-- The endpoints of a relation. -/
  endpoints : Option EndpointData
  /-- The fields that are bound. -/
  fields : Table FieldName (FieldData α)
  /-- A relation has as many elements as there are whole tuples. -/
  whole : ∀ ep, endpoints = some ep → size = ep.tuples.size / ep.arity
deriving DecidableEq, Repr

namespace SetData

variable {α : Type}

/-- The data of a plain set. -/
def plain (size : Nat) : SetData α :=
  ⟨size, none, Table.empty, fun _ h => nomatch h⟩

/-- The data of a relation. -/
def relation (arity : Nat) (tuples : Array Nat) : SetData α :=
  ⟨tuples.size / arity, some ⟨arity, tuples⟩, Table.empty, fun _ h => Option.some.inj h ▸ rfl⟩

/-- The data of a subset, each element given by its parent. -/
def subset (parents : Array Nat) : SetData α :=
  relation 1 parents

/-- The data with the values of a field. -/
def withField (d : SetData α) (field : FieldName) (values : FieldData α) : SetData α :=
  { d with fields := d.fields.insert field values }

/-- The data with a number for each element. -/
def withScalars (d : SetData α) (field : FieldName) (values : Array α) : SetData α :=
  d.withField field (.float .scalar values)

end SetData

end GraphTensor
