import GraphTensor.Block.Shape
import GraphTensor.Names
set_option autoImplicit false

/-! # The types of a program

A value is a block, an integer, a truth value, a tensor over sets, or stands for an element of a set
or for the endpoints of one while a kernel runs (`ValueType`). A tensor (`TensorType`) has outer
dimensions, each over a set or of a fixed extent (`IndexDomain`), and one block for each tuple of
indices. `TensorType.vector` and `TensorType.matrix` are the two that come up in most programs, and
a `Variable` is a name with a type. -/

namespace GraphTensor

/-- What one dimension of a tensor ranges over. -/
inductive IndexDomain where
  /-- The elements of a set. -/
  | set (name : SetName)
  /-- The numbers below an extent. -/
  | dense (extent : Nat)
deriving DecidableEq, Repr

/-- The name of a domain in messages. -/
def IndexDomain.text : IndexDomain → String
  | set name => name
  | dense extent => toString extent

/-- A domain ranges over a set. -/
def IndexDomain.isSet : IndexDomain → Bool
  | set _ => true
  | dense _ => false

/-- The type of a tensor. -/
structure TensorType where
  /-- The outer dimensions. -/
  dims : List IndexDomain
  /-- The block at each tuple of indices. -/
  block : BlockShape
deriving DecidableEq, Repr

namespace TensorType

/-- The tensor type with one dimension, over a set. -/
def vector (set : SetName) (block : BlockShape) : TensorType :=
  ⟨[.set set], block⟩

/-- The tensor type with two dimensions, each over a set. -/
def matrix (rows cols : SetName) (block : BlockShape) : TensorType :=
  ⟨[.set rows, .set cols], block⟩

/-- The number of outer dimensions. -/
def rank (t : TensorType) : Nat :=
  t.dims.length

/-- The name of a tensor type in messages. -/
def text (t : TensorType) : String :=
  let dims := String.intercalate "," (t.dims.map IndexDomain.text)
  s!"tensor[{dims}]({t.block.text})"

end TensorType

/-- The type of a value. -/
inductive ValueType where
  /-- A block of numbers. -/
  | block (shape : BlockShape)
  /-- An integer: the index of an element, a loop counter, an offset. -/
  | int
  /-- A truth value. -/
  | bool
  /-- A tensor. -/
  | tensor (type : TensorType)
  /-- An element of a set, as a kernel binds it. -/
  | element (set : SetName)
  /-- The endpoints of an element of a relation. -/
  | endpoints (set : SetName)
deriving DecidableEq, Repr

namespace ValueType

/-- The type of a single number. -/
def float : ValueType :=
  block .scalar

/-- The tensor type behind a type. -/
def asTensor? : ValueType → Option TensorType
  | tensor t => some t
  | _ => none

/-- The name of a type in messages. -/
def text : ValueType → String
  | block shape => shape.text
  | int => "int"
  | bool => "bool"
  | tensor t => t.text
  | element set => s!"element({set})"
  | endpoints set => s!"endpoints({set})"

end ValueType

/-- A variable with its type. -/
structure Variable where
  /-- The name. -/
  name : VarName
  /-- The type. -/
  type : ValueType
deriving DecidableEq, Repr

end GraphTensor
