import GraphTensor.Pattern.Search
import GraphTensor.Program.PatternRef
import GraphTensor.Program.Type
set_option autoImplicit false

/-! # Expressions

One type of expressions (`Expr`) serves a program before and after lowering. Kernels refer to the
element at hand and its endpoints, index expressions to tensors with named indices
(`IndexedTensor`); lowered code loads from buffers at offsets and positions that it computes. Which
forms a pass may meet is not a matter of the type: passes refuse the others, and `Expr.form` names a
form in such an error.

`Expr.subexprs` lists an expression and all its parts, those first that come first in the text; what
is said of every part of an expression, or of none, is said through this list. `Expr.hasIndexed`
tells index expressions from parts of them that are computed as they are. -/

namespace GraphTensor

/-- A constant. -/
inductive Literal (α : Type) where
  /-- A number. -/
  | float (value : α)
  /-- An integer. -/
  | int (value : Int)
  /-- A truth value. -/
  | bool (value : Bool)
  /-- A block, its numbers row after row. -/
  | block (shape : BlockShape) (values : Array α)
deriving DecidableEq, Repr

/-- An operation on blocks or on integers. -/
inductive BinaryOp where
  /-- The sum. -/
  | add
  /-- The difference. -/
  | sub
  /-- The product. -/
  | mul
  /-- The quotient. -/
  | div
deriving DecidableEq, Repr

/-- The name of an operation in messages. -/
def BinaryOp.text : BinaryOp → String
  | add => "Add"
  | sub => "Sub"
  | mul => "Mul"
  | div => "Div"

/-- A named index with what it ranges over. -/
structure IndexVar where
  /-- The name of the index. -/
  name : String
  /-- What it ranges over. -/
  domain : IndexDomain
deriving DecidableEq, Repr

/-- A tensor with named indices, an operand of an index expression. -/
structure IndexedTensor where
  /-- The tensor. -/
  tensor : VarName
  /-- One index for each dimension. -/
  indices : List IndexVar
deriving DecidableEq, Repr

/-- The names of an operand's indices. -/
def IndexedTensor.names (t : IndexedTensor) : List String :=
  t.indices.map IndexVar.name

/-- An expression. -/
inductive Expr (α : Type) where
  /-- A constant. -/
  | literal (value : Literal α)
  /-- The value of a variable. -/
  | var (name : VarName)
  /-- An endpoint of the element at hand in a kernel. -/
  | endpoint (endpoints : VarName) (slot : Nat)
  /-- A field of the element at hand in a kernel. -/
  | elementField (element : VarName) (field : FieldName)
  /-- An endpoint of an element of a relation. -/
  | endpointOf (set : SetName) (element : Expr α) (slot : Nat)
  /-- A field of an element of a set. -/
  | fieldLoad (set : SetName) (field : FieldName) (element : Expr α)
  /-- A whole field as a tensor over its set. -/
  | field (set : SetName) (field : FieldName)
  /-- An operation. -/
  | binary (op : BinaryOp) (lhs rhs : Expr α)
  /-- The negative. -/
  | neg (inner : Expr α)
  /-- An index expression: the free indices are those of the result, and every other index of the
      body is summed. -/
  | index (free : List IndexVar) (body : Expr α)
  /-- An operand of an index expression. -/
  | indexed (operand : IndexedTensor)
  /-- An entry of a tensor. The position is that of a pattern loop around it which is known to
      stand on the entry. -/
  | tensorRead (tensor : VarName) (indices : List (Expr α)) (position : Option VarName)
  /-- The number of elements of a set. -/
  | setSize (set : SetName)
  /-- The position of a place in a pattern, or a miss. -/
  | locate (pattern : PatternRef) (row col : Expr α) (search : Search)
  /-- A block of a buffer, from an offset on. -/
  | load (buffer : VarName) (offset : Expr α) (block : BlockShape)
  /-- A block of a sparse buffer at a position; a miss is a block of zeros. -/
  | sparseLoad (buffer : VarName) (position : Expr α) (block : BlockShape)
deriving Repr, Inhabited

namespace Expr

variable {α : Type}

/-- The name of an expression's form in messages. -/
def form : Expr α → String
  | literal _ => "Literal"
  | var _ => "Var"
  | endpoint _ _ => "Endpoint"
  | elementField _ _ => "ElementField"
  | endpointOf _ _ _ => "EndpointOf"
  | fieldLoad _ _ _ => "FieldLoad"
  | field _ _ => "Field"
  | binary _ _ _ => "Binary"
  | neg _ => "Neg"
  | index _ _ => "Index"
  | indexed _ => "Indexed"
  | tensorRead _ _ _ => "TensorRead"
  | setSize _ => "SetSize"
  | locate _ _ _ _ => "Locate"
  | load _ _ _ => "Load"
  | sparseLoad _ _ _ => "SparseLoad"

mutual

/-- An expression and all expressions in it, outer ones first. -/
def subexprs (e : Expr α) : List (Expr α) :=
  e :: match e with
    | endpointOf _ element _ => element.subexprs
    | fieldLoad _ _ element => element.subexprs
    | binary _ lhs rhs => lhs.subexprs ++ rhs.subexprs
    | neg inner => inner.subexprs
    | index _ body => body.subexprs
    | tensorRead _ indices _ => subexprsOfList indices
    | locate _ row col _ => row.subexprs ++ col.subexprs
    | load _ offset _ => offset.subexprs
    | sparseLoad _ position _ => position.subexprs
    | literal _ => []
    | var _ => []
    | endpoint _ _ => []
    | elementField _ _ => []
    | field _ _ => []
    | indexed _ => []
    | setSize _ => []
termination_by structural e

/-- The expressions in a list of expressions. -/
def subexprsOfList (es : List (Expr α)) : List (Expr α) :=
  match es with
  | [] => []
  | e :: rest => e.subexprs ++ subexprsOfList rest
termination_by structural es

end

/-- Some expression in an expression satisfies a test. -/
def any (e : Expr α) (test : Expr α → Bool) : Bool :=
  e.subexprs.any test

/-- The expression is an operand of an index expression. -/
def isIndexed : Expr α → Bool
  | indexed _ => true
  | _ => false

/-- An operand of an index expression occurs. -/
def hasIndexed (e : Expr α) : Bool :=
  e.any isIndexed

/-- The expression belongs to the notation of index expressions. -/
def isIndexForm : Expr α → Bool
  | index _ _ => true
  | indexed _ => true
  | _ => false

end Expr

end GraphTensor
