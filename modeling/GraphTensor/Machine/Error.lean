import GraphTensor.Program.Expr
import GraphTensor.Solve.Error
import GraphTensor.Topology.Basic
set_option autoImplicit false

/-! # Errors of a run

An error of a run (`RunError`) names the `Place` at which it shows, and for a mismatch the `Quality`
that the place needs and the one that was found there. Errors of relations and of linear solves are
handed on as they are. `Unlowered` lists the constructs that a machine does not run; a function that
has been lowered holds none of them. `Ran` is what a run, or a part of it, comes to, and
`RunError.message` words an error. -/

namespace GraphTensor

/-- The part of a run at which an error shows. -/
inductive Place where
  /-- A place that the caller names. -/
  | named (text : String)
  /-- A block made from a list of numbers. -/
  | blockOf (shape : BlockShape)
  /-- An operation on two values. -/
  | operation (op : BinaryOp)
  /-- A quotient of integers. -/
  | integerDivision
  /-- A negative. -/
  | negation
  /-- The arity of a relation. -/
  | arityOf (set : SetName)
  /-- A field of a set. -/
  | field (set : SetName) (field : FieldName)
  /-- A whole field where one value is needed. -/
  | fieldInExpression (set : SetName) (field : FieldName)
  /-- A field that fills a tensor. -/
  | fieldInto (set : SetName) (field : FieldName) (var : VarName)
  /-- A field that a tensor is copied into. -/
  | fieldWrite (set : SetName) (field : FieldName)
  /-- The tensor that is copied into a field. -/
  | fieldWriteFrom (var : VarName)
  /-- The field that marks fixed unknowns. -/
  | marker (set : SetName) (field : FieldName)
  /-- An element of a set. -/
  | elementOf (set : SetName)
  /-- An endpoint of an element of a relation. -/
  | slotOf (set : SetName)
  /-- A reference to a pattern. -/
  | pattern (pattern : PatternRef)
  /-- A row of a pattern. -/
  | rowOf (pattern : PatternRef)
  /-- The row of a place that is looked up. -/
  | locateRow
  /-- The column of a place that is looked up. -/
  | locateColumn
  /-- A parameter. -/
  | parameter (var : VarName)
  /-- A result. -/
  | result (var : VarName)
  /-- A variable that is read. -/
  | readOf (var : VarName)
  /-- The value that fills a tensor. -/
  | assignment (var : VarName)
  /-- The numbers of a buffer. -/
  | buffer (var : VarName)
  /-- The offset of a load. -/
  | loadOffset
  /-- The position of a sparse load. -/
  | loadPosition
  /-- The offset of a store. -/
  | storeOffset
  /-- The position of a sparse store. -/
  | storePosition
  /-- The value of a store. -/
  | storeValue
  /-- The value of a sparse store. -/
  | sparseStoreValue
  /-- The buffer of a store. -/
  | storeTo (var : VarName)
  /-- The buffer of a sparse store. -/
  | sparseStoreTo (var : VarName)
  /-- The block that a store writes. -/
  | writeTo (var : VarName)
  /-- The matrix of a solve. -/
  | systemMatrix (var : VarName)
  /-- A vector that a solve reads. -/
  | solveVector (var : VarName)
  /-- A vector that a solve writes. -/
  | solveResult (var : VarName)
deriving DecidableEq, Repr

/-- The name of an operation as a place. -/
def BinaryOp.noun : BinaryOp → String
  | add => "addition"
  | sub => "subtraction"
  | mul => "multiplication"
  | div => "division"

/-- The name of a place in messages. -/
def Place.text : Place → String
  | named text => text
  | blockOf shape => s!"{shape.text} block"
  | operation op => op.noun
  | integerDivision => "integer division"
  | negation => "negation"
  | arityOf set => s!"endpoint arity of '{set}'"
  | field set name => s!"field '{set}.{name}'"
  | fieldInExpression set name => s!"field '{set}.{name}' in an expression"
  | fieldInto set name var => s!"field '{set}.{name}' assigned to '{var}'"
  | fieldWrite set name => s!"field write to '{set}.{name}'"
  | fieldWriteFrom var => s!"field write from '{var}'"
  | marker set name => s!"boundary marker '{set}.{name}'"
  | elementOf set => s!"element of '{set}'"
  | slotOf set => s!"endpoint slot of '{set}'"
  | pattern p => s!"pattern {p.text}"
  | rowOf p => s!"row of {p.text}"
  | locateRow => "locate row"
  | locateColumn => "locate column"
  | parameter var => s!"parameter '{var}'"
  | result var => s!"result '{var}'"
  | readOf var => s!"read of '{var}'"
  | assignment var => s!"assignment to '{var}'"
  | buffer var => s!"buffer '{var}'"
  | loadOffset => "dense load offset"
  | loadPosition => "sparse load position"
  | storeOffset => "dense store offset"
  | storePosition => "sparse store position"
  | storeValue => "dense store"
  | sparseStoreValue => "sparse store"
  | storeTo var => s!"store to '{var}'"
  | sparseStoreTo var => s!"sparse store to '{var}'"
  | writeTo var => s!"write to '{var}'"
  | systemMatrix var => s!"system matrix '{var}'"
  | solveVector var => s!"solve vector '{var}'"
  | solveResult var => s!"solve result '{var}'"

/-- What a place needs, or what was found there. -/
inductive Quality where
  /-- A block of a shape. -/
  | shape (shape : BlockShape)
  /-- Two blocks of given shapes. -/
  | shapes (lhs rhs : BlockShape)
  /-- Two blocks whose shapes go together. -/
  | conforming
  /-- A value of a type. -/
  | type (type : ValueType)
  /-- An integer. -/
  | int
  /-- An integer other than zero. -/
  | nonzeroInt
  /-- A truth value. -/
  | bool
  /-- A search that found nothing. -/
  | miss
  /-- Any block. -/
  | anyBlock
  /-- Any block or an integer. -/
  | intOrBlock
  /-- A value that is no tensor. -/
  | noTensor
  /-- A tensor, or any block. -/
  | tensorOrBlock
  /-- A given integer. -/
  | intValue (value : Int)
  /-- A given truth value. -/
  | boolValue (value : Bool)
  /-- The value of a search that found nothing. -/
  | missValue
  /-- A densely stored tensor. -/
  | dense
  /-- A sparsely stored tensor. -/
  | sparse
  /-- A block in a register. -/
  | register
  /-- A sparsely or densely stored tensor. -/
  | sparseOrDense
  /-- A local or a register. -/
  | localOrRegister
  /-- A tensor with two dimensions. -/
  | rankTwo
  /-- A tensor with a number of dimensions. -/
  | rank (count : Nat)
  /-- Numbers. -/
  | float
  /-- A field of numbers. -/
  | floatField
  /-- The value of one element. -/
  | elementValue
  /-- The values of all elements. -/
  | wholeField
  /-- Rows and columns over one set. -/
  | onSet (set : SetName)
  /-- Rows and columns over the sets of a relation. -/
  | drawnFrom (relation endpointSet : SetName)
  /-- Rows and columns over two sets. -/
  | rowsAndCols (rows cols : SetName)
deriving DecidableEq, Repr

/-- The wording of a quality. -/
def Quality.text : Quality → String
  | shape s => s.text
  | shapes lhs rhs => s!"{lhs.text} and {rhs.text}"
  | conforming => "conforming block shapes"
  | type t => t.text
  | int => "int"
  | nonzeroInt => "nonzero int"
  | bool => "bool"
  | miss => "pattern miss"
  | anyBlock => "float block"
  | intOrBlock => "int or float block"
  | noTensor => "block, int or bool"
  | tensorOrBlock => "tensor or float block"
  | intValue value => toString value
  | boolValue value => toString value
  | missValue => "miss"
  | dense => "dense tensor"
  | sparse => "sparse tensor"
  | register => "register"
  | sparseOrDense => "sparse or dense tensor"
  | localOrRegister => "local or register"
  | rankTwo => "rank-2 tensor"
  | rank count => s!"rank {count}"
  | float => "float"
  | floatField => "float field"
  | elementValue => "element value"
  | wholeField => "whole field"
  | onSet set => s!"rows and columns on '{set}'"
  | drawnFrom relation endpointSet =>
    s!"rows and columns drawn from '{relation}' and '{endpointSet}'"
  | rowsAndCols rows cols => s!"rows '{rows}', columns '{cols}'"

/-- A construct that a machine does not run. -/
inductive Unlowered where
  /-- A tensor without a descriptor. -/
  | noStorage (tensor : VarName)
  /-- A write of an entry. -/
  | tensorWrite (tensor : VarName)
  /-- An assembly. -/
  | assembly (set : SetName)
  /-- An endpoint of a kernel. -/
  | kernelEndpoint (endpoints : VarName)
  /-- A field of a kernel's element. -/
  | kernelField (element : VarName) (field : FieldName)
  /-- An index expression. -/
  | indexExpression
  /-- An operand of an index expression. -/
  | indexedOperand (tensor : VarName)
  /-- A read of an entry. -/
  | tensorRead (tensor : VarName)
deriving DecidableEq, Repr

/-- The wording of a construct. -/
def Unlowered.text : Unlowered → String
  | noStorage tensor => s!"tensor '{tensor}' has no storage"
  | tensorWrite tensor => s!"tensor write to '{tensor}'"
  | assembly set => s!"assembly over '{set}'"
  | kernelEndpoint endpoints => s!"kernel endpoint of '{endpoints}'"
  | kernelField element field => s!"kernel field '{field}' of '{element}'"
  | indexExpression => "index expression"
  | indexedOperand tensor => s!"indexed operand '{tensor}'"
  | tensorRead tensor => s!"tensor read of '{tensor}'"

/-- An error of a run. -/
inductive RunError where
  /-- A set that is not bound. -/
  | unboundSet (set : SetName)
  /-- A field that is not bound. -/
  | unboundField (set : SetName) (field : FieldName)
  /-- A variable that has no value yet. -/
  | unboundVariable (var : VarName)
  /-- Data of another size than is needed. -/
  | bindingMismatch (place : Place) (expected found : Nat)
  /-- A relation whose endpoints make no topology. -/
  | topology (cause : TopologyError)
  /-- A sparse store outside the pattern of its buffer. -/
  | sparseWriteMiss (buffer : VarName)
  /-- An index outside its range. -/
  | indexOutOfBounds (place : Place) (index : Int) (length : Nat)
  /-- A value of another kind than is needed. -/
  | typeMismatch (place : Place) (expected found : Quality)
  /-- A construct that lowering removes. -/
  | unloweredConstruct (construct : Unlowered)
  /-- A system that cannot be solved. -/
  | solve (cause : SolveError)
deriving DecidableEq, Repr

/-- The message of an error. -/
def RunError.message : RunError → String
  | unboundSet set => s!"set not bound: {set}"
  | unboundField set field => s!"field not bound: {set}.{field}"
  | unboundVariable var => s!"variable not bound: {var}"
  | bindingMismatch place expected found =>
    s!"binding mismatch for {place.text}: expected {expected}, found {found}"
  | topology cause => cause.message
  | sparseWriteMiss buffer => s!"sparse write to '{buffer}' missed its pattern"
  | indexOutOfBounds place index length =>
    s!"index {index} out of bounds for {place.text} of length {length}"
  | typeMismatch place expected found =>
    s!"type mismatch in {place.text}: expected {expected.text}, found {found.text}"
  | unloweredConstruct construct => s!"unlowered construct: {construct.text}"
  | solve cause => cause.message

/-- What a run, or a part of it, comes to. -/
abbrev Ran (β : Type) : Type :=
  Outcome RunError β

namespace Ran

variable {β : Type}

/-- The error of a value of the wrong kind. -/
def mismatch (place : Place) (expected found : Quality) : Ran β :=
  Outcome.fail (.typeMismatch place expected found)

/-- The error of a construct that lowering removes. -/
def unlowered (construct : Unlowered) : Ran β :=
  Outcome.fail (.unloweredConstruct construct)

end Ran

end GraphTensor
