import GraphTensor.Machine.Memory
set_option autoImplicit false

/-! # Evaluating expressions

An expression reads the memory and the bindings at entry and changes nothing (`Machine.eval`).
Operands are evaluated from the left, and the first error or abort is that of the whole.

Each form that looks something up has a function of its own, which is what statements about it are
about: `Machine.endpointValue` for endpoints, `Machine.fieldValue` for fields, `Machine.locateValue`
for searches, which come to a miss and never to an error, and `Machine.sparseBlock` for loads at a
position, which give zeros for a miss. -/

namespace GraphTensor

namespace Machine

variable {α : Type}

/-- An endpoint of an element of a relation. -/
def endpointValue (t : Topology) (set : SetName) (slot : Nat) (element : Value α) :
    Ran (Value α) := do
  let e ← element.asIndex (.elementOf set) t.size
  let endpoint ← t.endpoint e slot
  let endpoint ← Outcome.orFail
    (.indexOutOfBounds (.slotOf set) (SignedWord.ofCount slot) t.arity) endpoint
  return .ofCount endpoint

/-- The value of an element in a field whose blocks have the given shape and stand one after
    another. -/
def blockOfField (place : Place) (block : BlockShape) (values : Array α) (e : Nat) :
    Ran (Value α) := do
  let length ← Outcome.orAbort block.length?
  let start ← Outcome.orAbort (Word.mul? e length)
  let stop ← Outcome.orAbort (Word.mul? (e + 1) length)
  Outcome.failIf (values.size < stop) (.indexOutOfBounds place e (values.size / max length 1))
  let value ← Value.blockOf block (values.extract start stop)
  return .block value

/-- The value of an element in a field. -/
def fieldValue (place : Place) (data : FieldData α) (e : Nat) : Ran (Value α) :=
  match data with
  | .float block values => blockOfField place block values e
  | .bool flags =>
    (Outcome.orFail (.indexOutOfBounds place e flags.length) flags[e]?).map Value.bool

/-- The position of a place in a pattern. A negative index is nowhere. -/
def locateValue (p : Pattern) (search : Search) (row col : Int) : Value α :=
  let position := do
    let row ← SignedWord.toCount? row
    let col ← SignedWord.toCount? col
    p.locate search row col
  match position with
  | some position => .ofCount position
  | none => .miss

/-- The value of a constant. -/
def literalValue : Literal α → Ran (Value α)
  | .float x => .ok (.scalar x)
  | .int n => .ok (.int n)
  | .bool b => .ok (.bool b)
  | .block shape values => (Value.blockOf shape values).map Value.block

variable [Scalar α]

/-- The block of a sparse buffer at a position, or zeros where the search found nothing. -/
def sparseBlock (mem : Memory α) (var : VarName) (block : BlockShape) :
    Value α → Ran (Value α)
  | .miss => (Outcome.orAbort (BlockValue.zeros? block)).map Value.block
  | position => do
    let position ← position.asInt .loadPosition
    let buffer ← mem.buffer var
    let value ← buffer.loadAt var position block
    return .block value

/-- The value of an expression. -/
def eval (m : Machine α) (mem : Memory α) (e : Expr α) : Ran (Value α) :=
  match e with
  | .literal value => literalValue value
  | .var name => mem.read name
  | .endpointOf set element slot => do
    let t ← m.resolution.topology set
    let element ← m.eval mem element
    endpointValue t set slot element
  | .fieldLoad set field element => do
    let n ← m.resolution.size set
    let element ← m.eval mem element
    let e ← element.asIndex (.elementOf set) n
    let data ← m.bindings.field set field
    fieldValue (.field set field) data e
  | .field set field => Ran.mismatch (.fieldInExpression set field) .elementValue .wholeField
  | .binary op lhs rhs => do
    let lhs ← m.eval mem lhs
    let rhs ← m.eval mem rhs
    Value.operate op lhs rhs
  | .neg inner => do
    let value ← m.eval mem inner
    value.neg
  | .setSize set => (m.resolution.size set).map Value.ofCount
  | .locate pattern row col search => do
    let p ← m.resolution.pattern pattern
    let row ← m.eval mem row
    let row ← row.asInt .locateRow
    let col ← m.eval mem col
    let col ← col.asInt .locateColumn
    return locateValue p search row col
  | .load buffer offset block => do
    let offset ← m.eval mem offset
    let offset ← offset.asInt .loadOffset
    let b ← mem.buffer buffer
    let value ← b.load buffer offset block
    return .block value
  | .sparseLoad buffer position block => do
    let position ← m.eval mem position
    sparseBlock mem buffer block position
  | .endpoint endpoints _ => Ran.unlowered (.kernelEndpoint endpoints)
  | .elementField element field => Ran.unlowered (.kernelField element field)
  | .index _ _ => Ran.unlowered .indexExpression
  | .indexed operand => Ran.unlowered (.indexedOperand operand.tensor)
  | .tensorRead tensor _ _ => Ran.unlowered (.tensorRead tensor)
termination_by structural e

end Machine

end GraphTensor
