import GraphTensor.Machine.Solve
import GraphTensor.Machine.Visits
set_option autoImplicit false

/-! # Running statements

A statement turns one memory into another (`Machine.exec`, `Machine.execAll`). Stores check the
block that they write against the buffer (`Machine.store`, `Machine.sparseStore`), and assignments
fill a buffer from a field, another buffer or a block of the same size (`Machine.fillers`,
`Machine.fill`).

An assignment goes to the buffer of its name if there is one, and else to a local
(`Machine.assign`). A field that is to be written is only noted down (`Machine.noteUpdate`), so that
every read of a field sees the value at entry. A loop runs its body at the visits that are worked
out before the first one. -/

namespace GraphTensor

namespace Machine

variable {α : Type} [Scalar α]

/-! ## Stores -/

/-- Checks the shape of a block that is written to a buffer. -/
def checkBlock (var : VarName) (expected : BlockShape) (value : BlockValue α) : Ran Unit :=
  Outcome.failIf (value.shape != expected)
    (.typeMismatch (.writeTo var) (.shape expected) (.shape value.shape))

/-- Writes a block into a dense buffer, or adds it. -/
def store (mem : Memory α) (var : VarName) (offset : Int) (value : BlockValue α)
    (accumulate : Bool) : Ran (Memory α) := do
  match ← mem.buffer var with
  | .dense block values =>
    checkBlock var block value
    let buffer ← (Buffer.dense block values).store var offset value accumulate
    return mem.withBuffer var buffer
  | other => Ran.mismatch (.storeTo var) .dense other.kind

/-- Writes a block into a sparse buffer, or adds it. -/
def sparseStore (mem : Memory α) (var : VarName) (position : Int) (value : BlockValue α)
    (accumulate : Bool) : Ran (Memory α) := do
  match ← mem.buffer var with
  | .sparse matrix =>
    let buffer ← (Buffer.sparse matrix).storeAt var position value accumulate
    return mem.withBuffer var buffer
  | other => Ran.mismatch (.sparseStoreTo var) .sparse other.kind

/-- The position of a sparse store. -/
def storePosition (var : VarName) : Value α → Ran Int
  | .miss => Outcome.fail (.sparseWriteMiss var)
  | position => position.asInt .storePosition

/-! ## Assignments -/

/-- The numbers that fill a buffer. -/
def fillers (m : Machine α) (mem : Memory α) (var : VarName) (value : Expr α) : Ran (Array α) := do
  let evaluated : Ran (Array α) := do
    let value ← m.eval mem value
    let block ← value.asBlock (.assignment var)
    return block.data
  match value with
  | .field set field =>
    match ← m.bindings.field set field with
    | .float _ values => return values
    | .bool _ => Ran.mismatch (.fieldInto set field var) .floatField .bool
  | .var other =>
    match mem.buffers.get? other with
    | some buffer => return buffer.values
    | none => evaluated
  | _ => evaluated

/-- Fills a buffer, or adds to it. -/
def fill (m : Machine α) (mem : Memory α) (var : VarName) (buffer : Buffer α) (value : Expr α)
    (accumulate : Bool) : Ran (Memory α) := do
  let data ← m.fillers mem var value
  Outcome.failIf (buffer.values.size != data.size)
    (.bindingMismatch (.assignment var) buffer.values.size data.size)
  return mem.withBuffer var (buffer.withValues (Slot.write buffer.values 0 data accumulate))

/-- Binds a local, or adds to it. -/
def bind (m : Machine α) (mem : Memory α) (var : VarName) (value : Expr α) (accumulate : Bool) :
    Ran (Memory α) := do
  let value ← m.eval mem value
  if accumulate then
    let current ← Outcome.orFail (.unboundVariable var) (mem.locals.get? var)
    let sum ← Value.operate .add current value
    return mem.withLocal var sum
  else return mem.withLocal var value

/-- Assigns to a variable, or adds to it: to its buffer if it has one, and else to a local. -/
def assign (m : Machine α) (mem : Memory α) (var : VarName) (value : Expr α) (accumulate : Bool) :
    Ran (Memory α) :=
  match mem.buffers.get? var with
  | some buffer => m.fill mem var buffer value accumulate
  | none => m.bind mem var value accumulate

/-! ## Fields -/

/-- A field is declared to hold truth values. -/
def isBoolField (m : Machine α) (set : SetName) (field : FieldName) : Bool :=
  match (m.func.set? set).bind fun decl => decl.fields.get? field with
  | some .bool => true
  | _ => false

/-- Notes down that a dense buffer, which has to have a block for each element, is to be copied into
    a field. -/
def noteUpdate (m : Machine α) (mem : Memory α) (set : SetName) (field : FieldName)
    (var : VarName) : Ran (Memory α) := do
  Outcome.failIf (m.isBoolField set field)
    (.typeMismatch (.fieldWrite set field) .floatField .bool)
  let n ← m.resolution.size set
  match ← mem.buffer var with
  | .dense block values =>
    let length ← Outcome.orAbort block.length?
    let expected ← Outcome.orAbort (Word.mul? n length)
    Outcome.failIf (values.size != expected)
      (.bindingMismatch (.fieldWrite set field) n (values.size / max length 1))
    return mem.withUpdate ⟨set, field, .float block values⟩
  | other => Ran.mismatch (.fieldWriteFrom var) .dense other.kind

/-! ## Statements -/

mutual

/-- Runs a statement. -/
def exec (m : Machine α) (s : Stmt α) (mem : Memory α) : Ran (Memory α) :=
  match s with
  | .assign var value => m.assign mem var value false
  | .accumulate var value => m.assign mem var value true
  | .loop header body => do
    let visits ← m.visits mem header
    visits.run (fun indices mem => m.execAll body (mem.withIndices indices)) mem
  | .zero var => do
    let buffer ← mem.buffer var
    return mem.withBuffer var buffer.cleared
  | .store buffer offset value accumulate => do
    let offset ← m.eval mem offset
    let offset ← offset.asInt .storeOffset
    let value ← m.eval mem value
    let value ← value.asBlock .storeValue
    store mem buffer offset value accumulate
  | .sparseStore buffer position value accumulate block => do
    let position ← m.eval mem position
    let position ← storePosition buffer position
    let value ← m.eval mem value
    let value ← value.asBlock .sparseStoreValue
    checkBlock buffer block value
    sparseStore mem buffer position value accumulate
  | .fieldWrite set field value => m.noteUpdate mem set field value
  | .solve task => m.solve mem task
  | .tensorWrite tensor _ _ _ _ => Ran.unlowered (.tensorWrite tensor)
  | .assemble _ set _ _ => Ran.unlowered (.assembly set)
termination_by structural s

/-- Runs statements one after another. -/
def execAll (m : Machine α) (body : List (Stmt α)) (mem : Memory α) : Ran (Memory α) :=
  match body with
  | [] => .ok mem
  | s :: rest => do
    let mem ← m.exec s mem
    m.execAll rest mem
termination_by structural body

end

end Machine

end GraphTensor
