import GraphTensor.Machine.Buffer
import GraphTensor.Solve.Session
import GraphTensor.Topology.Resolution
set_option autoImplicit false

/-! # The memory of a run

What a run may change is its `Memory`: the buffers of the tensors, the locals, and the writes of
fields that are to be committed at its end (`FieldUpdate`). What it only reads is its `Machine`: the
function, the bindings as they are at entry, the resolved patterns and the settings of solves.

A variable is read as a local if there is one of its name, and else as a register (`Memory.read`). A
local stays bound after the loop that binds it, and an assignment to it replaces it.

`Machine.start` sets up the memory at entry: parameters are locals, and every local tensor and
result has a buffer of zeros in the layout of its descriptor (`Machine.allocate`), for which there
has to be room. -/

namespace GraphTensor

/-- The values that a field is to have once the run has succeeded. -/
structure FieldUpdate (α : Type) where
  /-- The set. -/
  set : SetName
  /-- The field. -/
  field : FieldName
  /-- The values. -/
  values : FieldData α
deriving DecidableEq, Repr

/-- What a run changes. -/
structure Memory (α : Type) where
  /-- The buffers of the tensors. -/
  buffers : Table VarName (Buffer α)
  /-- The locals. -/
  locals : Table VarName (Value α)
  /-- The updates of fields in the order of the statements. -/
  updates : List (FieldUpdate α)

/-- What a run reads and does not change. -/
structure Machine (α : Type) where
  /-- The function. -/
  func : Func α
  /-- The bindings at entry. -/
  bindings : Bindings α
  /-- The sizes, topologies and patterns. -/
  resolution : Resolution
  /-- The settings of solves. -/
  config : SolverConfig α

namespace Memory

variable {α : Type}

/-- The memory without any contents. -/
def empty : Memory α :=
  ⟨Table.empty, Table.empty, []⟩

/-- The buffer of a tensor. -/
def buffer (m : Memory α) (var : VarName) : Ran (Buffer α) :=
  Outcome.orFail (.unboundVariable var) (m.buffers.get? var)

/-- The memory with the buffer of a tensor. -/
def withBuffer (m : Memory α) (var : VarName) (buffer : Buffer α) : Memory α :=
  { m with buffers := m.buffers.insert var buffer }

/-- The memory with a local. -/
def withLocal (m : Memory α) (var : VarName) (value : Value α) : Memory α :=
  { m with locals := m.locals.insert var value }

/-- The memory with indices as locals, bound from the left. -/
def withIndices (m : Memory α) (indices : List (VarName × Nat)) : Memory α :=
  indices.foldl (fun m (var, index) => m.withLocal var (.ofCount index)) m

/-- The memory with one more update of a field. -/
def withUpdate (m : Memory α) (update : FieldUpdate α) : Memory α :=
  { m with updates := m.updates ++ [update] }

/-- The value of a variable in an expression: a local, or else the block of a register. -/
def read (m : Memory α) (var : VarName) : Ran (Value α) :=
  match m.locals.get? var, m.buffers.get? var with
  | some value, _ => .ok value
  | none, some (.register block) => .ok (.block block)
  | none, some other => Ran.mismatch (.readOf var) .localOrRegister other.kind
  | none, none => Outcome.fail (.unboundVariable var)

end Memory

namespace Machine

variable {α : Type}

/-! ## The memory at entry -/

/-- The memory with the value of a parameter, which is no tensor. -/
def addParam (m : Machine α) (mem : Memory α) (param : Variable) : Ran (Memory α) :=
  match param.type with
  | .tensor _ => Ran.mismatch (.parameter param.name) .noTensor (.type param.type)
  | _ => do
    let value ← m.bindings.param param.name
    return mem.withLocal param.name value

/-- The number of numbers of a dense buffer, each product of which has to be a word. -/
def denseSize (m : Machine α) (dims : List IndexDomain) (block : BlockShape) : Ran Nat := do
  let length ← Outcome.orAbort block.length?
  dims.foldlM (fun size dim => do
    let extent ← m.resolution.extent dim
    Outcome.orAbort (Word.mul? size extent)) length

variable [Scalar α]

/-- A buffer of zeros for a tensor, laid out as its descriptor says. -/
def allocate (m : Machine α) (dims : List IndexDomain) (storage : TensorStorage) :
    Ran (Buffer α) :=
  match storage.kind with
  | .dense => do
    let size ← m.denseSize dims storage.block
    let size ← Outcome.orAbort (Word.cells? size 8)
    return .dense storage.block (Array.replicate size 0)
  | .sparse pattern => do
    let pattern ← m.resolution.pattern pattern
    let matrix ← Outcome.orAbort (BlockMatrix.zeros? pattern storage.block)
    return .sparse matrix
  | .register => do
    let block ← Outcome.orAbort (BlockValue.zeros? storage.block)
    return .register block

/-- The memory with the buffer of a variable, if it is a tensor. -/
def addBuffer (m : Machine α) (storages : Storages) (mem : Memory α) (var : Variable) :
    Ran (Memory α) :=
  match var.type with
  | .tensor type => do
    let storage ← Outcome.orFail (.unloweredConstruct (.noStorage var.name))
      (storages.get? var.name)
    let buffer ← m.allocate type.dims storage
    return mem.withBuffer var.name buffer
  | _ => .ok mem

/-- The memory at entry: the parameters as locals, and a buffer of zeros for each tensor. -/
def start (m : Machine α) (storages : Storages) : Ran (Memory α) := do
  let mem ← m.func.params.foldlM m.addParam Memory.empty
  (m.func.locals ++ m.func.results).foldlM (m.addBuffer storages) mem

end Machine

end GraphTensor
