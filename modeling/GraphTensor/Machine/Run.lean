import GraphTensor.Lowering.Basic
import GraphTensor.Machine.Step
set_option autoImplicit false

/-! # Running a function

A run (`LoweredFunc.execute`) checks the bindings, resolves the patterns, sets up the memory, runs
the body and collects the results. Only then are the fields committed, in the order of their writes
(`Bindings.commit`); until then a failure leaves the bindings as they were.

`LoweredFunc.machine` is the part before the body and `LoweredFunc.compute` the run without the
commit. `Results` holds the buffers of the results by name. -/

namespace GraphTensor

/-- The values of a function's results. -/
abbrev Results (α : Type) : Type :=
  Table VarName (Buffer α)

variable {α : Type}

namespace Memory

/-- The value of a result: its buffer, or else the block of a local. -/
def result (mem : Memory α) (var : VarName) : Ran (Buffer α) :=
  let other (found : Quality) : Ran (Buffer α) :=
    Ran.mismatch (.result var) .tensorOrBlock found
  match mem.buffers.get? var, mem.locals.get? var with
  | some buffer, _ => .ok buffer
  | none, some (.block block) => .ok (.register block)
  | none, some (.int value) => other (.intValue value)
  | none, some (.bool value) => other (.boolValue value)
  | none, some .miss => other .missValue
  | none, none => Outcome.fail (.unboundVariable var)

/-- The values of variables as results. -/
def results (mem : Memory α) (vars : List Variable) : Ran (Results α) :=
  vars.foldlM (fun results var => do
    let value ← mem.result var.name
    return results.insert var.name value) Table.empty

end Memory

/-- The bindings with updates of fields committed from the left, up to the first that fails. -/
def Bindings.commit (b : Bindings α) : List (FieldUpdate α) → Bindings α × Ran Unit
  | [] => (b, .ok ())
  | update :: rest =>
    match b.storeField update.set update.field update.values with
    | .ok b => b.commit rest
    | .error fault => (b, .error fault)

namespace LoweredFunc

variable [Scalar α]

/-- The machine of a run, if the bindings suit the function and all its patterns are resolved. -/
def machine (l : LoweredFunc α) (b : Bindings α) (config : SolverConfig α) : Ran (Machine α) := do
  b.check l.func
  let resolution ← Resolution.ofBindings l.func b
  let (resolution, prepared) := resolution.prepare l.func l.storages
  prepared
  return ⟨l.func, b, resolution, config⟩

/-- The results of a run and the updates of fields that it asks for. -/
def compute (l : LoweredFunc α) (b : Bindings α) (config : SolverConfig α) :
    Ran (Results α × List (FieldUpdate α)) := do
  let m ← l.machine b config
  let mem ← m.start l.storages
  let mem ← m.execAll l.func.body mem
  let results ← mem.results l.func.results
  return (results, mem.updates)

/-- Runs a lowered function. The bindings come back with its updates of fields, or as they were if
    it fails. -/
def execute (l : LoweredFunc α) (b : Bindings α) (config : SolverConfig α) :
    Bindings α × Ran (Results α) :=
  match l.compute b config with
  | .error fault => (b, .error fault)
  | .ok (results, updates) =>
    let (b, committed) := b.commit updates
    (b, committed.map fun _ => results)

end LoweredFunc

end GraphTensor
