import GraphTensor.Program.Func
set_option autoImplicit false

/-! # Storage descriptors

Every tensor variable has one descriptor (`TensorStorage`), which says how its blocks are laid out:
in a register, densely, or by the entries of a pattern (`StorageKind`). The table of descriptors
(`Storages`) is made once, before lowering, and is only read afterwards; `Table.pattern?` is what
most readers want of it. -/

namespace GraphTensor

/-- How the blocks of a tensor are laid out. -/
inductive StorageKind where
  /-- One block after another over the full range of indices. -/
  | dense
  /-- One block for each entry of a pattern, in the order of the pattern. -/
  | sparse (pattern : PatternRef)
  /-- A single block in a register. -/
  | register
deriving DecidableEq, Repr

/-- The descriptor of one tensor. -/
structure TensorStorage where
  /-- The layout. -/
  kind : StorageKind
  /-- The block at each tuple of indices. -/
  block : BlockShape
deriving DecidableEq, Repr

namespace TensorStorage

/-- The pattern of a sparse tensor. -/
def pattern? (s : TensorStorage) : Option PatternRef :=
  match s.kind with
  | .sparse p => some p
  | .dense => none
  | .register => none

/-- The text of a descriptor. -/
def text (s : TensorStorage) : String :=
  match s.kind with
  | .dense => s!"dense({s.block.text})"
  | .sparse p => s!"sparse({p.text}, {s.block.text})"
  | .register => s!"register({s.block.text})"

end TensorStorage

/-- The descriptors of a function's tensors. -/
abbrev Storages : Type :=
  Table VarName TensorStorage

/-- The pattern of a variable that is stored sparsely. -/
def Table.pattern? (t : Storages) (var : VarName) : Option PatternRef :=
  (t.get? var).bind TensorStorage.pattern?

end GraphTensor
