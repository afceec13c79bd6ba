import GraphTensor.Lowering.Access
import GraphTensor.Lowering.Assembly
import GraphTensor.Lowering.Contraction
import GraphTensor.Storage.Inference
set_option autoImplicit false

/-! # Lowering

A function is lowered against a table of descriptors (`Func.lowerWith`): first its assemblies become
loops, then its index expressions become loop nests, and last the accesses to tensors become memory
operations. The outcome is a `LoweredFunc`, the function with the table it was lowered against.
`Func.lower` infers the table first. The only option (`LowerOptions`) is how rows are searched. -/

namespace GraphTensor

/-- Options of lowering. -/
structure LowerOptions where
  /-- How rows of patterns are searched. -/
  search : Search
deriving DecidableEq, Repr

/-- The options if none are given: rows are searched by halving. -/
def LowerOptions.standard : LowerOptions :=
  ⟨.binary⟩

/-- A lowered function with the descriptors it was lowered against. -/
structure LoweredFunc (α : Type) where
  /-- The function. -/
  func : Func α
  /-- The descriptors of its tensors. -/
  storages : Storages
deriving Repr

variable {α : Type} [Scalar α]

/-- Lowers a function against a table of descriptors. -/
def Func.lowerWith (f : Func α) (storages : Storages) (options : LowerOptions) :
    Lowered (LoweredFunc α) := do
  let f ← f.lowerAssemblies storages
  let f ← f.lowerIndexExpressions storages
  let f ← f.lowerAccesses storages options.search
  return ⟨f, storages⟩

/-- Infers the descriptors of a function's tensors and lowers it against them. -/
def Func.lower (f : Func α) (options : LowerOptions) : Lowered (LoweredFunc α) := do
  let storages ← f.inferStorage
  f.lowerWith storages options

end GraphTensor
