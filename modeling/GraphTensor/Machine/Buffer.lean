import GraphTensor.Machine.Value
import GraphTensor.Matrix.BlockSparse
set_option autoImplicit false

/-! # Buffers

A buffer (`Buffer`) holds the numbers of one tensor in the order of its layout, block after block.
Whatever the layout, its numbers form one array (`Buffer.values`), and a block is a slot of that
array: as many numbers from some start on. A slot that does not lie inside the array is an error,
and one whose end is no word is an abort (`Slot.locate`).

Reading and writing know nothing of indices: `Buffer.load` and `Buffer.store` go to an offset that
the program has computed, `Buffer.loadAt` and `Buffer.storeAt` to a position of the pattern. Either
write can add instead (`Slot.write`), one number after the other. -/

namespace GraphTensor

/-! ## Slots of an array -/

namespace Slot

variable {α : Type}

/-- The start of a slot of a given length in a buffer of a given size. -/
def locate (var : VarName) (size : Nat) (start : Int) (length : Nat) : Ran Nat :=
  if start < 0 then Outcome.fail (.indexOutOfBounds (.buffer var) start size)
  else do
    let stop ← Outcome.orAbort (Word.add? start.toNat length)
    Outcome.failIf (size < stop) (.indexOutOfBounds (.buffer var) start size)
    return start.toNat

/-- The offset of the block at a position of a pattern. A product that is no signed word is replaced
    by the nearest one, which no buffer reaches. -/
def offsetOf (position : Int) (length : Nat) : Int :=
  SignedWord.saturate (position * SignedWord.ofCount length)

/-- The numbers of a slot. -/
def read (values : Array α) (start length : Nat) : Array α :=
  values.extract start (start + length)

variable [Scalar α]

/-- One number written, or added, at its place. -/
def writeOne (accumulate : Bool) (values : Array α) (entry : α × Nat) : Array α :=
  if accumulate then values.modify entry.2 (· + entry.1)
  else values.setIfInBounds entry.2 entry.1

/-- Numbers written, or added, one after another from a place on. -/
def write (values : Array α) (start : Nat) (data : Array α) (accumulate : Bool) : Array α :=
  (data.toList.zipIdx start).foldl (writeOne accumulate) values

theorem size_writeOne (accumulate : Bool) (values : Array α) (entry : α × Nat) :
    (writeOne accumulate values entry).size = values.size := by
  cases accumulate <;> simp [writeOne]

/-- Writing keeps the number of numbers. -/
theorem size_write (values : Array α) (start : Nat) (data : Array α) (accumulate : Bool) :
    (write values start data accumulate).size = values.size := by
  unfold write
  generalize data.toList.zipIdx start = entries
  induction entries generalizing values with
  | nil => rfl
  | cons entry rest ih => rw [List.foldl_cons, ih, size_writeOne]

end Slot

/-! ## Buffers -/

/-- The numbers of one tensor. -/
inductive Buffer (α : Type) where
  /-- One block after another over the full range of indices. -/
  | dense (block : BlockShape) (values : Array α)
  /-- One block for each entry of a pattern. -/
  | sparse (matrix : BlockMatrix α)
  /-- A single block. -/
  | register (value : BlockValue α)
deriving DecidableEq, Repr

namespace Buffer

variable {α : Type}

/-- The numbers in the order of the layout. -/
def values : Buffer α → Array α
  | dense _ values => values
  | sparse matrix => matrix.values
  | register value => value.data

/-- The shape of a block. -/
def block : Buffer α → BlockShape
  | dense block _ => block
  | sparse matrix => matrix.block
  | register value => value.shape

/-- The kind of a buffer. -/
def kind : Buffer α → Quality
  | dense _ _ => .dense
  | sparse _ => .sparse
  | register _ => .register

/-- The buffer with other numbers in the same layout. A register keeps its block unless the numbers
    fill it. -/
def withValues (b : Buffer α) (values : Array α) : Buffer α :=
  match b with
  | dense block _ => dense block values
  | sparse matrix => sparse { matrix with values := values }
  | register value => register ((BlockValue.ofArray? value.shape values).getD value)

/-- Replacing the numbers by as many others gives those. -/
theorem values_withValues {b : Buffer α} {values : Array α} (h : values.size = b.values.size) :
    (b.withValues values).values = values := by
  cases b with
  | dense block old => rfl
  | sparse matrix => rfl
  | register value =>
    have hs : values.size = value.shape.length := h.trans value.size_data
    simp [withValues, BlockValue.ofArray?, hs, Buffer.values]

variable [Scalar α]

/-- The buffer with all numbers zero. -/
def cleared (b : Buffer α) : Buffer α :=
  b.withValues (Array.replicate b.values.size 0)

/-- The block of a shape that starts at an offset. -/
def load (var : VarName) (b : Buffer α) (offset : Int) (shape : BlockShape) :
    Ran (BlockValue α) := do
  let length ← Outcome.orAbort shape.length?
  let start ← Slot.locate var b.values.size offset length
  Value.blockOf shape (Slot.read b.values start length)

/-- The block of a shape at a position of a pattern. -/
def loadAt (var : VarName) (b : Buffer α) (position : Int) (shape : BlockShape) :
    Ran (BlockValue α) := do
  let length ← Outcome.orAbort shape.length?
  b.load var (Slot.offsetOf position length) shape

/-- The buffer with a block written, or added, at an offset. -/
def store (var : VarName) (b : Buffer α) (offset : Int) (value : BlockValue α) (accumulate : Bool) :
    Ran (Buffer α) := do
  let start ← Slot.locate var b.values.size offset value.shape.length
  return b.withValues (Slot.write b.values start value.data accumulate)

/-- The buffer with a block written, or added, at a position of a pattern. -/
def storeAt (var : VarName) (b : Buffer α) (position : Int) (value : BlockValue α)
    (accumulate : Bool) : Ran (Buffer α) :=
  b.store var (Slot.offsetOf position value.shape.length) value accumulate

end Buffer

end GraphTensor
