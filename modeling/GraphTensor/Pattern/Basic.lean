import GraphTensor.Outcome
import GraphTensor.Word
set_option autoImplicit false

/-! # Sparsity patterns in compressed-row form

A `Pattern` says which places of a matrix are stored, without their values. The columns of all rows
stand one after another in `indices`, and `offsets` says where each row begins; the position of an
entry in `indices` is its position in every buffer laid out by the pattern (`Pattern.entries`).

A pattern built from coordinates (`Pattern.ofCoordinates?`) depends on the *set* of coordinates
alone: they are sorted by row and column (`Pattern.sortCoordinates`), repetitions collapse, and a
sweep over them begins one row after the other (`Pattern.Sweep`). `Pattern.diagonal?` and
`Pattern.transpose?` are built in the same way.

A pattern given by its two arrays (`Pattern.ofArrays`) is checked by `Pattern.validate`, which names
the first violation it meets, a `PatternError`. Arrays that are not checked yet are read with care:
`Pattern.rowRange?`, `Pattern.row?` and `Pattern.entries?` have no answer where a place lies outside
of them, which is an abort; `Pattern.row` and `Pattern.entries` read the same of a pattern that is
known to be valid. -/

namespace GraphTensor

/-- A violation of the compressed-row form. -/
inductive PatternError where
  /-- The number of offsets is not one more than the number of rows. -/
  | offsetsLength (expected found : Nat)
  /-- The offsets do not run from zero to the number of stored columns. -/
  | offsetsBounds (stored : Nat)
  /-- A row ends before it begins. -/
  | decreasingOffsets (row : Nat)
  /-- A column does not lie above the one before it in its row. -/
  | unsortedColumns (row col : Nat)
  /-- A column lies outside the matrix. -/
  | columnOutOfBounds (row col cols : Nat)
deriving DecidableEq, Repr

/-- The message of a violation. -/
def PatternError.message : PatternError → String
  | offsetsLength expected found => s!"row offsets must have length {expected}, found {found}"
  | offsetsBounds stored => s!"row offsets must start at 0 and end at {stored}"
  | decreasingOffsets row => s!"row offsets decrease at row {row}"
  | unsortedColumns row col => s!"columns of row {row} are not strictly ascending at column {col}"
  | columnOutOfBounds row col cols =>
    s!"column {col} in row {row} is out of bounds for {cols} columns"

/-- A compressed-row sparsity pattern. -/
structure Pattern where
  /-- The number of rows. -/
  rows : Nat
  /-- The number of columns. -/
  cols : Nat
  /-- Where each row begins in `indices`, and after the last row its length. -/
  offsets : Array Nat
  /-- The stored columns, row after row. -/
  indices : Array Nat
deriving DecidableEq, Repr

namespace Pattern

/-! ## Rows -/

/-- The number of stored entries. -/
def stored (p : Pattern) : Nat :=
  p.indices.size

/-- The position at which a row begins. -/
def start (p : Pattern) (row : Nat) : Nat :=
  p.offsets.getD row 0

/-- The position at which a row has ended. -/
def stop (p : Pattern) (row : Nat) : Nat :=
  p.offsets.getD (row + 1) 0

/-- The stored columns of a row. -/
def row (p : Pattern) (row : Nat) : List Nat :=
  (p.indices.extract (p.start row) (p.stop row)).toList

/-- The first and the past-the-last position of a row, if the row has its two offsets. -/
def rowRange? (p : Pattern) (row : Nat) : Option (Nat × Nat) := do
  let start ← p.offsets[row]?
  let stop ← p.offsets[row + 1]?
  some (start, stop)

/-- The stored columns between two positions, if these come in order and lie among the positions. -/
def columns? (p : Pattern) (start stop : Nat) : Option (List Nat) :=
  if start ≤ stop ∧ stop ≤ p.stored then some (p.indices.extract start stop).toList else none

/-- The stored columns of a row, if its offsets say where they are. -/
def row? (p : Pattern) (row : Nat) : Option (List Nat) := do
  let (start, stop) ← p.rowRange? row
  p.columns? start stop

/-- The entries of one row as row, column and position. -/
def rowEntries (p : Pattern) (row : Nat) : List (Nat × Nat × Nat) :=
  (p.row row).zipIdx (p.start row) |>.map fun (col, position) => (row, col, position)

/-- All entries as row, column and position, row after row. -/
def entries (p : Pattern) : List (Nat × Nat × Nat) :=
  (List.range p.rows).flatMap p.rowEntries

/-- The entry of a row at a position, if there is a column at the position. -/
def entryAt? (p : Pattern) (row position : Nat) : Option (Nat × Nat × Nat) :=
  p.indices[position]?.map fun col => (row, col, position)

/-- The entries of one row, if its offsets and all positions between them can be read. -/
def rowEntries? (p : Pattern) (row : Nat) : Option (List (Nat × Nat × Nat)) := do
  let (start, stop) ← p.rowRange? row
  (List.range' start (stop - start)).mapM (p.entryAt? row)

/-- All entries, row after row, if they can be read. -/
def entries? (p : Pattern) : Option (List (Nat × Nat × Nat)) :=
  ((List.range p.rows).mapM p.rowEntries?).map List.flatten

/-- The coordinates of all entries, row after row. -/
def coordinates (p : Pattern) : List (Nat × Nat) :=
  p.entries.map fun (row, col, _) => (row, col)

/-! ## Patterns from coordinates -/

/-- A coordinate comes before another one: by row, then by column. -/
def precedes (a b : Nat × Nat) : Bool :=
  a.1 < b.1 || (a.1 == b.1 && a.2 < b.2)

/-- A coordinate put into its place in an ascending list, unless it is there already. -/
def insertCoordinate (c : Nat × Nat) : List (Nat × Nat) → List (Nat × Nat)
  | [] => [c]
  | d :: rest =>
    if c = d then d :: rest
    else if precedes c d then c :: d :: rest
    else d :: insertCoordinate c rest

/-- The distinct coordinates of a list in ascending order. -/
def sortCoordinates (cs : List (Nat × Nat)) : List (Nat × Nat) :=
  cs.foldr insertCoordinate []

/-- A pattern to which coordinates are still coming, in ascending order. -/
structure Sweep where
  /-- The row that the coordinates have come to. -/
  row : Nat
  /-- Where each row up to this one begins. -/
  offsets : Array Nat
  /-- The columns stored so far. -/
  indices : Array Nat

namespace Sweep

/-- Row zero begins at position zero. -/
def initial : Sweep :=
  ⟨0, #[0], #[]⟩

/-- Moves on by a number of rows, each of which begins where the columns stored so far end. -/
def advance (s : Sweep) : Nat → Sweep
  | 0 => s
  | n + 1 => advance ⟨s.row + 1, s.offsets.push s.indices.size, s.indices⟩ n

/-- Moves on to the row of a coordinate and stores its column there, if it lies in the matrix. -/
def store? (rows cols : Nat) (s : Sweep) (c : Nat × Nat) : Option Sweep :=
  if c.1 < rows ∧ c.2 < cols then
    let s := s.advance (c.1 - s.row)
    some { s with indices := s.indices.push c.2 }
  else none

/-- The pattern of the columns stored, the rows that no coordinate has come to being empty. -/
def finish (rows cols : Nat) (s : Sweep) : Pattern :=
  let s := s.advance (rows + 1 - s.offsets.size)
  ⟨rows, cols, s.offsets, s.indices⟩

end Sweep

/-- The pattern that stores the given coordinates, in whatever order and however often they come.
    There is none if a coordinate lies outside the matrix or the offsets have no room. -/
def ofCoordinates? (rows cols : Nat) (cs : List (Nat × Nat)) : Option Pattern := do
  let _ ← Word.cells? (rows + 1) 8
  let s ← (sortCoordinates cs).foldlM (Sweep.store? rows cols) Sweep.initial
  some (s.finish rows cols)

/-- The square pattern that stores the diagonal, if its offsets have room. -/
def diagonal? (n : Nat) : Option Pattern :=
  (Word.cells? (n + 1) 8).map fun _ => ⟨n, n, Array.range (n + 1), Array.range n⟩

/-- The pattern with rows and columns exchanged. -/
def transpose? (p : Pattern) : Option Pattern := do
  let entries ← p.entries?
  ofCoordinates? p.cols p.rows (entries.map fun (row, col, _) => (col, row))

/-! ## Validation -/

/-- Checks the columns of a row from the left, the last one seen being `previous`. -/
def checkColumns (cols row : Nat) : Option Nat → List Nat → Except PatternError Unit
  | _, [] => .ok ()
  | previous, col :: rest =>
    if cols ≤ col then .error (.columnOutOfBounds row col cols)
    else if previous.any (col ≤ ·) then .error (.unsortedColumns row col)
    else checkColumns cols row (some col) rest

/-- Checks one row: its two offsets, then the columns between them. -/
def checkRow (p : Pattern) (row : Nat) : Outcome PatternError Unit := do
  let (start, stop) ← Outcome.orAbort (p.rowRange? row)
  if stop < start then Outcome.fail (.decreasingOffsets row)
  else if p.stored < stop then Outcome.fail (.offsetsBounds p.stored)
  else do
    let columns ← Outcome.orAbort (p.columns? start stop)
    Outcome.ofExcept (checkColumns p.cols row none columns)

/-- Checks the rows in order and reports the first violation. -/
def checkRows (p : Pattern) : List Nat → Outcome PatternError Unit
  | [] => .ok ()
  | row :: rest => do
    p.checkRow row
    p.checkRows rest

/-- Checks the compressed-row form: the number of offsets, where they begin and end, and then each
    row. The number of offsets has to be a word, or there is nothing to compare with. -/
def validate (p : Pattern) : Outcome PatternError Unit := do
  let expected ← Outcome.orAbort (Word.add? p.rows 1)
  if p.offsets.size ≠ expected then Outcome.fail (.offsetsLength expected p.offsets.size)
  else do
    let first ← Outcome.orAbort p.offsets[0]?
    let last ← Outcome.orAbort p.offsets[p.rows]?
    if first ≠ 0 ∨ last ≠ p.stored then Outcome.fail (.offsetsBounds p.stored)
    else p.checkRows (List.range p.rows)

/-- The pattern given by its two arrays, once it passes validation. -/
def ofArrays (rows cols : Nat) (offsets indices : Array Nat) : Outcome PatternError Pattern :=
  let p : Pattern := ⟨rows, cols, offsets, indices⟩
  match p.validate with
  | .ok () => .ok p
  | .error fault => .error fault

end Pattern

end GraphTensor
