import GraphTensor.Scalar
set_option autoImplicit false

/-! # Elimination with row exchanges

A square matrix, given by its rows, is eliminated column by column (`eliminate`). In each step the
row with the largest entry in the first column comes to the top (`largest`, `exchange`), the first
one among equals, and is subtracted from the rows below so that their first entries vanish
(`clearColumn`); what remains below and to the right is eliminated in the same way. A column of
zeros is passed over.

The record of the steps (`PivotStep`: the exchange, the diagonal entry, the rest of the top row and
the multiples) solves the system for any right-hand side (`solveSteps`), which meets the same
exchanges and subtractions on its way down. -/

namespace GraphTensor

/-- One step of elimination. -/
structure PivotStep (α : Type) where
  /-- The row that came to the top, counted among those that remained. -/
  pivot : Nat
  /-- Its first entry. -/
  diagonal : α
  /-- Its other entries. -/
  upper : List α
  /-- What was subtracted from each row below, in multiples of the pivot row. -/
  lower : List α
deriving Repr

variable {α : Type}

/-- A list with its first element and the one at a place exchanged. -/
def exchange (xs : List α) (k : Nat) : List α :=
  match xs, k with
  | [], _ => []
  | x :: rest, 0 => x :: rest
  | x :: rest, k + 1 =>
    match rest[k]? with
    | some y => y :: rest.set k x
    | none => x :: rest

variable [Scalar α]

/-- A multiple of one list added onto another. -/
def addScaled (xs ys : List α) (factor : α) : List α :=
  xs.zipWith (fun x y => factor * y + x) ys

/-- The place of the largest magnitude in a list, `best` being the largest so far at place `at`. -/
def largestFrom (best : α) (bestPlace place : Nat) : List α → Nat
  | [] => bestPlace
  | x :: rest =>
    if Scalar.less best (Scalar.abs x) then largestFrom (Scalar.abs x) place (place + 1) rest
    else largestFrom best bestPlace (place + 1) rest

/-- The first place of the largest magnitude in a list. -/
def largest : List α → Nat
  | [] => 0
  | x :: rest => largestFrom (Scalar.abs x) 0 1 rest

/-- The first entries of rows. -/
def heads (rows : List (List α)) : List α :=
  rows.map fun row => row.headD 0

/-- Eliminates the first column of rows whose pivot row is at the top: the multiples of the pivot
    row that are subtracted, and the rows below without their first entries. -/
def clearColumn (diagonal : α) (upper : List α) (below : List (List α)) :
    List α × List (List α) :=
  -- the pivot has the largest magnitude, so a zero pivot leaves nothing to clear
  if Scalar.isZero diagonal then (heads below, below.map List.tail)
  else
    let inverse := 1 / diagonal
    let lower := (heads below).map (· * inverse)
    (lower, below.zipWith (fun row l => row.tail.zipWith (fun x u => -u * l + x) upper) lower)

/-- The steps that eliminate a matrix of `n` rows. -/
def eliminate : (n : Nat) → (rows : List (List α)) → List (PivotStep α)
  | 0, _ => []
  | n + 1, rows =>
    let pivot := largest (heads rows)
    match exchange rows pivot with
    | [] => []
    | top :: below =>
      let diagonal := top.headD 0
      let (lower, rest) := clearColumn diagonal top.tail below
      ⟨pivot, diagonal, top.tail, lower⟩ :: eliminate n rest

/-- The solution for a right-hand side, unless a diagonal entry is zero. -/
def solveSteps : List (PivotStep α) → List α → Option (List α)
  | [], _ => some []
  | step :: rest, rhs => do
    let (first, below) := match exchange rhs step.pivot with
      | [] => (0, [])
      | first :: below => (first, below)
    let solved ← solveSteps rest (addScaled below step.lower (-first))
    if Scalar.isZero step.diagonal then none
    else
      let first := (step.upper.zip solved).foldr (fun (u, x) sum => -x * u + sum) first
      some (first / step.diagonal :: solved)

end GraphTensor
