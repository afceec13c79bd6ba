import GraphTensor.Pattern.Basic
set_option autoImplicit false

/-! # Finding an entry of a pattern

The columns of a row are ascending, so a column is found by halving the row (`bisect`) or by
scanning it up to the first column that is not below the one sought (`scan`). Both find the same
position; which of them a program uses (`Search`) shows only in its speed. `Pattern.locate` is the
search of a place, whose answer is a position in the whole pattern, and there is none for a row that
does not exist. -/

namespace GraphTensor

/-- How a row is searched for a column. -/
inductive Search where
  /-- Halving the sorted row. -/
  | binary
  /-- A scan that ends at the first column not below the one sought. -/
  | linear
deriving DecidableEq, Repr, Inhabited

/-- The name of a strategy. -/
def Search.text : Search → String
  | binary => "binary"
  | linear => "linear"

/-- The place of a number in an ascending array within `[lo, hi)`, by halving. -/
def bisect (xs : Array Nat) (target lo hi : Nat) : Option Nat :=
  if _h : lo < hi then
    let middle := lo + (hi - lo) / 2
    match xs[middle]? with
    | none => none
    | some x =>
      if x = target then some middle
      else if x < target then bisect xs target (middle + 1) hi
      else bisect xs target lo middle
  else none
termination_by hi - lo
decreasing_by all_goals omega

/-- The place of a number in an ascending list, counted from `place`; numbers past the first one
    that is not below it are never looked at. -/
def scan (target : Nat) : List Nat → Nat → Option Nat
  | [], _ => none
  | x :: rest, place =>
    if x < target then scan target rest (place + 1)
    else if x = target then some place
    else none

namespace Pattern

/-- The position of an entry, or `none` if the place is not stored or the row does not exist. -/
def locate (p : Pattern) (search : Search) (row col : Nat) : Option Nat :=
  if row < p.rows then
    match search with
    | .binary => bisect p.indices col (p.start row) (p.stop row)
    | .linear => scan col (p.row row) (p.start row)
  else none

/-- A place is stored. -/
def contains (p : Pattern) (row col : Nat) : Bool :=
  (p.locate .binary row col).isSome

end Pattern

end GraphTensor
