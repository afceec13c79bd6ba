set_option autoImplicit false

/-! # Columns that two rows share

Two rows are walked together, the cursor with the smaller column moving on, and every column they
agree on is reported with its index in either row (`SharedColumn`). On ascending rows these are
exactly the shared columns. `intersectFrom` is the walk from two cursors on, and `intersect` the
whole of it, over which a loop runs. -/

namespace GraphTensor

/-- A column of two rows. -/
structure SharedColumn where
  /-- The column. -/
  col : Nat
  /-- Its index in the first row. -/
  left : Nat
  /-- Its index in the second row. -/
  right : Nat
deriving DecidableEq, Repr

/-- The columns on which two walks agree, the cursors standing at `i` and `j`. -/
def intersectFrom : (left right : List Nat) → (i j : Nat) → List SharedColumn
  | a :: left, b :: right, i, j =>
    if a < b then intersectFrom left (b :: right) (i + 1) j
    else if b < a then intersectFrom (a :: left) right i (j + 1)
    else ⟨a, i, j⟩ :: intersectFrom left right (i + 1) (j + 1)
  | [], _, _, _ => []
  | _, [], _, _ => []
termination_by left right => left.length + right.length

/-- The columns that two ascending rows share. -/
def intersect (left right : List Nat) : List SharedColumn :=
  intersectFrom left right 0 0

end GraphTensor
