import GraphTensor.Scalar
set_option autoImplicit false

/-! # Symmetric elimination

A symmetric matrix is eliminated without exchanges and without square roots into `L D Lᵀ`, the
diagonal of `L` being one (`symmetricSteps?`); it is positive definite just if every entry of `D`
is positive, and the elimination ends without an answer at the first that is not. Only the lower
triangle is read: row `i` of it has the entries of columns `0` to `i`.

A `SymmetricStep` records an entry of `D` and the column of `L` below it, which is all that
`solveSymmetric` needs: it goes down the steps with the right-hand side, divides, and comes back
up. -/

namespace GraphTensor

/-- One step of symmetric elimination. -/
structure SymmetricStep (α : Type) where
  /-- The diagonal entry. -/
  diagonal : α
  /-- The first entries of the rows below, divided by it. -/
  lower : List α
deriving Repr

variable {α : Type} [Scalar α]

/-- The first entries of the rows of a lower triangle. -/
def leading (rows : List (List α)) : List α :=
  rows.map fun row => row.headD 0

/-- The triangle that remains below and to the right of the first column. -/
def remainder (column : List α) (lower : List α) (below : List (List α)) : List (List α) :=
  below.zipWith (fun row l => row.tail.zipWith (fun x c => x - l * c) column) lower

/-- The steps that eliminate a triangle of `n` rows, if every diagonal entry is positive. -/
def symmetricSteps? : (n : Nat) → (rows : List (List α)) → Option (List (SymmetricStep α))
  | 0, _ => some []
  | n + 1, rows =>
    match rows with
    | [] => some []
    | top :: below =>
      let diagonal := top.headD 0
      if Scalar.less 0 diagonal then do
        let column := leading below
        let lower := column.map (· / diagonal)
        let rest ← symmetricSteps? n (remainder column lower below)
        some (⟨diagonal, lower⟩ :: rest)
      else none

/-- The solution for a right-hand side. -/
def solveSymmetric : List (SymmetricStep α) → List α → List α
  | [], _ => []
  | step :: rest, rhs =>
    let first := rhs.headD 0
    let solved := solveSymmetric rest (rhs.tail.zipWith (fun b l => b - first * l) step.lower)
    (step.lower.zip solved).foldr (fun (l, x) sum => sum - l * x) (first / step.diagonal) :: solved

end GraphTensor
