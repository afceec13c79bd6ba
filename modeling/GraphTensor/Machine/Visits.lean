import GraphTensor.Machine.Eval
import GraphTensor.Pattern.Intersection
set_option autoImplicit false

/-! # The visits of a loop

A loop visits its body a number of times, which is known before the first visit, and binds indices
at each. What is visited never depends on what the body does, so `Machine.visits` reads the memory
before the loop only.

`Visits` are kept as a count and a function rather than a list, since a loop may be long;
`Visits.toList` lists them for statements about them, and `Visits.run` takes a step at each of them
in order, ending at the first fault. -/

namespace GraphTensor

/-- The visits of a loop. -/
structure Visits where
  /-- The number of visits. -/
  count : Nat
  /-- The indices that a visit binds. -/
  indices : Nat → List (VarName × Nat)

namespace Visits

/-- The visits that bind one index to each number below an extent. -/
def below (var : VarName) (extent : Nat) : Visits :=
  ⟨extent, fun k => [(var, k)]⟩

/-- The visits given one by one. -/
def ofList (visits : List (List (VarName × Nat))) : Visits :=
  let visits := visits.toArray
  ⟨visits.size, fun k => visits.getD k []⟩

/-- All visits in order. -/
def toList (v : Visits) : List (List (VarName × Nat)) :=
  (List.range v.count).map v.indices

/-- A step taken for a number of indices, from the first one on. -/
def runFrom {ε σ : Type} (step : Nat → σ → Outcome ε σ) : Nat → Nat → σ → Outcome ε σ
  | 0, _, state => .ok state
  | count + 1, first, state =>
    match step first state with
    | .ok state => runFrom step count (first + 1) state
    | .error fault => .error fault

/-- A step taken at every visit. -/
def run {ε σ : Type} (v : Visits) (step : List (VarName × Nat) → σ → Outcome ε σ) (state : σ) :
    Outcome ε σ :=
  runFrom (fun k => step (v.indices k)) v.count 0 state

theorem runFrom_eq_foldlM {ε σ : Type} (step : Nat → σ → Outcome ε σ) (count first : Nat)
    (state : σ) :
    runFrom step count first state =
      (List.range' first count).foldlM (fun state k => step k state) state := by
  induction count generalizing first state with
  | zero => rfl
  | succ count ih =>
    rw [runFrom, List.range'_succ, List.foldlM_cons]
    cases h : step first state with
    | ok next => exact ih (first + 1) next
    | error fault => rfl

/-- Running the visits is folding the step over their list. -/
theorem run_eq_foldlM {ε σ : Type} (v : Visits) (step : List (VarName × Nat) → σ → Outcome ε σ)
    (state : σ) :
    v.run step state = v.toList.foldlM (fun state indices => step indices state) state := by
  rw [run, runFrom_eq_foldlM, toList, List.foldlM_map, List.range_eq_range']

end Visits

namespace Machine

variable {α : Type} [Scalar α]

/-- The row of a pattern that an expression gives. -/
def rowOf (m : Machine α) (mem : Memory α) (ref : PatternRef) (p : Pattern) (row : Expr α) :
    Ran Nat := do
  let row ← m.eval mem row
  row.asIndex (.rowOf ref) p.rows

/-- The visits of a loop. -/
def visits (m : Machine α) (mem : Memory α) : Loop α → Ran Visits
  | .elements set element => do
    let n ← m.resolution.size set
    return .below element n
  | .range var extent => do
    let n ← m.resolution.extent extent
    return .below var n
  | .pattern ref row col position => do
    let p ← m.resolution.pattern ref
    return .ofList (p.entries.map fun (i, j, k) => [(row, i), (col, j), (position, k)])
  | .row ref row col position => do
    let p ← m.resolution.pattern ref
    let i ← m.rowOf mem ref p row
    return .ofList ((p.rowEntries i).map fun (_, j, k) => [(col, j), (position, k)])
  | .intersect left right leftRow rightRow col leftPosition rightPosition => do
    let l ← m.resolution.pattern left
    let r ← m.resolution.pattern right
    let i ← m.rowOf mem left l leftRow
    let j ← m.rowOf mem right r rightRow
    return .ofList ((intersect (l.row i) (r.row j)).map fun shared =>
      [(col, shared.col), (leftPosition, l.start i + shared.left),
        (rightPosition, r.start j + shared.right)])

end Machine

end GraphTensor
