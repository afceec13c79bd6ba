import GraphTensor.Proofs.Solve.Pivots
import Mathlib.Algebra.BigOperators.Group.List.Basic
import Mathlib.Tactic.LinearCombination
import Mathlib.Tactic.Ring
set_option autoImplicit false

/-! # Exact elimination

Exchanging rows and subtracting multiples of the pivot row from those below changes nothing about
which vectors solve a system. Where numbers are exact and no diagonal entry is zero, the recorded
steps therefore give the one solution of the system, whatever its right-hand side
(`solveSteps_eliminate`).

The induction is on the number of columns. A step splits each row into its first entry and the rest:
the rows below, once `cleared`, are satisfied by the rest of a vector just if the rows before were
satisfied by the whole of it, given that the pivot row is. -/

namespace GraphTensor

variable {K : Type} [Field K] [LinearOrder K]

/-! ## Products of rows and vectors -/

omit [LinearOrder K] in
/-- The sum of the products of the numbers of two lists. -/
def dot (xs ys : List K) : K :=
  (List.zipWith (· * ·) xs ys).sum

omit [LinearOrder K] in
theorem dot_cons (x y : K) (xs ys : List K) : dot (x :: xs) (y :: ys) = x * y + dot xs ys :=
  List.sum_cons

omit [LinearOrder K] in
theorem dot_zipWith (l : K) {xs us : List K} (h : xs.length = us.length) (ys : List K) :
    dot (xs.zipWith (fun x u => -u * l + x) us) ys = dot xs ys - l * dot us ys := by
  induction xs generalizing us ys with
  | nil =>
      obtain rfl := List.eq_nil_of_length_eq_zero h.symm
      simp [dot]
  | cons x xs ih =>
      cases us with
      | nil => cases h
      | cons u us =>
          cases ys with
          | nil => simp [dot]
          | cons y ys =>
              rw [List.zipWith_cons_cons, dot_cons, dot_cons, dot_cons, ih (Nat.succ.inj h)]
              ring

omit [LinearOrder K] in
theorem foldr_zip_eq_sub_dot (first : K) (us xs : List K) :
    (us.zip xs).foldr (fun (u, x) sum => -x * u + sum) first = first - dot us xs := by
  induction us generalizing xs with
  | nil => simp [dot]
  | cons u us ih =>
      cases xs with
      | nil => simp [dot]
      | cons x xs =>
          rw [List.zip_cons_cons, List.foldr_cons, ih, dot_cons]
          change -x * u + (first - dot us xs) = _
          ring

/-! ## One column -/

/-- The multiples of the pivot row that are subtracted from the rows below. -/
def multiples (diagonal : K) (below : List (List K)) : List K :=
  (heads below).map (· * (1 / diagonal))

/-- The rows below the pivot row without their first entries, once those have been cleared. -/
def cleared (diagonal : K) (upper : List K) (below : List (List K)) : List (List K) :=
  below.zipWith (fun row l => row.tail.zipWith (fun x u => -u * l + x) upper)
    (multiples diagonal below)

theorem clearColumn_eq {diagonal : K} (h : diagonal ≠ 0) (upper : List K) (below : List (List K)) :
    clearColumn diagonal upper below = (multiples diagonal below, cleared diagonal upper below) := by
  have hzero : Scalar.isZero diagonal = false := decide_eq_false h
  rw [clearColumn, hzero]
  rfl

theorem clearColumn_zero (upper : List K) (below : List (List K)) :
    clearColumn 0 upper below = (heads below, below.map List.tail) :=
  if_pos (decide_eq_true rfl)

theorem length_multiples (diagonal : K) (below : List (List K)) :
    (multiples diagonal below).length = below.length := by
  rw [multiples, heads, List.length_map, List.length_map]

theorem length_cleared (diagonal : K) (upper : List K) (below : List (List K)) :
    (cleared diagonal upper below).length = below.length := by
  rw [cleared, List.length_zipWith, length_multiples, Nat.min_self]

theorem length_of_mem_cleared {n : Nat} {diagonal : K} {upper : List K} {below : List (List K)}
    (hupper : upper.length = n) (hbelow : ∀ row ∈ below, row.length = n + 1) :
    ∀ row ∈ cleared diagonal upper below, row.length = n := by
  intro row hrow
  obtain ⟨i, hi, rfl⟩ := List.mem_iff_getElem.1 hrow
  have hi' : i < below.length := by
    rwa [length_cleared] at hi
  have hold := hbelow below[i] (List.getElem_mem hi')
  simp [cleared, hold, hupper]

/-- A vector that satisfies the pivot row satisfies the rows below just if what is left of it
    satisfies the cleared ones. -/
theorem map_dot_cleared_iff {n : Nat} {diagonal first y : K} {upper ys : List K}
    (hdiagonal : diagonal ≠ 0) (hupper : upper.length = n)
    (hfirst : diagonal * y + dot upper ys = first) {below : List (List K)} {rhs : List K}
    (hbelow : ∀ row ∈ below, row.length = n + 1) (hrhs : rhs.length = below.length) :
    below.map (dot · (y :: ys)) = rhs ↔
      (cleared diagonal upper below).map (dot · ys) =
        addScaled rhs (multiples diagonal below) (-first) := by
  induction below generalizing rhs with
  | nil =>
      obtain rfl := List.eq_nil_of_length_eq_zero hrhs
      exact ⟨fun _ => rfl, fun _ => rfl⟩
  | cons row below ih =>
      obtain ⟨b, rhs, rfl⟩ := List.exists_cons_of_length_eq_add_one hrhs
      obtain ⟨r, tail, rfl⟩ := List.exists_cons_of_length_eq_add_one (hbelow row (List.mem_cons_self ..))
      have htail : tail.length = upper.length :=
        (Nat.succ.inj (hbelow _ (List.mem_cons_self ..))).trans hupper.symm
      have hrest := ih (fun row hrow => hbelow row (List.mem_cons_of_mem _ hrow))
        (Nat.succ.inj hrhs)
      have hl : r * (1 / diagonal) * diagonal = r := by
        rw [mul_assoc, one_div_mul_cancel hdiagonal, mul_one]
      -- the equations of the first rows differ by a multiple of that of the pivot row
      have hrow : r * y + dot tail ys = b ↔
          dot tail ys - r * (1 / diagonal) * dot upper ys =
            -first * (r * (1 / diagonal)) + b := by
        rw [← hfirst]
        constructor
        · intro h
          linear_combination h + y * hl
        · intro h
          linear_combination h - y * hl
      show (dot (r :: tail) (y :: ys) :: below.map (dot · (y :: ys)) = b :: rhs) ↔
        dot (tail.zipWith (fun x u => -u * (r * (1 / diagonal)) + x) upper) ys ::
            (cleared diagonal upper below).map (dot · ys) =
          (-first * (r * (1 / diagonal)) + b) ::
            addScaled rhs (multiples diagonal below) (-first)
      rw [List.cons_eq_cons, List.cons_eq_cons, dot_cons, dot_zipWith _ htail, hrow, hrest]

/-! ## All columns -/

/-- **Elimination is exact.** What the steps of an elimination give for a right-hand side is the one
    vector that satisfies all rows. -/
theorem solveSteps_eliminate {n : Nat} {rows : List (List K)} {rhs x : List K}
    (hrows : rows.length = n) (hcols : ∀ row ∈ rows, row.length = n) (hrhs : rhs.length = n)
    (h : solveSteps (eliminate n rows) rhs = some x) :
    x.length = n ∧ ∀ y, y.length = n → (rows.map (dot · y) = rhs ↔ y = x) := by
  induction n generalizing rows rhs x with
  | zero =>
      obtain rfl := List.eq_nil_of_length_eq_zero hrows
      obtain rfl := List.eq_nil_of_length_eq_zero hrhs
      obtain rfl := Option.some.inj h
      refine ⟨rfl, fun y hy => ?_⟩
      obtain rfl := List.eq_nil_of_length_eq_zero hy
      exact ⟨fun _ => rfl, fun _ => rfl⟩
  | succ n ih =>
      obtain ⟨diagonal, upper, below, hpivoted⟩ := exists_pivoted hrows hcols
      obtain ⟨first, rest, hexchange, hlength, _⟩ :=
        exists_exchange_eq_cons hrhs (largest (heads rows))
      rw [eliminate_of_exchange hpivoted.exchanged] at h
      simp only [solveSteps, hexchange] at h
      obtain ⟨solved, hsolved, h⟩ := Option.bind_eq_some_iff.1 h
      split at h
      · cases h
      next hzero =>
        have hdiagonal : diagonal ≠ 0 := by simpa [Scalar.isZero] using hzero
        rw [foldr_zip_eq_sub_dot] at h
        obtain rfl := Option.some.inj h
        rw [clearColumn_eq hdiagonal] at hsolved
        have hbelow := hpivoted.below_length
        obtain ⟨hsize, hiff⟩ := ih ((length_cleared ..).trans hbelow)
          (length_of_mem_cleared hpivoted.upper_length hpivoted.row_length)
          (by rw [addScaled, List.length_zipWith, length_multiples, hbelow, hlength, Nat.min_self])
          hsolved
        have hcleared : ∀ {y ys}, diagonal * y + dot upper ys = first →
            (below.map (dot · (y :: ys)) = rest ↔ (cleared diagonal upper below).map (dot · ys) =
              addScaled rest (multiples diagonal below) (-first)) := fun hfirst =>
          map_dot_cleared_iff hdiagonal hpivoted.upper_length hfirst hpivoted.row_length
            (hlength.trans hbelow.symm)
        refine ⟨congrArg (· + 1) hsize, fun y hy => ?_⟩
        obtain ⟨y, ys, rfl⟩ := List.exists_cons_of_length_eq_add_one hy
        rw [← exchange_inj (k := largest (heads rows)), exchange_map, hpivoted.exchanged, hexchange,
          List.map_cons, List.cons_eq_cons, dot_cons, List.cons_eq_cons]
        constructor
        · rintro ⟨hfirst, hothers⟩
          obtain rfl := (hiff ys (Nat.succ.inj hy)).1 ((hcleared hfirst).1 hothers)
          refine ⟨?_, rfl⟩
          rw [eq_div_iff hdiagonal]
          linear_combination hfirst
        · rintro ⟨rfl, rfl⟩
          have hfirst : diagonal * ((first - dot upper ys) / diagonal) + dot upper ys = first := by
            rw [mul_div_cancel₀ _ hdiagonal]
            exact sub_add_cancel _ _
          exact ⟨hfirst, (hcleared hfirst).2 ((hiff ys (Nat.succ.inj hy)).2 rfl)⟩

end GraphTensor
