import GraphTensor.Proofs.Pattern.Intersection
import Mathlib.Data.List.Basic
set_option autoImplicit false

/-! # The walk over two rows

The columns that two rows share come one at a time, from a `Walk` with a cursor in either row. A
call (`Walk.next`) goes on from where the last one stopped: the cursor at the smaller column moves,
until both stand at the same column, which is reported, or one row has ended. Calls that follow on
one another are a relation, `Walk.Yields`.

`Walk.rest` is what a walk will still report, and `intersect` is that of a walk from the beginning.
A call either takes the head off `Walk.rest` or finds it empty (`Walk.next_cases`), and a walk that
has found it empty stays where it is. So every walk ends, whether the rows are ascending or not, and
on the way it has reported what `intersect` lists. -/

namespace GraphTensor

/-- A walk over two rows. -/
structure Walk where
  /-- The first row. -/
  left : List Nat
  /-- The second row. -/
  right : List Nat
  /-- The index in the first row at which the walk stands. -/
  i : Nat
  /-- The index in the second row at which the walk stands. -/
  j : Nat

namespace Walk

/-- The walk that stands at the beginning of both rows. -/
def start (left right : List Nat) : Walk :=
  ⟨left, right, 0, 0⟩

/-- How many columns of either row the walk has not passed. -/
def ahead (w : Walk) : Nat :=
  (w.left.length - w.i) + (w.right.length - w.j)

/-- The next shared column, if there is one, and the walk as it stands then. -/
def next (w : Walk) : Option SharedColumn × Walk :=
  if h : w.i < w.left.length ∧ w.j < w.right.length then
    let a := w.left[w.i]
    let b := w.right[w.j]
    if a < b then next { w with i := w.i + 1 }
    else if b < a then next { w with j := w.j + 1 }
    else (some ⟨a, w.i, w.j⟩, { w with i := w.i + 1, j := w.j + 1 })
  else (none, w)
termination_by w.ahead
decreasing_by all_goals simp only [ahead]; omega

/-- One call after the other reports these columns and leaves the walk like that. -/
inductive Yields : Walk → List SharedColumn → Walk → Prop where
  /-- No call has been made. -/
  | refl (w : Walk) : Yields w [] w
  /-- A call has reported a column, and later ones the others. -/
  | next {w w' w'' : Walk} {s : SharedColumn} {ss : List SharedColumn} :
      w.next = (some s, w') → Yields w' ss w'' → Yields w (s :: ss) w''

/-! ## One call -/

/-- What the walk will still report. -/
def rest (w : Walk) : List SharedColumn :=
  intersectFrom (w.left.drop w.i) (w.right.drop w.j) w.i w.j

theorem rest_eq (w : Walk) (hi : w.i < w.left.length) (hj : w.j < w.right.length) :
    w.rest =
      if w.left[w.i] < w.right[w.j] then rest { w with i := w.i + 1 }
      else if w.right[w.j] < w.left[w.i] then rest { w with j := w.j + 1 }
      else ⟨w.left[w.i], w.i, w.j⟩ :: rest { w with i := w.i + 1, j := w.j + 1 } := by
  simp only [rest]
  rw [List.drop_eq_getElem_cons hi, List.drop_eq_getElem_cons hj, intersectFrom]

theorem rest_eq_nil (w : Walk) (h : ¬ (w.i < w.left.length ∧ w.j < w.right.length)) :
    w.rest = [] := by
  rw [rest]
  rcases Nat.lt_or_ge w.i w.left.length with hi | hi
  · have hj : w.right.length ≤ w.j := Nat.le_of_not_lt fun hj => h ⟨hi, hj⟩
    rw [List.drop_eq_nil_of_le hj]
    cases w.left.drop w.i <;> simp [intersectFrom]
  · rw [List.drop_eq_nil_of_le hi, intersectFrom]

/-- **One call.** A call reports the first column that is left and leaves the others, or there is none
    left, and then any further call finds the same. -/
theorem next_cases (w : Walk) :
    (∃ s w', w.next = (some s, w') ∧ w.rest = s :: w'.rest) ∨
      ∃ w', w.next = (none, w') ∧ w.rest = [] ∧ w'.next = (none, w') := by
  induction w using next.induct with
  | case1 w h a b hlt ih =>
      rw [next, dif_pos h, rest_eq w h.1 h.2]
      simp only [a, b] at hlt
      simp only [if_pos hlt]
      exact ih
  | case2 w h a b hlt hgt ih =>
      rw [next, dif_pos h, rest_eq w h.1 h.2]
      simp only [a, b] at hlt hgt
      simp only [if_neg hlt, if_pos hgt]
      exact ih
  | case3 w h a b hlt hgt =>
      rw [next, dif_pos h, rest_eq w h.1 h.2]
      simp only [a, b] at hlt hgt
      simp only [if_neg hlt, if_neg hgt]
      exact Or.inl ⟨_, _, rfl, rfl⟩
  | case4 w h =>
      have hstays : w.next = (none, w) := by rw [next, dif_neg h]
      exact Or.inr ⟨w, hstays, w.rest_eq_nil h, hstays⟩

/-! ## Any number of calls -/

variable {left right : List Nat} {w w' : Walk} {ss : List SharedColumn}

/-- What calls have reported comes before what is left. -/
theorem Yields.rest_eq (h : w.Yields ss w') : w.rest = ss ++ w'.rest := by
  induction h with
  | refl w => rfl
  | @next w w' w'' s ss hcall _ ih =>
      rcases w.next_cases with ⟨s', v, hcall', hrest⟩ | ⟨v, hcall', _⟩
      · rw [hcall] at hcall'
        obtain ⟨hs, rfl⟩ := Prod.mk.inj hcall'
        obtain rfl := Option.some.inj hs
        rw [hrest, ih, List.cons_append]
      · rw [hcall] at hcall'
        cases hcall'

/-- Calls report all that is left, and then a call finds nothing. -/
theorem exists_yields_rest (w : Walk) :
    ∃ w' w'', w.Yields w.rest w' ∧ w'.next = (none, w'') ∧ w''.next = (none, w'') := by
  induction hrest : w.rest generalizing w with
  | nil =>
      rcases w.next_cases with ⟨s, v, _, hcons⟩ | ⟨v, hcall, _, hstays⟩
      · rw [hrest] at hcons
        cases hcons
      · exact ⟨w, v, .refl w, hcall, hstays⟩
  | cons s ss ih =>
      rcases w.next_cases with ⟨s', v, hcall, hcons⟩ | ⟨v, _, hnil, _⟩
      · rw [hrest] at hcons
        obtain ⟨rfl, hss⟩ := List.cons.inj hcons
        obtain ⟨w', w'', hyields, hend⟩ := ih v hss.symm
        exact ⟨w', w'', .next hcall hyields, hend⟩
      · rw [hrest] at hnil
        cases hnil

/-- A walk from the beginning will report what the rows share. -/
theorem rest_start (left right : List Nat) : (start left right).rest = intersect left right :=
  rfl

end Walk

/-! ## The columns that are reported -/

variable {left right : List Nat}

/-- In either row one index after the other is reported. -/
theorem pairwise_intersectFrom (left right : List Nat) (i j : Nat) :
    (intersectFrom left right i j).Pairwise fun s t => s.left < t.left ∧ s.right < t.right := by
  induction left, right, i, j using intersectFrom.induct with
  | case1 a left b right i j hlt ih => rwa [intersectFrom, if_pos hlt]
  | case2 a left b right i j hlt hgt ih => rwa [intersectFrom, if_neg hlt, if_pos hgt]
  | case3 a left b right i j hlt hgt ih =>
      rw [intersectFrom, if_neg hlt, if_neg hgt]
      refine List.pairwise_cons.2 ⟨fun s hs => ?_, ih⟩
      -- the cursors have moved past the column that is reported first
      obtain ⟨k, l, hk, hl, _⟩ := getElem?_of_mem_intersectFrom hs
      exact ⟨show i < s.left by omega, show j < s.right by omega⟩
  | case4 => simp [intersectFrom]
  | case5 => simp [intersectFrom]

theorem getElem?_of_mem_intersect {s : SharedColumn} (h : s ∈ intersect left right) :
    left[s.left]? = some s.col ∧ right[s.right]? = some s.col := by
  obtain ⟨k, l, hk, hl, hleft, hright⟩ := getElem?_of_mem_intersectFrom h
  rw [Nat.zero_add] at hk hl
  exact ⟨hk ▸ hleft, hl ▸ hright⟩

theorem eq_of_getElem?_of_ascending {xs : List Nat} (hasc : xs.Pairwise (· < ·)) {k l x : Nat}
    (hk : xs[k]? = some x) (hl : xs[l]? = some x) : k = l :=
  (List.getElem?_inj (List.getElem?_eq_some_iff.1 hk).1 (hasc.imp Nat.ne_of_lt)).1
    (hk.trans hl.symm)

/-- Of ascending rows just the columns that both have are reported, each with its indices. -/
theorem mem_intersect_iff (hleft : left.Pairwise (· < ·)) (hright : right.Pairwise (· < ·))
    {s : SharedColumn} :
    s ∈ intersect left right ↔ left[s.left]? = some s.col ∧ right[s.right]? = some s.col := by
  refine ⟨getElem?_of_mem_intersect, fun ⟨hl, hr⟩ => ?_⟩
  have hcol : s.col ∈ (intersect left right).map SharedColumn.col := by
    rw [intersect, map_col_intersectFrom hleft hright, List.mem_filter]
    exact ⟨List.mem_of_getElem? hl, by simpa using List.mem_of_getElem? hr⟩
  obtain ⟨t, ht, heq⟩ := List.mem_map.1 hcol
  obtain ⟨htl, htr⟩ := getElem?_of_mem_intersect ht
  -- the column that is reported has the same indices, as it has no others
  have hsame : s = t := by
    obtain ⟨col, i, j⟩ := s
    obtain ⟨col', i', j'⟩ := t
    obtain rfl : col' = col := heq
    obtain rfl : i = i' := eq_of_getElem?_of_ascending hleft hl htl
    obtain rfl : j = j' := eq_of_getElem?_of_ascending hright hr htr
    rfl
  exact hsame ▸ ht

/-- **The walk over two rows.** Whatever the rows, the walk ends: calls report `intersect left right`,
    any number of calls a beginning of it, and then nothing more. Each column that is reported stands at
    the reported indices, and these ascend along the walk. If both rows are ascending, the columns that
    both have are reported, ascending, each once and with its indices. -/
theorem Walk.yields_intersect (left right : List Nat) :
    (∃ w w', (start left right).Yields (intersect left right) w ∧ w.next = (none, w') ∧
      w'.next = (none, w')) ∧
    (∀ ss w, (start left right).Yields ss w → ss <+: intersect left right) ∧
    (∀ s ∈ intersect left right, left[s.left]? = some s.col ∧ right[s.right]? = some s.col) ∧
    (intersect left right).Pairwise (fun s t => s.left < t.left ∧ s.right < t.right) ∧
    (left.Pairwise (· < ·) → right.Pairwise (· < ·) →
      (intersect left right).map SharedColumn.col = left.filter (· ∈ right) ∧
      (intersect left right).Pairwise (fun s t => s.col < t.col) ∧
      ∀ s : SharedColumn, s ∈ intersect left right ↔
        left[s.left]? = some s.col ∧ right[s.right]? = some s.col) := by
  refine ⟨?_, fun ss w hyields => ?_, fun s => getElem?_of_mem_intersect,
    pairwise_intersectFrom left right 0 0, fun hleft hright => ?_⟩
  · rw [← rest_start]
    exact (start left right).exists_yields_rest
  · rw [← rest_start]
    exact ⟨w.rest, hyields.rest_eq.symm⟩
  · have hcols := map_col_intersectFrom hleft hright 0 0
    have hasc : ((intersect left right).map SharedColumn.col).Pairwise (· < ·) :=
      hcols ▸ hleft.filter _
    exact ⟨hcols, List.pairwise_map.1 hasc, fun s => mem_intersect_iff hleft hright⟩

/-- Two ascending rows, and the three columns that both have. -/
theorem Walk.ascendingRows_yield :
    let left := [0, 2, 3, 7, 9]
    let right := [1, 2, 7, 8, 9, 10]
    left.Pairwise (· < ·) ∧ right.Pairwise (· < ·) ∧
      (intersect left right).map SharedColumn.col = [2, 7, 9] ∧ ⟨7, 3, 2⟩ ∈ intersect left right := by
  intro left right
  have hleft : left.Pairwise (· < ·) := by decide
  have hright : right.Pairwise (· < ·) := by decide
  obtain ⟨_, _, _, _, hascending⟩ := yields_intersect left right
  obtain ⟨hcols, _, hmem⟩ := hascending hleft hright
  exact ⟨hleft, hright, hcols.trans (by decide), (hmem ⟨7, 3, 2⟩).2 ⟨rfl, rfl⟩⟩

end GraphTensor
