import GraphTensor.Pattern.Search
import Mathlib.Data.List.Basic
import Mathlib.Data.Nat.Basic
import Mathlib.Order.Basic
set_option autoImplicit false

/-! # The rows of a valid pattern

In the compressed-row form (`Pattern.Valid`) the rows cut the stored columns into consecutive
stretches. So every position belongs to one row, the entries come in the order of their positions
(`Pattern.Valid.positions_entries`), and a search, however it goes about it, finds the position of a
place just if the place is stored (`Pattern.Valid.locate_eq_some_iff`).

Both searches are followed on any ascending list of numbers first (`bisect_eq_some_iff`,
`scan_eq_some_iff`), by induction along their own recursion, and carried over to the stretch of a
row after that. -/

namespace GraphTensor

/-- The compressed-row form: rows follow on one another and fill the array of columns, and the
    columns of a row are ascending and lie inside the matrix. -/
structure Pattern.Valid (p : Pattern) : Prop where
  /-- The first row begins at the first position. -/
  start_zero : p.start 0 = 0
  /-- The last row ends after the last position. -/
  start_rows : p.start p.rows = p.stored
  /-- No row ends before it begins. -/
  start_le_stop : ∀ row < p.rows, p.start row ≤ p.stop row
  /-- The columns of a row are ascending. -/
  ascending : ∀ row < p.rows, (p.row row).Pairwise (· < ·)
  /-- The columns lie inside the matrix. -/
  bounded : ∀ row < p.rows, ∀ col ∈ p.row row, col < p.cols

namespace Pattern

variable {p : Pattern} {row col position : Nat}

/-! ## Stretches of positions -/

theorem stop_eq_start_succ (p : Pattern) (row : Nat) : p.stop row = p.start (row + 1) :=
  rfl

theorem Valid.start_le_start (h : p.Valid) {a b : Nat} (hab : a ≤ b) (hb : b ≤ p.rows) :
    p.start a ≤ p.start b := by
  induction b, hab using Nat.le_induction with
  | base => exact le_rfl
  | succ b _ ih => exact (ih (by omega)).trans (h.start_le_stop b (by omega))

theorem Valid.stop_le_stored (h : p.Valid) (hrow : row < p.rows) : p.stop row ≤ p.stored := by
  rw [← h.start_rows, stop_eq_start_succ]
  exact h.start_le_start hrow le_rfl

theorem getElem?_row (p : Pattern) (row k : Nat) :
    (p.row row)[k]? =
      if k < p.stop row - p.start row then p.indices[p.start row + k]? else none := by
  simp only [Pattern.row, Array.toList_extract, List.extract_eq_take_drop, List.getElem?_take,
    List.getElem?_drop, Array.getElem?_toList]

theorem Valid.length_row (h : p.Valid) (hrow : row < p.rows) :
    (p.row row).length = p.stop row - p.start row := by
  have hstop := h.stop_le_stored hrow
  simp only [Pattern.row, Array.length_toList, Array.size_extract, stored] at hstop ⊢
  omega

theorem mem_row_iff :
    col ∈ p.row row ↔
      ∃ k, p.start row ≤ k ∧ k < p.stop row ∧ p.indices[k]? = some col := by
  rw [List.mem_iff_getElem?]
  constructor
  · rintro ⟨k, hk⟩
    rw [getElem?_row] at hk
    split at hk
    · exact ⟨p.start row + k, by omega, by omega, hk⟩
    · cases hk
  · rintro ⟨k, hle, hlt, hk⟩
    refine ⟨k - p.start row, ?_⟩
    rw [getElem?_row, if_pos (by omega), Nat.add_sub_cancel' hle, hk]

/-- Columns ascend along the positions of a row. -/
theorem Valid.lt_of_positions (h : p.Valid) (hrow : row < p.rows) {k l a b : Nat}
    (hk : p.start row ≤ k) (hkl : k < l) (hl : l < p.stop row) (ha : p.indices[k]? = some a)
    (hb : p.indices[l]? = some b) : a < b := by
  have hasc := h.ascending row hrow
  rw [List.pairwise_iff_getElem] at hasc
  have hlen := h.length_row hrow
  have hka : (p.row row)[k - p.start row]? = some a := by
    rw [getElem?_row, if_pos (by omega), Nat.add_sub_cancel' hk, ha]
  have hlb : (p.row row)[l - p.start row]? = some b := by
    rw [getElem?_row, if_pos (by omega), Nat.add_sub_cancel' (by omega), hb]
  obtain ⟨hk', rfl⟩ := List.getElem?_eq_some_iff.1 hka
  obtain ⟨hl', rfl⟩ := List.getElem?_eq_some_iff.1 hlb
  exact hasc _ _ hk' hl' (by omega)

/-! ## Entries -/

theorem mem_rowEntries_iff {entry : Nat × Nat × Nat} :
    entry ∈ p.rowEntries row ↔
      entry.1 = row ∧ p.start row ≤ entry.2.2 ∧ entry.2.2 < p.stop row ∧
        p.indices[entry.2.2]? = some entry.2.1 := by
  obtain ⟨i, j, k⟩ := entry
  simp only [rowEntries, List.mem_map, Prod.exists, Prod.mk.injEq,
    List.mk_mem_zipIdx_iff_le_and_getElem?_sub]
  constructor
  · rintro ⟨j', k', ⟨hle, hget⟩, rfl, rfl, rfl⟩
    rw [getElem?_row] at hget
    split at hget
    · rw [Nat.add_sub_cancel' hle] at hget
      exact ⟨rfl, hle, by omega, hget⟩
    · cases hget
  · rintro ⟨rfl, hle, hlt, hget⟩
    refine ⟨j, k, ⟨hle, ?_⟩, rfl, rfl, rfl⟩
    rw [getElem?_row, if_pos (by omega), Nat.add_sub_cancel' hle, hget]

theorem mem_entries_iff :
    (row, col, position) ∈ p.entries ↔
      row < p.rows ∧ p.start row ≤ position ∧ position < p.stop row ∧
        p.indices[position]? = some col := by
  simp only [entries, List.mem_flatMap, List.mem_range, mem_rowEntries_iff]
  constructor
  · rintro ⟨i, hi, rfl, h⟩
    exact ⟨hi, h⟩
  · rintro ⟨hrow, h⟩
    exact ⟨row, hrow, rfl, h⟩

/-- The positions of a row's entries are those of its stretch, in order. -/
theorem Valid.positions_rowEntries (h : p.Valid) (hrow : row < p.rows) :
    (p.rowEntries row).map (fun entry => entry.2.2) =
      List.range' (p.start row) (p.stop row - p.start row) := by
  rw [rowEntries, List.map_map]
  show ((p.row row).zipIdx (p.start row)).map Prod.snd = _
  rw [List.zipIdx_map_snd, h.length_row hrow]

/-- **Entries by position.** The entries come in the order of their positions, each position
    once. -/
theorem Valid.positions_entries (h : p.Valid) :
    p.entries.map (fun entry => entry.2.2) = List.range p.stored := by
  have hprefix : ∀ n ≤ p.rows,
      ((List.range n).flatMap p.rowEntries).map (fun entry => entry.2.2) =
        List.range (p.start n) := by
    intro n hn
    induction n with
    | zero => simp [h.start_zero]
    | succ n ih =>
        have hle := h.start_le_stop n (by omega)
        rw [List.range_succ, List.flatMap_append, List.map_append, ih (by omega)]
        simp only [List.flatMap_cons, List.flatMap_nil, List.append_nil]
        have happend := List.range'_append_1 (s := 0) (m := p.start n) (n := p.stop n - p.start n)
        rw [Nat.zero_add, Nat.add_sub_cancel' hle] at happend
        rw [h.positions_rowEntries (by omega), List.range_eq_range', List.range_eq_range', happend,
          stop_eq_start_succ]
  rw [entries, hprefix p.rows le_rfl, h.start_rows]

theorem Valid.place_of_position (h : p.Valid) {row' col' : Nat}
    (hentry : (row, col, position) ∈ p.entries) (hentry' : (row', col', position) ∈ p.entries) :
    row = row' ∧ col = col' := by
  obtain ⟨hrow, hle, hlt, hcol⟩ := mem_entries_iff.1 hentry
  obtain ⟨hrow', hle', hlt', hcol'⟩ := mem_entries_iff.1 hentry'
  rw [stop_eq_start_succ] at hlt hlt'
  have hsame : row = row' := by
    by_contra hne
    rcases Nat.lt_or_gt_of_ne hne with hlt'' | hlt''
    · have := h.start_le_start (Nat.succ_le_of_lt hlt'') hrow'.le
      rw [Nat.succ_eq_add_one] at this
      omega
    · have := h.start_le_start (Nat.succ_le_of_lt hlt'') hrow.le
      rw [Nat.succ_eq_add_one] at this
      omega
  exact ⟨hsame, Option.some.inj (hcol.symm.trans hcol')⟩

theorem Valid.position_of_place (h : p.Valid) {position' : Nat}
    (hentry : (row, col, position) ∈ p.entries) (hentry' : (row, col, position') ∈ p.entries) :
    position = position' := by
  obtain ⟨hrow, hle, hlt, hcol⟩ := mem_entries_iff.1 hentry
  obtain ⟨_, hle', hlt', hcol'⟩ := mem_entries_iff.1 hentry'
  by_contra hne
  rcases Nat.lt_or_gt_of_ne hne with hlt'' | hlt''
  · exact absurd (h.lt_of_positions hrow hle hlt'' hlt' hcol hcol') (lt_irrefl _)
  · exact absurd (h.lt_of_positions hrow hle' hlt'' hlt hcol' hcol) (lt_irrefl _)

theorem Valid.position_lt_stored (h : p.Valid) (hentry : (row, col, position) ∈ p.entries) :
    position < p.stored := by
  obtain ⟨hrow, _, hlt, _⟩ := mem_entries_iff.1 hentry
  exact hlt.trans_le (h.stop_le_stored hrow)

theorem Valid.col_lt (h : p.Valid) (hentry : (row, col, position) ∈ p.entries) : col < p.cols := by
  obtain ⟨hrow, hle, hlt, hcol⟩ := mem_entries_iff.1 hentry
  exact h.bounded row hrow col (mem_row_iff.2 ⟨position, hle, hlt, hcol⟩)

theorem row_lt (hentry : (row, col, position) ∈ p.entries) : row < p.rows :=
  (mem_entries_iff.1 hentry).1

theorem mem_entries_of_getElem?_row (hrow : row < p.rows) {k : Nat}
    (h : (p.row row)[k]? = some col) : (row, col, p.start row + k) ∈ p.entries := by
  rw [getElem?_row] at h
  split at h
  · exact mem_entries_iff.2 ⟨hrow, Nat.le_add_right .., by omega, h⟩
  · cases h

theorem mem_row_iff_entries (hrow : row < p.rows) :
    col ∈ p.row row ↔ ∃ k, (row, col, k) ∈ p.entries := by
  rw [mem_row_iff]
  constructor
  · rintro ⟨k, hk⟩
    exact ⟨k, mem_entries_iff.2 ⟨hrow, hk⟩⟩
  · rintro ⟨k, hk⟩
    exact ⟨k, (mem_entries_iff.1 hk).2⟩

end Pattern

/-! ## Searches -/

theorem lt_of_ascending {xs : Array Nat} {lo hi i j a b : Nat}
    (hasc : ∀ i j a b, lo ≤ i → i < j → j < hi → xs[i]? = some a → xs[j]? = some b → a < b)
    (hi' : i < hi) (hj : lo ≤ j) (ha : xs[i]? = some a) (hb : xs[j]? = some b) (hab : a < b) :
    i < j := by
  by_contra hij
  rcases Nat.lt_or_eq_of_le (Nat.le_of_not_lt hij) with hlt | rfl
  · exact absurd (hasc j i b a hj hlt hi' hb ha) (Nat.lt_asymm hab)
  · exact absurd (Option.some.inj (ha.symm.trans hb)) (Nat.ne_of_lt hab)

/-- Halving finds just the place of the number sought, among ascending numbers. -/
theorem bisect_eq_some_iff {xs : Array Nat} {target lo hi k : Nat} (hsize : hi ≤ xs.size)
    (hasc : ∀ i j a b, lo ≤ i → i < j → j < hi → xs[i]? = some a → xs[j]? = some b → a < b) :
    bisect xs target lo hi = some k ↔ lo ≤ k ∧ k < hi ∧ xs[k]? = some target := by
  induction hn : hi - lo using Nat.strong_induction_on generalizing lo hi with
  | _ n ih =>
      rw [bisect]
      split
      · next hlt =>
          generalize hm : lo + (hi - lo) / 2 = middle
          have hmid : middle < xs.size := by omega
          have hx : xs[middle]? = some xs[middle] := Array.getElem?_eq_getElem hmid
          simp only [hx]
          rcases Nat.lt_trichotomy xs[middle] target with hless | heq | hmore
          · -- the number sought comes after the middle
            rw [if_neg hless.ne, if_pos hless, ih (hi - (middle + 1)) (by omega) hsize
              (fun i j a b hi' => hasc i j a b (by omega)) rfl]
            refine ⟨fun ⟨hle, hlt', hk⟩ => ⟨by omega, hlt', hk⟩, fun ⟨hle, hlt', hk⟩ => ?_⟩
            exact ⟨lt_of_ascending hasc (by omega) hle hx hk hless, hlt', hk⟩
          · rw [if_pos heq]
            constructor
            · rintro ⟨⟩
              exact ⟨by omega, by omega, by rw [hx, heq]⟩
            · rintro ⟨hle, hlt', hk⟩
              rcases Nat.lt_trichotomy middle k with hmk | rfl | hmk
              · exact absurd (hasc middle k _ _ (by omega) hmk hlt' hx hk) heq.not_lt
              · rfl
              · exact absurd (hasc k middle _ _ hle hmk (by omega) hk hx) heq.not_gt
          · -- it comes before the middle
            rw [if_neg hmore.ne', if_neg hmore.not_gt, ih (middle - lo) (by omega) (by omega)
              (fun i j a b hi' hij hj => hasc i j a b hi' hij (by omega)) rfl]
            refine ⟨fun ⟨hle, hlt', hk⟩ => ⟨hle, by omega, hk⟩, fun ⟨hle, hlt', hk⟩ => ?_⟩
            exact ⟨hle, lt_of_ascending hasc hlt' (by omega) hk hx hmore, hk⟩
      · next hge =>
          constructor
          · intro h
            cases h
          · rintro ⟨hle, hlt, _⟩
            omega

/-- A scan finds just the place of the number sought, among ascending numbers. -/
theorem scan_eq_some_iff {target : Nat} {xs : List Nat} {place k : Nat}
    (hasc : xs.Pairwise (· < ·)) :
    scan target xs place = some k ↔ place ≤ k ∧ xs[k - place]? = some target := by
  induction xs generalizing place with
  | nil => simp [scan]
  | cons x rest ih =>
      obtain ⟨hx, hrest⟩ := List.pairwise_cons.1 hasc
      rw [scan]
      by_cases hless : x < target
      · rw [if_pos hless, ih hrest]
        constructor
        · rintro ⟨hle, hget⟩
          refine ⟨by omega, ?_⟩
          rw [show k - place = (k - (place + 1)) + 1 by omega, List.getElem?_cons_succ, hget]
        · rintro ⟨hle, hget⟩
          cases hk : k - place with
          | zero =>
              rw [hk, List.getElem?_cons_zero] at hget
              injection hget with hget
              omega
          | succ n =>
              rw [hk, List.getElem?_cons_succ] at hget
              exact ⟨by omega, by rw [show k - (place + 1) = n by omega, hget]⟩
      · rw [if_neg hless]
        by_cases heq : x = target
        · rw [if_pos heq]
          constructor
          · rintro ⟨⟩
            simp [heq]
          · rintro ⟨hle, hget⟩
            cases hk : k - place with
            | zero => rw [show k = place by omega]
            | succ n =>
                rw [hk, List.getElem?_cons_succ] at hget
                have := hx target (List.mem_of_getElem? hget)
                omega
        · rw [if_neg heq]
          constructor
          · intro h
            cases h
          · rintro ⟨_, hget⟩
            exfalso
            cases hk : k - place with
            | zero =>
                rw [hk, List.getElem?_cons_zero] at hget
                exact heq (Option.some.inj hget)
            | succ n =>
                rw [hk, List.getElem?_cons_succ] at hget
                have := hx target (List.mem_of_getElem? hget)
                omega

namespace Pattern

variable {p : Pattern} {row col position : Nat}

/-- **Searches.** Either search finds a place just if it is stored, and then its position. -/
theorem Valid.locate_eq_some_iff (h : p.Valid) (search : Search) :
    p.locate search row col = some position ↔ (row, col, position) ∈ p.entries := by
  rw [mem_entries_iff, locate.eq_def]
  by_cases hrow : row < p.rows
  · rw [if_pos hrow]
    cases search with
    | binary =>
        simp only [hrow, true_and]
        refine bisect_eq_some_iff (h.stop_le_stored hrow) ?_
        intro i j a b hi hij hj ha hb
        exact h.lt_of_positions hrow hi hij hj ha hb
    | linear =>
        simp only [hrow, true_and]
        rw [scan_eq_some_iff (h.ascending row hrow)]
        constructor
        · rintro ⟨hle, hget⟩
          rw [getElem?_row] at hget
          split at hget
          · rw [Nat.add_sub_cancel' hle] at hget
            exact ⟨hle, by omega, hget⟩
          · cases hget
        · rintro ⟨hle, hlt, hget⟩
          refine ⟨hle, ?_⟩
          rw [getElem?_row, if_pos (by omega), Nat.add_sub_cancel' hle, hget]
  · simp [hrow]

/-- A search misses just the places that are not stored. -/
theorem Valid.locate_eq_none_iff (h : p.Valid) (search : Search) :
    p.locate search row col = none ↔ (row, col) ∉ p.coordinates := by
  simp only [coordinates, List.mem_map, Prod.exists, Prod.mk.injEq, not_exists, not_and]
  constructor
  · rintro hnone i j k hentry rfl rfl
    rw [(h.locate_eq_some_iff search).2 hentry] at hnone
    cases hnone
  · intro hall
    cases hloc : p.locate search row col with
    | none => rfl
    | some k => exact absurd rfl (hall row col k ((h.locate_eq_some_iff search).1 hloc) rfl)

/-- Whether and where an entry is found does not depend on the search. -/
theorem Valid.locate_eq (h : p.Valid) (search search' : Search) :
    p.locate search row col = p.locate search' row col := by
  cases hfound : p.locate search' row col with
  | some position =>
      exact (h.locate_eq_some_iff search).2 ((h.locate_eq_some_iff search').1 hfound)
  | none => exact (h.locate_eq_none_iff search).2 ((h.locate_eq_none_iff search').1 hfound)

end Pattern

end GraphTensor
