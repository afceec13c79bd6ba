import GraphTensor.Proofs.Pattern.Coordinates
import Mathlib.Data.List.Perm.Subperm
set_option autoImplicit false

/-! # Positions and places

The entries of a pattern come in the order of their places, row by row. So the coordinates of a
pattern tell the positions of its entries (`Pattern.Valid.getElem?_coordinates`), and in a pattern
that stores every place of its matrix the positions are the row-major places
(`Pattern.Valid.mem_entries_of_full`).

The second is a count from both ends: no entry comes before its row-major place would, and after an
entry there are at most as many entries as places. It is why a dense buffer can be taken as a matrix
over the full pattern without moving a number. -/

namespace GraphTensor

namespace Pattern

variable {p q : Pattern} {row col position : Nat}

theorem Valid.exists_entry (h : p.Valid) (hposition : position < p.stored) :
    ∃ row col, (row, col, position) ∈ p.entries := by
  have hmem : position ∈ p.entries.map fun entry => entry.2.2 := by
    rw [h.positions_entries]
    exact List.mem_range.2 hposition
  obtain ⟨⟨row, col, _⟩, hentry, rfl⟩ := List.mem_map.1 hmem
  exact ⟨row, col, hentry⟩

/-- The coordinates list the entries by position. -/
theorem Valid.getElem?_coordinates (h : p.Valid) :
    p.coordinates[position]? = some (row, col) ↔ (row, col, position) ∈ p.entries := by
  have hposition : ∀ entry, p.entries[position]? = some entry → entry.2.2 = position := by
    intro entry hentry
    have hget : (p.entries.map fun entry => entry.2.2)[position]? = some entry.2.2 := by
      rw [List.getElem?_map, hentry]
      rfl
    rw [h.positions_entries] at hget
    obtain ⟨hlt, hget⟩ := List.getElem?_eq_some_iff.1 hget
    rw [← hget, List.getElem_range]
  rw [coordinates, List.getElem?_map, Option.map_eq_some_iff]
  constructor
  · rintro ⟨⟨i, j, k⟩, hentry, heq⟩
    obtain ⟨rfl, rfl⟩ := Prod.mk.inj heq
    obtain rfl : k = position := hposition _ hentry
    exact List.mem_of_getElem? hentry
  · intro hentry
    obtain ⟨k, hk⟩ := List.mem_iff_getElem?.1 hentry
    have hget : (p.entries.map fun entry => entry.2.2)[k]? = some position := by
      rw [List.getElem?_map, hk]
      rfl
    rw [h.positions_entries] at hget
    obtain ⟨_, hget⟩ := List.getElem?_eq_some_iff.1 hget
    rw [List.getElem_range] at hget
    exact ⟨_, hget ▸ hk, rfl⟩

theorem Valid.mem_entries_congr (hp : p.Valid) (hq : q.Valid)
    (h : p.coordinates = q.coordinates) :
    (row, col, position) ∈ p.entries ↔ (row, col, position) ∈ q.entries := by
  rw [← hp.getElem?_coordinates, ← hq.getElem?_coordinates, h]

theorem Valid.precedes_of_position_lt (h : p.Valid) {row' col' position' : Nat}
    (hentry : (row, col, position) ∈ p.entries) (hentry' : (row', col', position') ∈ p.entries)
    (hlt : position < position') : precedes (row, col) (row', col') = true := by
  obtain ⟨hrow, hstart, _, hget⟩ := mem_entries_iff.1 hentry
  obtain ⟨_, _, hstop', hget'⟩ := mem_entries_iff.1 hentry'
  rw [precedes_iff]
  rcases Nat.lt_trichotomy row row' with hless | rfl | hmore
  · exact Or.inl hless
  · exact Or.inr ⟨rfl, h.lt_of_positions hrow hstart hlt hstop' hget hget'⟩
  · -- the later row would begin after the earlier position
    have hle : p.start (row' + 1) ≤ p.start row := h.start_le_start hmore hrow.le
    rw [stop_eq_start_succ] at hstop'
    omega

theorem Valid.ascending_coordinates (h : p.Valid) : Ascending p.coordinates := by
  refine List.pairwise_iff_getElem.2 fun k l hk hl hlt => ?_
  refine h.precedes_of_position_lt (h.getElem?_coordinates.1 ?_) (h.getElem?_coordinates.1 ?_) hlt
  · exact List.getElem?_eq_getElem hk
  · exact List.getElem?_eq_getElem hl

theorem Valid.nodup_coordinates (h : p.Valid) : p.coordinates.Nodup := by
  refine h.ascending_coordinates.imp fun hlt heq => ?_
  rw [heq, precedes_iff] at hlt
  omega

theorem Valid.length_coordinates (h : p.Valid) : p.coordinates.length = p.stored := by
  have hlength := congrArg List.length h.positions_entries
  rw [List.length_map, List.length_range] at hlength
  rwa [coordinates, List.length_map]

/-- Of two patterns with equally many entries, one that lies in the other stores the same places. -/
theorem Valid.coordinates_eq_of_subset (hp : p.Valid) (hq : q.Valid) (hstored : p.stored = q.stored)
    (hsub : p.coordinates ⊆ q.coordinates) : p.coordinates = q.coordinates := by
  have hlength : q.coordinates.length ≤ p.coordinates.length := by
    rw [hp.length_coordinates, hq.length_coordinates, hstored]
  have hperm : p.coordinates.Perm q.coordinates :=
    (hp.nodup_coordinates.subperm hsub).perm_of_length_le hlength
  refine List.Perm.eq_of_pairwise (fun place place' _ _ h h' => ?_) hp.ascending_coordinates
    hq.ascending_coordinates hperm
  rw [precedes_iff] at h h'
  omega

/-! ## Patterns that store every place -/

/-- The row-major places of entries ascend with their positions. -/
theorem Valid.place_lt_place (h : p.Valid) {row' col' position' : Nat}
    (hentry : (row, col, position) ∈ p.entries) (hentry' : (row', col', position') ∈ p.entries)
    (hlt : position < position') : row * p.cols + col < row' * p.cols + col' := by
  have hcol := h.col_lt hentry
  rcases precedes_iff.1 (h.precedes_of_position_lt hentry hentry' hlt) with hrow | ⟨hrow, hcols⟩
  · have hrow : row < row' := hrow
    have := Nat.mul_le_mul_right p.cols (Nat.succ_le_of_lt hrow)
    rw [Nat.succ_mul] at this
    omega
  · have hrow : row = row' := hrow
    have hcols : col < col' := hcols
    subst hrow
    omega

/-- No entry comes before its row-major place would. -/
theorem Valid.position_le_place (h : p.Valid) (hentry : (row, col, position) ∈ p.entries) :
    position ≤ row * p.cols + col := by
  induction position generalizing row col with
  | zero => exact Nat.zero_le _
  | succ position ih =>
      have hlt : position < p.stored := Nat.lt_of_succ_lt (h.position_lt_stored hentry)
      obtain ⟨row', col', hentry'⟩ := h.exists_entry hlt
      exact (ih hentry').trans_lt (h.place_lt_place hentry' hentry (Nat.lt_succ_self _))

/-- As many entries come after an entry as there are places after its own, at the most. -/
theorem Valid.place_add_le (h : p.Valid) (hentry : (row, col, position) ∈ p.entries) :
    row * p.cols + col + (p.stored - position) ≤ p.rows * p.cols := by
  induction hn : p.stored - position generalizing row col position with
  | zero =>
      have := h.position_lt_stored hentry
      omega
  | succ n ih =>
      by_cases hlast : position + 1 < p.stored
      · obtain ⟨row', col', hentry'⟩ := h.exists_entry hlast
        have := h.place_lt_place hentry hentry' (Nat.lt_succ_self _)
        have := ih hentry' (by omega)
        omega
      · have hcol := h.col_lt hentry
        have := Nat.mul_le_mul_right p.cols (Nat.succ_le_of_lt (row_lt hentry))
        rw [Nat.succ_mul] at this
        omega

/-- **Full patterns.** In a pattern with as many entries as its matrix has places, positions are
    row-major places. -/
theorem Valid.mem_entries_of_full (h : p.Valid) (hfull : p.stored = p.rows * p.cols)
    (hrow : row < p.rows) (hcol : col < p.cols) : (row, col, row * p.cols + col) ∈ p.entries := by
  have hplace : row * p.cols + col < p.stored := by
    have := Nat.mul_le_mul_right p.cols (Nat.succ_le_of_lt hrow)
    rw [Nat.succ_mul] at this
    omega
  obtain ⟨row', col', hentry⟩ := h.exists_entry hplace
  have hle := h.position_le_place hentry
  have hadd := h.place_add_le hentry
  have hcol' := h.col_lt hentry
  have hsame : row' * p.cols + col' = row * p.cols + col := by omega
  have hpos : 0 < p.cols := Nat.zero_lt_of_lt hcol
  have hrows : row' = row := by
    have := congrArg (· / p.cols) hsame
    simpa only [Nat.mul_comm _ p.cols, Nat.mul_add_div hpos, Nat.div_eq_of_lt hcol,
      Nat.div_eq_of_lt hcol', Nat.add_zero] using this
  subst hrows
  obtain rfl : col' = col := Nat.add_left_cancel hsame
  exact hentry

end Pattern

end GraphTensor
