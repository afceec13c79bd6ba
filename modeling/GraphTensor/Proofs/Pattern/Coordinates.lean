import GraphTensor.Proofs.Pattern.Reading
import GraphTensor.Proofs.Word
import Mathlib.Data.List.Nodup
set_option autoImplicit false

/-! # Patterns from coordinates

A pattern that is built from coordinates (`Pattern.ofCoordinates?`) is valid and stores just these
coordinates, in whatever order and however often they come. So are the diagonal of a set and a
transposed pattern.

The sweep over ascending coordinates begins each row where the coordinates of smaller rows end,
whether the row is passed on the way to a coordinate, is the row of one, or comes after the last.
`Pattern.Sweep.Holds` says this of a sweep that has come to some row, and is what one coordinate and
then a whole fold keep. `Pattern.ofAscending` says it of all rows at once, without a sweep, and
`Pattern.ofCoordinates?_eq_some_iff` that the sweep ends in it; that it is valid and stores the
right places is then proved of the closed form.

Coordinates are sorted by insertion (`Pattern.sortCoordinates`), of which only the members and the
strict order (`Pattern.Ascending`) matter. -/

namespace GraphTensor

/-! ## Prefixes of ascending lists -/

section

variable {β : Type} {q : β → Bool} {xs : List β}

/-- Where a test is passed by all before whatever passes it, what passes it is a prefix. -/
theorem take_countP (h : xs.Pairwise fun a b => q b = true → q a = true) :
    xs.take (xs.countP q) = xs.filter q := by
  induction xs with
  | nil => rfl
  | cons x rest ih =>
      obtain ⟨hx, hrest⟩ := List.pairwise_cons.1 h
      by_cases hq : q x = true
      · rw [List.countP_cons_of_pos hq, List.take_succ_cons, List.filter_cons_of_pos hq, ih hrest]
      · have hnone : ∀ y ∈ rest, ¬ q y = true := fun y hy hqy => hq (hx y hy hqy)
        rw [List.countP_cons_of_neg hq, List.filter_cons_of_neg hq, List.countP_eq_zero.2 hnone,
          List.filter_eq_nil_iff.2 hnone, List.take_zero]

/-- Where a test is passed by all before whatever passes it, what fails it is a suffix. -/
theorem drop_countP (h : xs.Pairwise fun a b => q b = true → q a = true) :
    xs.drop (xs.countP q) = xs.filter fun x => !q x := by
  induction xs with
  | nil => rfl
  | cons x rest ih =>
      obtain ⟨hx, hrest⟩ := List.pairwise_cons.1 h
      by_cases hq : q x = true
      · rw [List.countP_cons_of_pos hq, List.drop_succ_cons, List.filter_cons_of_neg (by simp [hq]),
          ih hrest]
      · have hnone : ∀ y ∈ rest, ¬ q y = true := fun y hy hqy => hq (hx y hy hqy)
        have hall : (x :: rest).filter (fun y => !q y) = x :: rest := by
          rw [List.filter_eq_self]
          intro y hy
          rcases List.mem_cons.1 hy with rfl | hy
          · simpa using hq
          · simpa using hnone y hy
        rw [List.countP_cons_of_neg hq, List.countP_eq_zero.2 hnone, List.drop_zero, hall]

end

namespace Pattern

variable {rows cols : Nat} {cs : List (Nat × Nat)}

theorem mem_coordinates_iff {p : Pattern} {i j : Nat} :
    (i, j) ∈ p.coordinates ↔ ∃ k, (i, j, k) ∈ p.entries := by
  simp only [coordinates, List.mem_map, Prod.exists, Prod.mk.injEq]
  constructor
  · rintro ⟨i, j, k, hk, rfl, rfl⟩
    exact ⟨k, hk⟩
  · rintro ⟨k, hk⟩
    exact ⟨i, j, k, hk, rfl, rfl⟩

/-- A search finds a place just if it is stored. -/
theorem Valid.isSome_locate_iff {p : Pattern} (h : p.Valid) (search : Search) {i j : Nat} :
    (p.locate search i j).isSome = true ↔ (i, j) ∈ p.coordinates := by
  rw [Option.isSome_iff_exists, mem_coordinates_iff]
  simp only [h.locate_eq_some_iff]

theorem Valid.nodup_entries {p : Pattern} (h : p.Valid) : p.entries.Nodup := by
  refine List.Nodup.of_map (fun entry => entry.2.2) ?_
  rw [h.positions_entries]
  exact List.nodup_range

/-! ## Sorting coordinates -/

theorem precedes_iff {a b : Nat × Nat} :
    precedes a b = true ↔ a.1 < b.1 ∨ a.1 = b.1 ∧ a.2 < b.2 := by
  simp [precedes]

theorem precedes_trans {a b c : Nat × Nat} (hab : precedes a b = true) (hbc : precedes b c = true) :
    precedes a c = true := by
  rw [precedes_iff] at *
  omega

theorem precedes_of_not {a b : Nat × Nat} (hne : a ≠ b) (h : ¬ precedes a b = true) :
    precedes b a = true := by
  rw [precedes_iff] at *
  have : ¬ (a.1 = b.1 ∧ a.2 = b.2) := fun heq => hne (Prod.ext heq.1 heq.2)
  omega

theorem mem_insertCoordinate {c d : Nat × Nat} : d ∈ insertCoordinate c cs ↔ d = c ∨ d ∈ cs := by
  induction cs with
  | nil => simp [insertCoordinate]
  | cons e rest ih =>
      rw [insertCoordinate]
      split
      · next heq =>
          subst heq
          simp
      · split
        · simp
        · rw [List.mem_cons, ih, List.mem_cons]
          exact or_left_comm

theorem mem_sortCoordinates {c : Nat × Nat} : c ∈ sortCoordinates cs ↔ c ∈ cs := by
  induction cs with
  | nil => simp [sortCoordinates]
  | cons d rest ih =>
      rw [sortCoordinates, List.foldr_cons, mem_insertCoordinate, List.mem_cons]
      exact or_congr_right ih

/-- A list of coordinates is strictly ascending. -/
def Ascending (cs : List (Nat × Nat)) : Prop :=
  cs.Pairwise fun a b => precedes a b = true

theorem Ascending.insertCoordinate {c : Nat × Nat} (h : Ascending cs) :
    Ascending (insertCoordinate c cs) := by
  induction cs with
  | nil => exact List.pairwise_singleton _ _
  | cons d rest ih =>
      obtain ⟨hd, hrest⟩ := List.pairwise_cons.1 h
      rw [Pattern.insertCoordinate]
      split
      · exact h
      · next hne =>
          split
          · next hcd =>
              refine List.pairwise_cons.2 ⟨fun e he => ?_, h⟩
              rcases List.mem_cons.1 he with rfl | he
              · exact hcd
              · exact precedes_trans hcd (hd e he)
          · next hcd =>
              refine List.pairwise_cons.2 ⟨fun e he => ?_, ih hrest⟩
              rcases mem_insertCoordinate.1 he with rfl | he
              · exact precedes_of_not hne hcd
              · exact hd e he

theorem ascending_sortCoordinates (cs : List (Nat × Nat)) : Ascending (sortCoordinates cs) := by
  induction cs with
  | nil => exact List.Pairwise.nil
  | cons c rest ih => exact Ascending.insertCoordinate ih

/-! ## The pattern of ascending coordinates -/

/-- The pattern that stores the given ascending and distinct coordinates: a row begins where the
    coordinates of smaller rows have ended. -/
def ofAscending (rows cols : Nat) (cs : List (Nat × Nat)) : Pattern where
  rows := rows
  cols := cols
  offsets := (Array.range (rows + 1)).map fun row => cs.countP (·.1 < row)
  indices := (cs.map Prod.snd).toArray

theorem Ascending.before (h : Ascending cs) (n : Nat) :
    cs.Pairwise fun a b => decide (b.1 < n) = true → decide (a.1 < n) = true := by
  refine h.imp fun {a b} hab => ?_
  rw [precedes_iff] at hab
  simp only [decide_eq_true_eq]
  omega

theorem start_ofAscending {n : Nat} (hn : n ≤ rows) :
    (ofAscending rows cols cs).start n = cs.countP (·.1 < n) := by
  have hlt : n < rows + 1 := Nat.lt_succ_of_le hn
  simp [start, ofAscending, hlt]

/-- A row of the pattern of ascending coordinates has the columns of just its coordinates. -/
theorem Ascending.row_ofAscending (h : Ascending cs) {n : Nat} (hn : n < rows) :
    (ofAscending rows cols cs).row n = (cs.filter (·.1 == n)).map Prod.snd := by
  set later := cs.filter fun c => !decide (c.1 < n) with hlater
  have hdrop : cs.drop (cs.countP (·.1 < n)) = later := drop_countP (h.before n)
  have hasc : Ascending later := List.Pairwise.filter _ h
  have hcount : cs.countP (·.1 < n + 1) - cs.countP (·.1 < n) = later.countP (·.1 < n + 1) := by
    have hsplit : cs.countP (·.1 < n + 1) =
        (cs.filter (·.1 < n)).countP (·.1 < n + 1) + later.countP (·.1 < n + 1) := by
      rw [← take_countP (h.before n), ← hdrop, ← List.countP_append, List.take_append_drop]
    rw [List.countP_filter] at hsplit
    have hboth : cs.countP (fun c => decide (c.1 < n + 1) && decide (c.1 < n)) =
        cs.countP (·.1 < n) := by
      refine List.countP_congr fun c _ => ?_
      simp only [Bool.and_eq_true, decide_eq_true_eq]
      omega
    omega
  have hsame : later.filter (·.1 < n + 1) = cs.filter (·.1 == n) := by
    rw [hlater, List.filter_filter]
    refine List.filter_congr fun c _ => ?_
    rw [Bool.eq_iff_iff]
    simp only [Bool.and_eq_true, Bool.not_eq_true', decide_eq_true_eq, decide_eq_false_iff_not,
      beq_iff_eq]
    omega
  rw [Pattern.row, stop_eq_start_succ, start_ofAscending hn, start_ofAscending hn.le]
  simp only [ofAscending, List.extract_toArray, List.extract_eq_take_drop, ← List.map_drop,
    ← List.map_take]
  rw [hdrop, hcount, take_countP (hasc.before (n + 1)), hsame]

theorem Ascending.valid_ofAscending (h : Ascending cs)
    (hin : ∀ c ∈ cs, c.1 < rows ∧ c.2 < cols) : (ofAscending rows cols cs).Valid where
  start_zero := by
    rw [start_ofAscending (Nat.zero_le rows), List.countP_eq_zero]
    simp
  start_rows := by
    show (ofAscending rows cols cs).start rows = _
    rw [start_ofAscending le_rfl, List.countP_eq_length.2 fun c hc => by simpa using (hin c hc).1]
    simp [stored, ofAscending]
  start_le_stop := by
    intro n hn
    have hn : n < rows := hn
    rw [stop_eq_start_succ, start_ofAscending hn, start_ofAscending hn.le]
    refine List.countP_mono_left fun c _ hc => ?_
    simp only [decide_eq_true_eq] at hc ⊢
    omega
  ascending := by
    intro n hn
    have hn : n < rows := hn
    rw [h.row_ofAscending hn, List.pairwise_map]
    have hrow := List.Pairwise.filter (fun c => c.1 == n) h
    refine hrow.imp_of_mem fun {a b} ha hb hab => ?_
    have ha := (List.mem_filter.1 ha).2
    have hb := (List.mem_filter.1 hb).2
    simp only [beq_iff_eq] at ha hb
    rw [precedes_iff] at hab
    omega
  bounded := by
    intro n hn col hcol
    have hn : n < rows := hn
    rw [h.row_ofAscending hn, List.mem_map] at hcol
    obtain ⟨c, hc, rfl⟩ := hcol
    exact (hin c (List.mem_filter.1 hc).1).2

theorem Ascending.mem_coordinates_ofAscending (h : Ascending cs)
    (hin : ∀ c ∈ cs, c.1 < rows ∧ c.2 < cols) {i j : Nat} :
    (i, j) ∈ (ofAscending rows cols cs).coordinates ↔ (i, j) ∈ cs := by
  rw [mem_coordinates_iff]
  have hrow : ∀ hi : i < rows, j ∈ (ofAscending rows cols cs).row i ↔ (i, j) ∈ cs := by
    intro hi
    simp only [h.row_ofAscending hi, List.mem_map, List.mem_filter, beq_iff_eq, Prod.exists,
      exists_eq_right]
  constructor
  · rintro ⟨k, hk⟩
    have hi : i < rows := row_lt hk
    exact (hrow hi).1 ((mem_row_iff_entries hi).2 ⟨k, hk⟩)
  · intro hc
    have hi := (hin _ hc).1
    exact (mem_row_iff_entries hi).1 ((hrow hi).2 hc)

/-! ## The sweep -/

/-- What a sweep that has come to a row holds: the columns of the coordinates so far, and for each row
    up to this one where the coordinates of smaller rows have ended. -/
structure Sweep.Holds (s : Sweep) (cs : List (Nat × Nat)) : Prop where
  /-- No coordinate has gone further. -/
  reached : ∀ c ∈ cs, c.1 ≤ s.row
  /-- Each row begins where the coordinates of smaller rows have ended. -/
  offsets : s.offsets = (Array.range (s.row + 1)).map fun row => cs.countP (·.1 < row)
  /-- The columns stand in the order of the coordinates. -/
  indices : s.indices = (cs.map Prod.snd).toArray

namespace Sweep

variable {s : Sweep}

theorem initial_holds : initial.Holds [] where
  reached := by simp
  offsets := by
    rw [← Array.toList_inj]
    simp [initial, Array.toList_range]
  indices := rfl

theorem Holds.advance (h : s.Holds cs) (n : Nat) :
    (s.advance n).Holds cs ∧ (s.advance n).row = s.row + n := by
  induction n generalizing s with
  | zero => exact ⟨h, rfl⟩
  | succ n ih =>
      have hstep : Holds ⟨s.row + 1, s.offsets.push s.indices.size, s.indices⟩ cs := by
        refine ⟨fun c hc => (h.reached c hc).trans (Nat.le_succ _), ?_, h.indices⟩
        have hall : cs.countP (·.1 < s.row + 1) = s.indices.size := by
          have hlength : cs.countP (·.1 < s.row + 1) = cs.length :=
            List.countP_eq_length.2 fun c hc => by simpa using Nat.lt_succ_of_le (h.reached c hc)
          rw [hlength, h.indices]
          simp
        show s.offsets.push s.indices.size = _
        rw [Array.range_succ, Array.map_append, ← h.offsets, ← hall, Array.push_eq_append]
        simp only [List.map_toArray, List.map_cons, List.map_nil]
      obtain ⟨hholds, hrow⟩ := ih hstep
      exact ⟨hholds, hrow.trans (Nat.add_right_comm ..)⟩

theorem store?_isSome_iff {c : Nat × Nat} :
    (s.store? rows cols c).isSome = true ↔ c.1 < rows ∧ c.2 < cols := by
  unfold store?
  split
  · next hin => exact iff_of_true rfl hin
  · next hout => exact iff_of_false Bool.false_ne_true hout

/-- Storing a coordinate that does not lie in an earlier row brings the sweep to its row. -/
theorem Holds.store? {c : Nat × Nat} {s' : Sweep} (h : s.Holds cs) (hrow : s.row ≤ c.1)
    (hstore : s.store? rows cols c = some s') : s'.Holds (cs ++ [c]) ∧ s'.row = c.1 := by
  unfold Sweep.store? at hstore
  split at hstore
  · obtain rfl := Option.some.inj hstore
    obtain ⟨hholds, hat⟩ := h.advance (c.1 - s.row)
    rw [Nat.add_sub_cancel' hrow] at hat
    refine ⟨⟨fun d hd => ?_, ?_, ?_⟩, hat⟩
    · rcases List.mem_append.1 hd with hd | hd
      · exact hholds.reached d hd
      · rw [List.mem_singleton] at hd
        exact hd ▸ hat.ge
    · -- the new coordinate comes before none of the rows begun so far
      refine hholds.offsets.trans (Array.map_congr_left fun row hmem => ?_)
      have hle : row ≤ c.1 := by
        have := Array.mem_range.1 hmem
        omega
      have hnot : ¬ c.1 < row := Nat.not_lt.2 hle
      rw [List.countP_append, List.countP_singleton, if_neg (by simpa using hle), Nat.add_zero]
    · simp [hholds.indices]
  · cases hstore

/-- A sweep over ascending coordinates in the matrix stores them all. -/
theorem Holds.foldlM {ds : List (Nat × Nat)} (h : s.Holds cs) (hds : Ascending ds)
    (hlater : ∀ d ∈ ds, s.row ≤ d.1) (hrow : s.row ≤ rows)
    (hin : ∀ d ∈ ds, d.1 < rows ∧ d.2 < cols) :
    ∃ s', ds.foldlM (Sweep.store? rows cols) s = some s' ∧ s'.Holds (cs ++ ds) ∧ s'.row ≤ rows := by
  induction ds generalizing s cs with
  | nil => exact ⟨s, rfl, by rwa [List.append_nil], hrow⟩
  | cons d rest ih =>
      obtain ⟨hd, hrest⟩ := List.pairwise_cons.1 hds
      have hdin := hin d (List.mem_cons_self ..)
      obtain ⟨next, hnext⟩ := Option.isSome_iff_exists.1 (store?_isSome_iff (s := s).2 hdin)
      obtain ⟨hholds, hat⟩ := h.store? (hlater d (List.mem_cons_self ..)) hnext
      have hlater' : ∀ e ∈ rest, next.row ≤ e.1 := by
        intro e he
        rcases precedes_iff.1 (hd e he) with hlt | ⟨heq, _⟩
        · exact hat ▸ hlt.le
        · exact hat ▸ heq.le
      obtain ⟨s', hs', hall, hend⟩ := ih hholds hrest hlater' (hat ▸ hdin.1.le)
        fun e he => hin e (List.mem_cons_of_mem _ he)
      refine ⟨s', ?_, by rwa [List.append_assoc] at hall, hend⟩
      rw [List.foldlM_cons, hnext]
      exact hs'

/-- A sweep that comes to an end has met no coordinate outside the matrix. -/
theorem inside_of_foldlM {s' : Sweep} (h : cs.foldlM (Sweep.store? rows cols) s = some s') :
    ∀ c ∈ cs, c.1 < rows ∧ c.2 < cols := by
  induction cs generalizing s with
  | nil => simp
  | cons c rest ih =>
      rw [List.foldlM_cons] at h
      obtain ⟨next, hnext, h⟩ := Option.bind_eq_some_iff.1 h
      intro d hd
      rcases List.mem_cons.1 hd with rfl | hd
      · exact store?_isSome_iff.1 (Option.isSome_iff_exists.2 ⟨next, hnext⟩)
      · exact ih h d hd

/-- Once the remaining rows have begun, what the sweep holds is the pattern of its coordinates. -/
theorem Holds.finish (h : s.Holds cs) (hrow : s.row ≤ rows) :
    s.finish rows cols = ofAscending rows cols cs := by
  obtain ⟨hholds, hat⟩ := h.advance (rows + 1 - s.offsets.size)
  have hsize : s.offsets.size = s.row + 1 := by simp [h.offsets]
  have hend : (s.advance (rows + 1 - s.offsets.size)).row = rows := by omega
  simp only [Sweep.finish, ofAscending, hholds.offsets, hholds.indices, hend]

end Sweep

/-! ## Patterns as they are made -/

/-- Coordinates make a pattern just if its offsets have room and all of them lie in the matrix, and
    then the pattern of the distinct ones in ascending order. -/
theorem ofCoordinates?_eq_some_iff {p : Pattern} :
    ofCoordinates? rows cols cs = some p ↔
      (rows + 1) * 8 < 2 ^ 63 ∧ (∀ c ∈ cs, c.1 < rows ∧ c.2 < cols) ∧
        ofAscending rows cols (sortCoordinates cs) = p := by
  have hsweep : (∀ c ∈ cs, c.1 < rows ∧ c.2 < cols) →
      ∃ s, (sortCoordinates cs).foldlM (Sweep.store? rows cols) Sweep.initial = some s ∧
        s.finish rows cols = ofAscending rows cols (sortCoordinates cs) := by
    intro hin
    obtain ⟨s, hs, hholds, hrow⟩ := Sweep.initial_holds.foldlM (ascending_sortCoordinates cs)
      (fun _ _ => Nat.zero_le _) (Nat.zero_le rows) fun c hc => hin c (mem_sortCoordinates.1 hc)
    exact ⟨s, hs, hholds.finish hrow⟩
  constructor
  · intro h
    obtain ⟨_, hroom, h⟩ := Option.bind_eq_some_iff.1 h
    obtain ⟨s, hs, h⟩ := Option.bind_eq_some_iff.1 h
    have hin : ∀ c ∈ cs, c.1 < rows ∧ c.2 < cols :=
      fun c hc => Sweep.inside_of_foldlM hs c (mem_sortCoordinates.2 hc)
    obtain ⟨s', hs', hfinish⟩ := hsweep hin
    obtain rfl := Option.some.inj (hs.symm.trans hs')
    exact ⟨(Word.cells?_eq_some hroom).2, hin, hfinish.symm.trans (Option.some.inj h)⟩
  · rintro ⟨hroom, hin, rfl⟩
    obtain ⟨s, hs, hfinish⟩ := hsweep hin
    rw [ofCoordinates?, Word.cells?, if_pos hroom, hs, ← hfinish]
    rfl

/-- **Patterns from coordinates.** The pattern made from coordinates is valid and stores just
    these. -/
theorem ofCoordinates?_spec {p : Pattern} (h : ofCoordinates? rows cols cs = some p) :
    p.Valid ∧ p.rows = rows ∧ p.cols = cols ∧ (rows + 1) * 8 < 2 ^ 63 ∧
      ∀ i j, (i, j) ∈ p.coordinates ↔ (i, j) ∈ cs := by
  obtain ⟨hroom, hall, rfl⟩ := ofCoordinates?_eq_some_iff.1 h
  have hin : ∀ c ∈ sortCoordinates cs, c.1 < rows ∧ c.2 < cols :=
    fun c hc => hall c (mem_sortCoordinates.1 hc)
  have hasc := ascending_sortCoordinates cs
  refine ⟨hasc.valid_ofAscending hin, rfl, rfl, hroom, fun i j => ?_⟩
  rw [hasc.mem_coordinates_ofAscending hin, mem_sortCoordinates]

theorem compressed_of_ofCoordinates? {p : Pattern} (h : ofCoordinates? rows cols cs = some p) :
    p.Compressed where
  toValid := (ofCoordinates?_spec h).1
  size_offsets := by
    obtain ⟨_, _, rfl⟩ := ofCoordinates?_eq_some_iff.1 h
    simp [ofAscending]

/-- The diagonal is valid and stores the places on it. -/
theorem diagonal?_spec {n : Nat} {p : Pattern} (h : diagonal? n = some p) :
    p.Valid ∧ p.rows = n ∧ p.cols = n ∧ (n + 1) * 8 < 2 ^ 63 ∧
      ∀ i j, (i, j) ∈ p.coordinates ↔ i = j ∧ j < n := by
  unfold diagonal? Word.cells? at h
  split at h
  · next hroom =>
      injection h with h
      subst h
      set p : Pattern := ⟨n, n, Array.range (n + 1), Array.range n⟩
      have hstart : ∀ i ≤ n, p.start i = i := by
        intro i hi
        have hlt : i < n + 1 := Nat.lt_succ_of_le hi
        simp [start, p, hlt]
      have hrow : ∀ i < n, p.row i = [i] := by
        intro i hi
        refine List.ext_getElem? fun k => ?_
        rw [getElem?_row, stop_eq_start_succ, hstart i hi.le, hstart (i + 1) hi]
        cases k with
        | zero => simp [p, hi]
        | succ k => simp
      have hvalid : p.Valid := {
        start_zero := hstart 0 (Nat.zero_le n)
        start_rows := by
          show p.start n = p.stored
          rw [hstart n le_rfl]
          simp [stored, p]
        start_le_stop := fun i hi => by
          rw [stop_eq_start_succ, hstart i (le_of_lt hi), hstart (i + 1) hi]
          omega
        ascending := fun i hi => by
          rw [hrow i hi]
          exact List.pairwise_singleton _ _
        bounded := fun i hi j hj => by
          rw [hrow i hi, List.mem_singleton] at hj
          exact hj ▸ hi }
      refine ⟨hvalid, rfl, rfl, hroom, fun i j => ?_⟩
      rw [mem_coordinates_iff]
      constructor
      · rintro ⟨k, hk⟩
        have hi : i < n := row_lt hk
        have hj := (mem_row_iff_entries hi).2 ⟨k, hk⟩
        rw [hrow i hi, List.mem_singleton] at hj
        exact ⟨hj.symm, hj ▸ hi⟩
      · rintro ⟨rfl, hi⟩
        refine (mem_row_iff_entries hi).1 ?_
        rw [hrow i hi]
        exact List.mem_singleton_self i
  · cases h

/-- A transposed pattern is valid and stores the places exchanged. -/
theorem transpose?_spec {p t : Pattern} (h : p.transpose? = some t) :
    t.Valid ∧ t.rows = p.cols ∧ t.cols = p.rows ∧ (p.cols + 1) * 8 < 2 ^ 63 ∧
      ∀ i j, (i, j) ∈ t.coordinates ↔ (j, i) ∈ p.coordinates := by
  obtain ⟨es, hes, h⟩ := Option.bind_eq_some_iff.1 h
  obtain rfl := entries_of_entries? hes
  obtain ⟨hvalid, hrows, hcols, hroom, hmem⟩ := ofCoordinates?_spec h
  refine ⟨hvalid, hrows, hcols, hroom, fun i j => ?_⟩
  rw [hmem, mem_coordinates_iff]
  simp only [List.mem_map, Prod.exists, Prod.mk.injEq]
  constructor
  · rintro ⟨_, _, k, hk, rfl, rfl⟩
    exact ⟨k, hk⟩
  · rintro ⟨k, hk⟩
    exact ⟨j, i, k, hk, rfl, rfl⟩

end Pattern

end GraphTensor
