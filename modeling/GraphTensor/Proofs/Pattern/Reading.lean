import GraphTensor.Proofs.Pattern.Rows
set_option autoImplicit false

/-! # Reading the arrays of a pattern

A row is read between its two offsets, and an entry at its position. In the compressed-row form with
one offset more than there are rows (`Pattern.Compressed`), every row has its offsets and every
position between them has its column, so rows and entries can be read without leaving the arrays.

The reads come in pairs: `Pattern.rowRange?`, `Pattern.row?` and `Pattern.entries?` may fail on
arrays that nothing is known of, and agree, where they have an answer, with the total functions that
the rest of the theory is about. The first section says this of any arrays, the second that in the
compressed-row form there always is an answer. -/

namespace GraphTensor

/-- The compressed-row form in full: there is one offset more than there are rows. -/
structure Pattern.Compressed (p : Pattern) : Prop extends p.Valid where
  /-- Each row has an offset, and so has the end of the last one. -/
  size_offsets : p.offsets.size = p.rows + 1

/-- Reading succeeds with the values read, one for each thing that is read. -/
theorem mapM_eq_some_iff {β γ : Type} {f : β → Option γ} {xs : List β} {ys : List γ} :
    xs.mapM f = some ys ↔ xs.map f = ys.map some := by
  induction xs generalizing ys with
  | nil => cases ys <;> simp [List.mapM_nil]
  | cons x rest ih =>
      rw [List.mapM_cons]
      constructor
      · intro h
        obtain ⟨y, hy, h⟩ := Option.bind_eq_some_iff.1 h
        obtain ⟨zs, hzs, h⟩ := Option.bind_eq_some_iff.1 h
        obtain rfl := Option.some.inj h
        rw [List.map_cons, List.map_cons, hy, ih.1 hzs]
      · intro h
        cases ys with
        | nil => cases h
        | cons y ys =>
            rw [List.map_cons, List.map_cons] at h
            obtain ⟨hy, hrest⟩ := List.cons.inj h
            rw [hy, ih.2 hrest]
            rfl

theorem map_some_injective {β : Type} {xs ys : List β} (h : xs.map some = ys.map some) : xs = ys :=
  List.map_injective_iff.2 (fun _ _ => Option.some.inj) h

namespace Pattern

variable {p : Pattern} {row a b : Nat}

/-! ## Any arrays -/

theorem rowRange?_eq_some_iff :
    p.rowRange? row = some (a, b) ↔ p.offsets[row]? = some a ∧ p.offsets[row + 1]? = some b := by
  simp [rowRange?, Option.bind_eq_some_iff]

theorem start_of_rowRange? (h : p.rowRange? row = some (a, b)) :
    p.start row = a ∧ p.stop row = b := by
  obtain ⟨ha, hb⟩ := rowRange?_eq_some_iff.1 h
  simp [start, stop, Array.getD_eq_getD_getElem?, ha, hb]

/-- With one offset more than there are rows, each row has an offset, and so has the end of the last
    one. -/
theorem getElem?_offsets (hsize : p.offsets.size = p.rows + 1) (hrow : row ≤ p.rows) :
    p.offsets[row]? = some (p.start row) := by
  rw [start, Array.getD_eq_getD_getElem?, Array.getElem?_eq_getElem (by omega)]
  rfl

theorem rowRange?_of_size (hsize : p.offsets.size = p.rows + 1) (hrow : row < p.rows) :
    p.rowRange? row = some (p.start row, p.stop row) :=
  rowRange?_eq_some_iff.2 ⟨getElem?_offsets hsize hrow.le, getElem?_offsets hsize hrow⟩

theorem columns?_eq (hle : p.start row ≤ p.stop row) (hstored : p.stop row ≤ p.stored) :
    p.columns? (p.start row) (p.stop row) = some (p.row row) :=
  if_pos ⟨hle, hstored⟩

theorem getElem?_rowEntries (p : Pattern) (row k : Nat) :
    (p.rowEntries row)[k]? =
      if k < p.stop row - p.start row then p.entryAt? row (p.start row + k) else none := by
  rw [rowEntries, List.getElem?_map, List.getElem?_zipIdx, getElem?_row]
  split
  · rw [Option.map_map]
    rfl
  · rfl

theorem map_entryAt? (hstored : p.start row < p.stop row → p.stop row ≤ p.stored) :
    (List.range' (p.start row) (p.stop row - p.start row)).map (p.entryAt? row) =
      (p.rowEntries row).map some := by
  refine List.ext_getElem? fun k => ?_
  rw [List.getElem?_map, List.getElem?_map, getElem?_rowEntries]
  split
  · next hk =>
      have hposition : p.start row + k < p.indices.size := by
        have := hstored (by omega)
        rw [stored] at this
        omega
      have hentry : p.entryAt? row (p.start row + k) =
          some (row, p.indices[p.start row + k], p.start row + k) := by
        rw [entryAt?, Array.getElem?_eq_getElem hposition]
        rfl
      rw [List.getElem?_range' hk, Nat.one_mul, Option.map_some, hentry]
      rfl
  · next hk =>
      rw [List.getElem?_eq_none (by simpa using hk)]
      rfl

/-- The entries of a row can be read just if its offsets can and its positions are among those
    stored. -/
theorem rowEntries?_eq_some_iff {es : List (Nat × Nat × Nat)} :
    p.rowEntries? row = some es ↔
      p.rowRange? row = some (p.start row, p.stop row) ∧
        (p.start row < p.stop row → p.stop row ≤ p.stored) ∧ p.rowEntries row = es := by
  constructor
  · intro h
    obtain ⟨⟨a, b⟩, hrange, h⟩ := Option.bind_eq_some_iff.1 h
    obtain ⟨rfl, rfl⟩ := start_of_rowRange? hrange
    have hmap := mapM_eq_some_iff.1 h
    have hstored : p.start row < p.stop row → p.stop row ≤ p.stored := by
      intro hlt
      -- the last position of the row has been read
      have hmem : p.entryAt? row (p.stop row - 1) ∈ es.map some := by
        rw [← hmap]
        exact List.mem_map_of_mem (List.mem_range'_1.2 (by omega))
      obtain ⟨_, _, hsome⟩ := List.mem_map.1 hmem
      obtain ⟨_, hget, _⟩ := Option.map_eq_some_iff.1 hsome.symm
      have := (Array.getElem?_eq_some_iff.1 hget).1
      rw [stored]
      omega
    exact ⟨hrange, hstored, map_some_injective ((map_entryAt? hstored).symm.trans hmap)⟩
  · rintro ⟨hrange, hstored, rfl⟩
    exact Option.bind_eq_some_iff.2 ⟨_, hrange, mapM_eq_some_iff.2 (map_entryAt? hstored)⟩

theorem entries_of_entries? {es : List (Nat × Nat × Nat)} (h : p.entries? = some es) :
    p.entries = es := by
  obtain ⟨rows, hrows, rfl⟩ := Option.map_eq_some_iff.1 h
  have hmap := mapM_eq_some_iff.1 hrows
  have hsame : (List.range p.rows).map p.rowEntries = rows := by
    refine map_some_injective ?_
    rw [← hmap, List.map_map]
    refine List.map_congr_left fun row hrow => ?_
    have hmem : p.rowEntries? row ∈ rows.map some := hmap ▸ List.mem_map_of_mem hrow
    obtain ⟨es, _, hes⟩ := List.mem_map.1 hmem
    rw [Function.comp_apply, (rowEntries?_eq_some_iff.1 hes.symm).2.2, hes]
  rw [entries, List.flatMap, hsame]

/-! ## The compressed-row form -/

namespace Compressed

theorem rowRange?_eq (h : p.Compressed) (hrow : row < p.rows) :
    p.rowRange? row = some (p.start row, p.stop row) :=
  rowRange?_of_size h.size_offsets hrow

theorem row?_eq (h : p.Compressed) (hrow : row < p.rows) : p.row? row = some (p.row row) := by
  rw [row?, h.rowRange?_eq hrow]
  exact columns?_eq (h.start_le_stop row hrow) (h.stop_le_stored hrow)

theorem entries?_eq (h : p.Compressed) : p.entries? = some p.entries := by
  have hrows : (List.range p.rows).mapM p.rowEntries? =
      some ((List.range p.rows).map p.rowEntries) := by
    rw [mapM_eq_some_iff, List.map_map]
    refine List.map_congr_left fun row hrow => ?_
    have hrow := List.mem_range.1 hrow
    exact rowEntries?_eq_some_iff.2
      ⟨h.rowRange?_eq hrow, fun _ => h.stop_le_stored hrow, rfl⟩
  rw [entries?, hrows]
  rfl

end Compressed

end Pattern

end GraphTensor
