import GraphTensor.Proofs.Pattern.Canonical
set_option autoImplicit false

/-! # Locating entries

An entry is stored at a position if the position lies between the two offsets of its row and its
column stands there (`Pattern.StoredAt`, which is read off the arrays and mentions neither search).
In a pattern that passes validation each entry is stored at one position and each position holds one
entry. Either search answers with the position at which an entry is stored, and with nothing where
there is none, so searching undoes the listing of all entries. -/

namespace GraphTensor

namespace Pattern

variable {p : Pattern} {row col position : Nat}

/-- An entry is stored at a position. -/
structure StoredAt (p : Pattern) (row col position : Nat) : Prop where
  /-- The row exists. -/
  row_lt : row < p.rows
  /-- The position lies between the offsets of the row. -/
  between : ∃ start stop, p.rowRange? row = some (start, stop) ∧ start ≤ position ∧ position < stop
  /-- The column stands at the position. -/
  column : p.indices[position]? = some col

theorem Compressed.storedAt_iff (h : p.Compressed) :
    p.StoredAt row col position ↔ (row, col, position) ∈ p.entries := by
  rw [mem_entries_iff]
  constructor
  · rintro ⟨hrow, ⟨start, stop, hrange, hle, hlt⟩, hcol⟩
    obtain ⟨rfl, rfl⟩ := start_of_rowRange? hrange
    exact ⟨hrow, hle, hlt, hcol⟩
  · rintro ⟨hrow, hle, hlt, hcol⟩
    exact ⟨hrow, ⟨_, _, h.rowRange?_eq hrow, hle, hlt⟩, hcol⟩

theorem Compressed.locate_eq_some_iff_storedAt (h : p.Compressed) (search : Search) :
    p.locate search row col = some position ↔ p.StoredAt row col position :=
  (h.locate_eq_some_iff search).trans h.storedAt_iff.symm

/-- **Locating entries.** In a pattern that passes validation either search, whatever row and column it is
    asked for, finds just the position at which the entry is stored, and nothing just if the entry is
    stored nowhere. An entry is stored at one position at most, and a position holds one entry at most.
    All entries can be listed, none comes twice, and the list has an entry with a position just if the
    search finds it there. -/
theorem locate_exact (hp : p.validate = .ok ()) (search : Search) :
    (∀ row col position, p.locate search row col = some position ↔ p.StoredAt row col position) ∧
    (∀ row col, p.locate search row col = none ↔ ∀ position, ¬ p.StoredAt row col position) ∧
    (∀ row col, p.contains row col = true ↔ ∃ position, p.StoredAt row col position) ∧
    (∀ row col k l, p.StoredAt row col k → p.StoredAt row col l → k = l) ∧
    (∀ row col row' col' position, p.StoredAt row col position → p.StoredAt row' col' position →
      row = row' ∧ col = col') ∧
    ∃ es, p.entries? = some es ∧ es.Nodup ∧ ∀ row col position,
      (row, col, position) ∈ es ↔ p.locate search row col = some position := by
  have h := compressed_of_validate hp
  refine ⟨fun row col position => h.locate_eq_some_iff_storedAt search, fun row col => ?_,
    fun row col => ?_, fun row col k l hk hl => ?_, fun row col row' col' position he he' => ?_,
    p.entries, h.entries?_eq, h.nodup_entries, fun row col position =>
      (h.locate_eq_some_iff search).symm⟩
  · rw [Option.eq_none_iff_forall_ne_some]
    exact forall_congr' fun position => not_congr (h.locate_eq_some_iff_storedAt search)
  · rw [contains, Option.isSome_iff_exists]
    exact exists_congr fun position => h.locate_eq_some_iff_storedAt .binary
  · exact h.position_of_place (h.storedAt_iff.1 hk) (h.storedAt_iff.1 hl)
  · exact h.place_of_position (h.storedAt_iff.1 he) (h.storedAt_iff.1 he')

/-- Where a scan finds an entry or a hole, so does halving: the last entry of a pattern and the hole
    between two columns of its first row. -/
theorem emptyRow_located :
    let p : Pattern := ⟨3, 4, #[0, 2, 2, 4], #[0, 2, 1, 3]⟩
    p.validate = .ok () ∧ p.StoredAt 2 3 3 ∧ (∀ position, ¬ p.StoredAt 0 1 position) ∧
      p.locate .binary 2 3 = some 3 ∧ p.locate .binary 0 1 = none := by
  intro p
  have hvalid : p.validate = .ok () := by decide
  obtain ⟨hscan, hmiss, _⟩ := locate_exact hvalid .linear
  obtain ⟨hhalving, hmiss', _⟩ := locate_exact hvalid .binary
  have hstored : p.StoredAt 2 3 3 := (hscan 2 3 3).1 (by decide)
  have hhole : ∀ position, ¬ p.StoredAt 0 1 position := (hmiss 0 1).1 (by decide)
  exact ⟨hvalid, hstored, hhole, (hhalving 2 3 3).2 hstored, (hmiss' 0 1).2 hhole⟩

end Pattern

end GraphTensor
