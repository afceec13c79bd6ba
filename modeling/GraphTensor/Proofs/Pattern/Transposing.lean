import GraphTensor.Proofs.Pattern.Canonical
import GraphTensor.Proofs.Topology.Room
set_option autoImplicit false

/-! # Transposed patterns

The transpose of a pattern (`Pattern.transpose?`) is made anew from the coordinates with row and
column exchanged. As these are as many and as distinct as before, it has as many entries; and as a
pattern is told by its size and its coordinates, the transpose of the transpose is the pattern
itself, array for array. `Pattern.IsTranspose` collects what a transpose is. There is none only
where the columns are so many that its offsets have no room. -/

namespace GraphTensor

namespace Pattern

variable {p q : Pattern}

/-! ## Coordinates -/

/-- The coordinates of the transpose are those of the pattern with row and column exchanged, in the
    order of the transpose. -/
theorem Valid.coordinates_transpose?_perm (hp : p.Valid) (hq : p.transpose? = some q) :
    q.coordinates.Perm (p.coordinates.map Prod.swap) := by
  obtain ⟨hvalid, _, _, _, hmem⟩ := transpose?_spec hq
  have hswapped : (p.coordinates.map Prod.swap).Nodup :=
    hp.nodup_coordinates.map Prod.swap_injective
  refine (List.perm_ext_iff_of_nodup hvalid.nodup_coordinates hswapped).2 fun ⟨i, j⟩ => ?_
  rw [hmem, List.mem_map]
  constructor
  · intro h
    exact ⟨(j, i), h, rfl⟩
  · rintro ⟨c, hc, hswap⟩
    obtain rfl : c = (j, i) := Prod.swap_injective hswap
    exact hc

theorem Valid.stored_transpose? (hp : p.Valid) (hq : p.transpose? = some q) :
    q.stored = p.stored := by
  rw [← (transpose?_spec hq).1.length_coordinates, ← hp.length_coordinates,
    (hp.coordinates_transpose?_perm hq).length_eq, List.length_map]

/-! ## Transposing twice -/

theorem compressed_of_transpose? (hq : p.transpose? = some q) : q.Compressed := by
  obtain ⟨es, _, hmade⟩ := Option.bind_eq_some_iff.1 hq
  exact compressed_of_ofCoordinates? hmade

theorem Compressed.exists_transpose?_iff (h : p.Compressed) :
    (∃ q, p.transpose? = some q) ↔ (p.cols + 1) * 8 < 2 ^ 63 :=
  ⟨fun ⟨_, hq⟩ => (transpose?_spec hq).2.2.2.1, h.exists_transpose?⟩

/-- The transpose of the transpose is the pattern, if the offsets of the pattern have room. -/
theorem Compressed.transpose?_transpose? (h : p.Compressed) (hq : p.transpose? = some q)
    (hroom : (p.rows + 1) * 8 < 2 ^ 63) : q.transpose? = some p := by
  obtain ⟨_, hrows, hcols, _, hmem⟩ := transpose?_spec hq
  obtain ⟨r, hr⟩ := (compressed_of_transpose? hq).exists_transpose? (hcols ▸ hroom)
  obtain ⟨_, hrows', hcols', _, hmem'⟩ := transpose?_spec hr
  have hsame : r = p :=
    (compressed_of_transpose? hr).eq_of_mem_iff h (hrows'.trans hcols) (hcols'.trans hrows)
      fun i j => (hmem' i j).trans (hmem j i)
  exact hr.trans (congrArg some hsame)

/-- A pattern is the transpose of a pattern. -/
structure IsTranspose (p q : Pattern) : Prop where
  /-- It passes validation. -/
  valid : q.validate = .ok ()
  /-- Its rows are the columns of the pattern. -/
  rows : q.rows = p.cols
  /-- Its columns are the rows of the pattern. -/
  cols : q.cols = p.rows
  /-- It has as many entries. -/
  stored : q.stored = p.stored
  /-- It stores the places of the pattern with row and column exchanged. -/
  contains : ∀ i j, q.contains j i = true ↔ p.contains i j = true

theorem Compressed.isTranspose (h : p.Compressed) (hq : p.transpose? = some q) :
    p.IsTranspose q := by
  obtain ⟨hvalid, hrows, hcols, hroom, hmem⟩ := transpose?_spec hq
  refine ⟨?_, hrows, hcols, h.stored_transpose? hq, fun i j => ?_⟩
  · exact (compressed_of_transpose? hq).validate_eq_ok (hrows ▸ hroom)
  · exact (hvalid.isSome_locate_iff .binary).trans
      ((hmem j i).trans (h.isSome_locate_iff .binary).symm)

/-- **Transposed patterns.** A pattern that passes validation has a transpose just if the offsets of the
    transpose have room. The transpose passes validation, has the columns of the pattern as rows and its
    rows as columns, and as many entries, and it stores a place just if the pattern stores the place with
    row and column exchanged. If the offsets of the pattern have room, then the pattern is the transpose
    of its transpose. -/
theorem transpose?_involutive (hp : p.validate = .ok ()) :
    ((∃ q, p.transpose? = some q) ↔ (p.cols + 1) * 8 < 2 ^ 63) ∧
    ∀ q, p.transpose? = some q →
      p.IsTranspose q ∧ ((p.rows + 1) * 8 < 2 ^ 63 → q.transpose? = some p) := by
  have h := compressed_of_validate hp
  exact ⟨h.exists_transpose?_iff, fun q hq => ⟨h.isTranspose hq, h.transpose?_transpose? hq⟩⟩

/-- A pattern with an empty row and an empty column, and its transpose. -/
theorem emptyColumn_transposed :
    let p : Pattern := ⟨3, 5, #[0, 2, 2, 4], #[0, 2, 1, 4]⟩
    let q : Pattern := ⟨5, 3, #[0, 1, 2, 3, 3, 4], #[0, 2, 0, 2]⟩
    p.validate = .ok () ∧ p.transpose? = some q ∧ p.IsTranspose q ∧ q.transpose? = some p := by
  intro p q
  have hvalid : p.validate = .ok () := by decide
  have hq : p.transpose? = some q := by decide
  obtain ⟨_, htranspose⟩ := transpose?_involutive hvalid
  obtain ⟨his, hback⟩ := htranspose q hq
  exact ⟨hvalid, hq, his, hback (by decide)⟩

/-- A pattern without rows can have too many columns for the offsets of a transpose. -/
theorem manyColumns_noTranspose :
    let p : Pattern := ⟨0, 2 ^ 60, #[0], #[]⟩
    p.validate = .ok () ∧ p.rows < Word.bound - 1 ∧ p.cols < Word.bound - 1 ∧
      p.transpose? = none := by
  intro p
  have hvalid : p.validate = .ok () := by decide
  have hroom : ¬ (p.cols + 1) * 8 < 2 ^ 63 := by decide
  refine ⟨hvalid, by decide, by decide, Option.eq_none_iff_forall_ne_some.2 fun q hq => hroom ?_⟩
  exact (compressed_of_validate hvalid).exists_transpose?_iff.1 ⟨q, hq⟩

end Pattern

end GraphTensor
