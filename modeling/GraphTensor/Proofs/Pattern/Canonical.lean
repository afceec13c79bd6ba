import GraphTensor.Proofs.Pattern.Places
import GraphTensor.Proofs.Pattern.Validation
set_option autoImplicit false

/-! # Patterns are canonical

A pattern is told by its size and the set of its coordinates. The rows of two patterns with the same
coordinates are the same lists, ascending lists being told by their members
(`eq_of_pairwise_of_mem_iff`); rows that are the same begin at the same positions; and so the arrays
are the same (`Pattern.Compressed.eq_of_rows`). Hence whatever makes a pattern from coordinates
makes the same one from any list of the same coordinates, and a pattern that passes validation is
the one made from its own coordinates.

The arrays are determined only for patterns with one offset more than there are rows
(`Pattern.Compressed`); `Pattern.Valid` alone leaves open what stands in `offsets` past the last
row. -/

namespace GraphTensor

/-- Strictly ascending lists with the same members are the same. -/
theorem eq_of_pairwise_of_mem_iff {β : Type} {before : β → β → Prop} {xs ys : List β}
    (hirrefl : ∀ x, ¬ before x x) (hasymm : ∀ x y, before x y → ¬ before y x)
    (hxs : xs.Pairwise before) (hys : ys.Pairwise before) (hmem : ∀ x, x ∈ xs ↔ x ∈ ys) :
    xs = ys := by
  have hnodup : ∀ {zs : List β}, zs.Pairwise before → zs.Nodup := by
    intro zs hzs
    refine hzs.imp fun {x y} hlt heq => ?_
    exact hirrefl y (heq ▸ hlt)
  have hperm : xs.Perm ys := (List.perm_ext_iff_of_nodup (hnodup hxs) (hnodup hys)).2 hmem
  exact List.Perm.eq_of_pairwise (fun x y _ _ hxy hyx => absurd hyx (hasymm x y hxy)) hxs hys hperm

namespace Pattern

variable {p q : Pattern} {rows cols : Nat} {cs ds : List (Nat × Nat)}

theorem Ascending.eq_of_mem_iff (hcs : Ascending cs) (hds : Ascending ds)
    (hmem : ∀ c, c ∈ cs ↔ c ∈ ds) : cs = ds := by
  refine eq_of_pairwise_of_mem_iff (fun c hc => ?_) (fun c d hcd hdc => ?_) hcs hds hmem
  · rw [precedes_iff] at hc
    omega
  · rw [precedes_iff] at hcd hdc
    omega

/-! ## Entries and coordinates -/

/-- The entries are the coordinates, numbered from zero. -/
theorem Valid.entries_eq_zipIdx (h : p.Valid) :
    p.entries = p.coordinates.zipIdx.map fun (c, position) => (c.1, c.2, position) := by
  have hlength : p.entries.length = p.stored := by
    rw [← h.length_coordinates, coordinates, List.length_map]
  refine List.ext_getElem (by simp [coordinates]) fun k hk _ => ?_
  have hposition : (p.entries.map fun entry => entry.2.2)[k]? = some k := by
    rw [h.positions_entries, List.getElem?_range (hlength ▸ hk)]
  rw [List.getElem?_map, List.getElem?_eq_getElem hk] at hposition
  have hposition : p.entries[k].2.2 = k := Option.some.inj hposition
  simp only [coordinates, List.getElem_map, List.getElem_zipIdx, Nat.zero_add]
  exact Prod.ext rfl (Prod.ext rfl hposition)

/-! ## Equal rows -/

theorem Compressed.start_eq_start (hp : p.Compressed) (hq : q.Compressed) (hrows : p.rows = q.rows)
    (hrow : ∀ row < p.rows, p.row row = q.row row) {row : Nat} (hle : row ≤ p.rows) :
    p.start row = q.start row := by
  induction row with
  | zero => rw [hp.start_zero, hq.start_zero]
  | succ row ih =>
      have hlength := congrArg List.length (hrow row hle)
      rw [hp.length_row hle, hq.length_row (hrows ▸ hle)] at hlength
      have hpstop := hp.start_le_stop row hle
      have hqstop := hq.start_le_stop row (hrows ▸ hle)
      have hsame := ih (Nat.le_of_succ_le hle)
      simp only [stop_eq_start_succ] at hlength hpstop hqstop
      omega

/-- A pattern is told by its size and its rows. -/
theorem Compressed.eq_of_rows (hp : p.Compressed) (hq : q.Compressed) (hrows : p.rows = q.rows)
    (hcols : p.cols = q.cols) (hrow : ∀ row < p.rows, p.row row = q.row row) : p = q := by
  have hstart : ∀ row ≤ p.rows, p.start row = q.start row :=
    fun _ => hp.start_eq_start hq hrows hrow
  have hoffsets : p.offsets = q.offsets := by
    refine Array.ext (by rw [hp.size_offsets, hq.size_offsets, hrows]) fun k hk hk' => ?_
    have hle : k ≤ p.rows := Nat.le_of_lt_succ (hk.trans_eq hp.size_offsets)
    have hget := getElem?_offsets hp.size_offsets hle
    rw [hstart k hle, ← getElem?_offsets hq.size_offsets (hrows ▸ hle),
      Array.getElem?_eq_getElem hk, Array.getElem?_eq_getElem hk'] at hget
    exact Option.some.inj hget
  have hstored : p.stored = q.stored := by
    rw [← hp.start_rows, ← hq.start_rows, ← hrows, hstart p.rows le_rfl]
  have hindices : p.indices = q.indices := by
    refine Array.ext hstored fun k hk hk' => ?_
    -- the position belongs to a row, which has the same columns from the same position on in both
    obtain ⟨row, col, hentry⟩ := hp.exists_entry hk
    obtain ⟨hlt, hle, hstop, hcol⟩ := mem_entries_iff.1 hentry
    have hget : (q.row row)[k - p.start row]? = some col := by
      rw [← hrow row hlt, getElem?_row, if_pos (by omega), Nat.add_sub_cancel' hle, hcol]
    have hcol' := (getElem?_of_row hget).2
    rw [← hstart row hlt.le, Nat.add_sub_cancel' hle] at hcol'
    rw [Array.getElem?_eq_getElem hk] at hcol
    rw [Array.getElem?_eq_getElem hk'] at hcol'
    exact Option.some.inj (hcol.trans hcol'.symm)
  obtain ⟨prows, pcols, poffsets, pindices⟩ := p
  obtain ⟨qrows, qcols, qoffsets, qindices⟩ := q
  simp only at hrows hcols hoffsets hindices
  rw [hrows, hcols, hoffsets, hindices]

theorem Valid.row_eq (hp : p.Valid) (hq : q.Valid) {i j : Nat} (hi : i < p.rows) (hj : j < q.rows)
    (hmem : ∀ col, (i, col) ∈ p.coordinates ↔ (j, col) ∈ q.coordinates) : p.row i = q.row j := by
  refine eq_of_pairwise_of_mem_iff Nat.lt_irrefl (fun _ _ => Nat.lt_asymm)
    (hp.ascending i hi) (hq.ascending j hj) fun col => ?_
  rw [mem_row_iff_entries hi, mem_row_iff_entries hj, ← mem_coordinates_iff, ← mem_coordinates_iff]
  exact hmem col

/-- **A pattern is told by its size and the set of its coordinates.** -/
theorem Compressed.eq_of_mem_iff (hp : p.Compressed) (hq : q.Compressed) (hrows : p.rows = q.rows)
    (hcols : p.cols = q.cols) (hmem : ∀ i j, (i, j) ∈ p.coordinates ↔ (i, j) ∈ q.coordinates) :
    p = q :=
  hp.eq_of_rows hq hrows hcols fun row hrow =>
    hp.row_eq hq.toValid hrow (hrows ▸ hrow) fun col => hmem row col

/-! ## Patterns from coordinates -/

theorem sortCoordinates_congr (hmem : ∀ c, c ∈ cs ↔ c ∈ ds) :
    sortCoordinates cs = sortCoordinates ds :=
  (ascending_sortCoordinates cs).eq_of_mem_iff (ascending_sortCoordinates ds) fun c => by
    rw [mem_sortCoordinates, mem_sortCoordinates, hmem]

/-- What is made from coordinates, if anything, depends on the set of coordinates alone. -/
theorem ofCoordinates?_congr (hmem : ∀ c, c ∈ cs ↔ c ∈ ds) :
    ofCoordinates? rows cols cs = ofCoordinates? rows cols ds := by
  rw [ofCoordinates?, ofCoordinates?, sortCoordinates_congr hmem]

theorem Valid.inside_of_mem (h : p.Valid) {c : Nat × Nat} (hc : c ∈ p.coordinates) :
    c.1 < p.rows ∧ c.2 < p.cols := by
  obtain ⟨position, hentry⟩ := mem_coordinates_iff.1 hc
  exact ⟨row_lt hentry, h.col_lt hentry⟩

/-- A pattern in the compressed-row form is the one made from its coordinates. -/
theorem Compressed.ofCoordinates?_eq (h : p.Compressed) (hroom : (p.rows + 1) * 8 < 2 ^ 63)
    (hmem : ∀ c, c ∈ cs ↔ c ∈ p.coordinates) : ofCoordinates? p.rows p.cols cs = some p := by
  have hin : ∀ c ∈ cs, c.1 < p.rows ∧ c.2 < p.cols :=
    fun c hc => h.inside_of_mem ((hmem c).1 hc)
  have hmade := ofCoordinates?_eq_some_iff.2 ⟨hroom, hin, rfl⟩
  obtain ⟨_, hrows, hcols, _, hplaces⟩ := ofCoordinates?_spec hmade
  rw [hmade, (compressed_of_ofCoordinates? hmade).eq_of_mem_iff h hrows hcols fun i j =>
    (hplaces i j).trans (hmem (i, j))]

/-- A square pattern whose places lie on both sides of the diagonal is its own transpose. -/
theorem Compressed.transpose?_eq_self (h : p.Compressed) (hroom : (p.rows + 1) * 8 < 2 ^ 63)
    (hsquare : p.cols = p.rows)
    (hsymm : ∀ i j, (i, j) ∈ p.coordinates → (j, i) ∈ p.coordinates) : p.transpose? = some p := by
  have hmem : ∀ c, c ∈ p.entries.map (fun entry => (entry.2.1, entry.1)) ↔ c ∈ p.coordinates := by
    rintro ⟨i, j⟩
    simp only [List.mem_map, Prod.exists, Prod.mk.injEq]
    constructor
    · rintro ⟨_, _, k, hk, rfl, rfl⟩
      exact hsymm _ _ (mem_coordinates_iff.2 ⟨k, hk⟩)
    · intro hij
      obtain ⟨k, hk⟩ := mem_coordinates_iff.1 (hsymm i j hij)
      exact ⟨j, i, k, hk, rfl, rfl⟩
  have hmade := h.ofCoordinates?_eq hroom hmem
  rw [hsquare] at hmade
  rw [transpose?, h.entries?_eq, hsquare]
  exact hmade

theorem compressed_of_validate (h : p.validate = .ok ()) : p.Compressed := by
  obtain ⟨expected, hadd, _⟩ := Outcome.bind_eq_ok_iff.1 h
  have hword := (Word.ofNat?_eq_some_iff.1 (Outcome.orAbort_eq_ok_iff.1 hadd)).1
  exact (validate_eq_ok_iff hword).1 h

theorem Compressed.validate_eq_ok (h : p.Compressed) (hroom : (p.rows + 1) * 8 < 2 ^ 63) :
    p.validate = .ok () := by
  have hword : p.rows + 1 < Word.bound := by
    rw [Word.bound]
    omega
  exact (validate_eq_ok_iff hword).2 h

/-- **Patterns are canonical.** Coordinates in a matrix whose offsets have room make a pattern that
    passes validation and whose entries are the distinct coordinates in ascending order, numbered
    from zero. What is made depends on the set of coordinates alone. A pattern that passes validation
    is the one made from its coordinates, and no other one of its size has the same coordinates. -/
theorem ofCoordinates?_canonical :
    (∀ (rows cols : Nat) (cs : List (Nat × Nat)), (rows + 1) * 8 < 2 ^ 63 →
      (∀ c ∈ cs, c.1 < rows ∧ c.2 < cols) →
        ∃ p ds, ofCoordinates? rows cols cs = some p ∧ p.rows = rows ∧ p.cols = cols ∧
          p.validate = .ok () ∧ Ascending ds ∧ (∀ c, c ∈ ds ↔ c ∈ cs) ∧ p.stored = ds.length ∧
            p.entries? = some (ds.zipIdx.map fun (c, position) => (c.1, c.2, position))) ∧
    (∀ (rows cols : Nat) (cs cs' : List (Nat × Nat)), (∀ c, c ∈ cs ↔ c ∈ cs') →
      ofCoordinates? rows cols cs = ofCoordinates? rows cols cs') ∧
    (∀ (p : Pattern) (cs : List (Nat × Nat)), p.validate = .ok () → (p.rows + 1) * 8 < 2 ^ 63 →
      (∀ c, c ∈ cs ↔ c ∈ p.coordinates) → ofCoordinates? p.rows p.cols cs = some p) ∧
    ∀ p q : Pattern, p.validate = .ok () → q.validate = .ok () → p.rows = q.rows →
      p.cols = q.cols → (∀ c, c ∈ p.coordinates ↔ c ∈ q.coordinates) → p = q := by
  refine ⟨fun rows cols cs hroom hin => ?_, fun _ _ _ _ => ofCoordinates?_congr,
    fun p cs hp => (compressed_of_validate hp).ofCoordinates?_eq, fun p q hp hq hrows hcols hmem => ?_⟩
  · have hmade := ofCoordinates?_eq_some_iff.2 ⟨hroom, hin, rfl⟩
    obtain ⟨hvalid, hrows, hcols, _, hplaces⟩ := ofCoordinates?_spec hmade
    have hcompressed := compressed_of_ofCoordinates? hmade
    refine ⟨_, _, hmade, hrows, hcols, hcompressed.validate_eq_ok (hrows ▸ hroom),
      hvalid.ascending_coordinates, fun c => hplaces c.1 c.2, hvalid.length_coordinates.symm, ?_⟩
    rw [hcompressed.entries?_eq, hvalid.entries_eq_zipIdx]
  · exact (compressed_of_validate hp).eq_of_mem_iff (compressed_of_validate hq) hrows hcols
      fun i j => hmem (i, j)

/-- Coordinates in disorder, one of them twice, with an empty row between them. -/
theorem emptyRow_canonical :
    let cs : List (Nat × Nat) := [(2, 3), (0, 0), (0, 2), (2, 1), (0, 2)]
    let p : Pattern := ⟨3, 4, #[0, 2, 2, 4], #[0, 2, 1, 3]⟩
    (3 + 1) * 8 < 2 ^ 63 ∧ (∀ c ∈ cs, c.1 < 3 ∧ c.2 < 4) ∧ p.validate = .ok () ∧
      (∀ c, c ∈ cs ↔ c ∈ p.coordinates) ∧ ofCoordinates? 3 4 cs = some p := by
  intro cs p
  have hvalid : p.validate = .ok () := by decide
  have hto : ∀ c ∈ cs, c ∈ p.coordinates := by decide
  have hfrom : ∀ c ∈ p.coordinates, c ∈ cs := by decide
  have hmem : ∀ c, c ∈ cs ↔ c ∈ p.coordinates := fun c => ⟨hto c, hfrom c⟩
  exact ⟨by decide, by decide, hvalid, hmem,
    ofCoordinates?_canonical.2.2.1 p cs hvalid (by decide) hmem⟩

/-- There are sizes below the largest word for which the offsets have no room. -/
theorem manyRows_aborts : 2 ^ 60 < Word.bound - 1 ∧ ofCoordinates? (2 ^ 60) 1 [] = none := by
  refine ⟨by decide, ?_⟩
  have hroom : Word.cells? (2 ^ 60 + 1) 8 = none := by decide
  rw [ofCoordinates?, hroom]
  rfl

end Pattern

end GraphTensor
