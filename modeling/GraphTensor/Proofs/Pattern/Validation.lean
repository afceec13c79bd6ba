import GraphTensor.Proofs.Pattern.Reading
set_option autoImplicit false

/-! # Validation of arrays

Validation (`Pattern.validate`) accepts just the compressed-row form. It never leaves the arrays,
though it reads columns between offsets of which only the earlier ones have been checked: a row is
not looked into before its end is known to lie among the columns.

Every error names a violation that is there (`Pattern.Violates`). One name is used for two: a row
that ends past the last column (`Pattern.Overshoots`) is reported as wrong bounds of the offsets,
even where the first and the last offset are right and the offsets come back further on;
`Pattern.Faulty` takes this in. The check has three levels, the columns of a row, the rows and the
whole, and each has one lemma that says how it can end. -/

namespace GraphTensor

namespace Pattern

variable {p : Pattern} {row : Nat}

/-! ## Violations -/

/-- The violation that an error names is there. -/
def Violates (p : Pattern) : PatternError → Prop
  | .offsetsLength expected found =>
    expected = p.rows + 1 ∧ found = p.offsets.size ∧ found ≠ expected
  | .offsetsBounds stored =>
    stored = p.stored ∧ ∃ first last, p.offsets[0]? = some first ∧ p.offsets[p.rows]? = some last ∧
      (first ≠ 0 ∨ last ≠ stored)
  | .decreasingOffsets row =>
    row < p.rows ∧ ∃ start stop, p.rowRange? row = some (start, stop) ∧ stop < start
  | .unsortedColumns row col =>
    row < p.rows ∧ ∃ start stop k before, p.rowRange? row = some (start, stop) ∧
      start ≤ k ∧ k + 1 < stop ∧ p.indices[k]? = some before ∧ p.indices[k + 1]? = some col ∧
        col ≤ before
  | .columnOutOfBounds row col cols =>
    row < p.rows ∧ cols = p.cols ∧ cols ≤ col ∧ ∃ start stop k,
      p.rowRange? row = some (start, stop) ∧ start ≤ k ∧ k < stop ∧ p.indices[k]? = some col

/-- A row ends past the last column. -/
def Overshoots (p : Pattern) : Prop :=
  ∃ row < p.rows, ∃ start stop, p.rowRange? row = some (start, stop) ∧ p.stored < stop

/-- What an error stands for: the violation it names, or a row that ends past the last column, which
    goes by the name of wrong bounds. -/
def Faulty (p : Pattern) (e : PatternError) : Prop :=
  p.Violates e ∨ e = .offsetsBounds p.stored ∧ p.Overshoots

/-- The compressed-row form has no violation. -/
theorem Compressed.not_faulty (h : p.Compressed) (e : PatternError) : ¬ p.Faulty e := by
  rintro (hviolates | ⟨_, row, hrow, _, _, hrange, hover⟩)
  · cases e with
    | offsetsLength expected found =>
        obtain ⟨rfl, rfl, hne⟩ := hviolates
        exact hne h.size_offsets
    | offsetsBounds stored =>
        obtain ⟨rfl, first, last, hfirst, hlast, hne⟩ := hviolates
        rw [getElem?_offsets h.size_offsets (Nat.zero_le p.rows), h.start_zero] at hfirst
        rw [getElem?_offsets h.size_offsets (Nat.le_refl p.rows), h.start_rows] at hlast
        exact hne.elim (· (Option.some.inj hfirst).symm) (· (Option.some.inj hlast).symm)
    | decreasingOffsets row =>
        obtain ⟨hrow, start, stop, hrange, hlt⟩ := hviolates
        obtain ⟨rfl, rfl⟩ := start_of_rowRange? hrange
        exact Nat.not_lt.2 (h.start_le_stop row hrow) hlt
    | unsortedColumns row col =>
        obtain ⟨hrow, start, stop, k, before, hrange, hk, hlt, hbefore, hcol, hle⟩ := hviolates
        obtain ⟨rfl, rfl⟩ := start_of_rowRange? hrange
        exact Nat.not_lt.2 hle (h.lt_of_positions hrow hk (Nat.lt_succ_self k) hlt hbefore hcol)
    | columnOutOfBounds row col cols =>
        obtain ⟨hrow, rfl, hle, start, stop, k, hrange, hk, hlt, hcol⟩ := hviolates
        obtain ⟨rfl, rfl⟩ := start_of_rowRange? hrange
        exact Nat.not_lt.2 hle (h.bounded row hrow col (mem_row_iff.2 ⟨k, hk, hlt, hcol⟩))
  · obtain ⟨rfl, rfl⟩ := start_of_rowRange? hrange
    exact Nat.not_lt.2 (h.stop_le_stored hrow) hover

/-! ## The columns of a row -/

/-- Columns pass if they lie in the matrix and ascend from the one before them; otherwise one that
    does not lie in the matrix is reported, or one that is not above the one before it. -/
theorem checkColumns_cases (cols row : Nat) (previous : Option Nat) (xs : List Nat) :
    (checkColumns cols row previous xs = .ok () ∧ (∀ col ∈ xs, col < cols) ∧
        (previous.toList ++ xs).Pairwise (· < ·)) ∨
      (∃ k col : Nat, xs[k]? = some col ∧ cols ≤ col ∧
        checkColumns cols row previous xs = .error (.columnOutOfBounds row col cols)) ∨
      ∃ k before col : Nat, (previous.toList ++ xs)[k]? = some before ∧
        (previous.toList ++ xs)[k + 1]? = some col ∧ col ≤ before ∧
          checkColumns cols row previous xs = .error (.unsortedColumns row col) := by
  -- places count from the column before the list, so that they move on by one from step to step
  induction xs generalizing previous with
  | nil =>
      refine Or.inl ⟨rfl, by simp, ?_⟩
      cases previous <;> simp
  | cons x rest ih =>
      by_cases hout : cols ≤ x
      · exact Or.inr (Or.inl ⟨0, x, rfl, hout, if_pos hout⟩)
      by_cases hback : previous.any (x ≤ ·) = true
      · obtain ⟨q, rfl, hq⟩ := (Option.any_eq_true ..).1 hback
        refine Or.inr (Or.inr ⟨0, q, x, rfl, rfl, by simpa using hq, ?_⟩)
        rw [checkColumns, if_neg hout, if_pos hback]
      have hstep : checkColumns cols row previous (x :: rest) =
          checkColumns cols row (some x) rest := by
        rw [checkColumns, if_neg hout, if_neg hback]
      rw [hstep]
      rcases ih (some x) with ⟨hok, hbounded, hasc⟩ | ⟨k, col, hcol, hle, herror⟩ |
        ⟨k, before, col, hbefore, hcol, hle, herror⟩
      · refine Or.inl ⟨hok, ?_, ?_⟩
        · intro col hcol
          rcases List.mem_cons.1 hcol with rfl | hcol
          · exact Nat.lt_of_not_le hout
          · exact hbounded col hcol
        · cases previous with
          | none => exact hasc
          | some q =>
              have hq : q < x := by simpa using hback
              refine List.pairwise_cons.2 ⟨fun y hy => ?_, hasc⟩
              rcases List.mem_cons.1 hy with rfl | hy
              · exact hq
              · exact hq.trans ((List.pairwise_cons.1 hasc).1 y hy)
      · exact Or.inr (Or.inl ⟨k + 1, col, hcol, hle, herror⟩)
      · cases previous with
        | none => exact Or.inr (Or.inr ⟨k, before, col, hbefore, hcol, hle, herror⟩)
        | some q => exact Or.inr (Or.inr ⟨k + 1, before, col, hbefore, hcol, hle, herror⟩)

/-! ## Rows -/

/-- A row has the compressed-row form: it lies among the columns, and its own columns are ascending
    and lie in the matrix. -/
structure RowFits (p : Pattern) (row : Nat) : Prop where
  /-- It does not end before it begins. -/
  start_le_stop : p.start row ≤ p.stop row
  /-- It ends among the columns. -/
  stop_le_stored : p.stop row ≤ p.stored
  /-- Its columns are ascending. -/
  ascending : (p.row row).Pairwise (· < ·)
  /-- Its columns lie in the matrix. -/
  bounded : ∀ col ∈ p.row row, col < p.cols

theorem getElem?_of_row {k col : Nat} (h : (p.row row)[k]? = some col) :
    p.start row + k < p.stop row ∧ p.indices[p.start row + k]? = some col := by
  rw [getElem?_row] at h
  split at h
  · exact ⟨by omega, h⟩
  · cases h

/-- A row passes its check, or the error is about the row. -/
theorem checkRow_cases (hsize : p.offsets.size = p.rows + 1) (hrow : row < p.rows) :
    (p.checkRow row = .ok () ∧ p.RowFits row) ∨
      ∃ e, p.checkRow row = Outcome.fail e ∧ p.Faulty e := by
  have hrange := rowRange?_of_size hsize hrow
  have hcheck : p.checkRow row =
      if p.stop row < p.start row then Outcome.fail (.decreasingOffsets row)
      else if p.stored < p.stop row then Outcome.fail (.offsetsBounds p.stored)
      else Outcome.orAbort (p.columns? (p.start row) (p.stop row)) >>= fun columns =>
        Outcome.ofExcept (checkColumns p.cols row none columns) := by
    rw [checkRow, hrange]
    rfl
  by_cases hdecreasing : p.stop row < p.start row
  · exact Or.inr ⟨_, hcheck.trans (if_pos hdecreasing),
      Or.inl ⟨hrow, _, _, hrange, hdecreasing⟩⟩
  by_cases hover : p.stored < p.stop row
  · exact Or.inr ⟨_, hcheck.trans ((if_neg hdecreasing).trans (if_pos hover)),
      Or.inr ⟨rfl, row, hrow, _, _, hrange, hover⟩⟩
  have hle := Nat.le_of_not_lt hdecreasing
  have hstored := Nat.le_of_not_lt hover
  -- both offsets are in order now, so the columns between them can be read
  rw [if_neg hdecreasing, if_neg hover, columns?_eq hle hstored] at hcheck
  rcases checkColumns_cases p.cols row none (p.row row) with ⟨hok, hbounded, hasc⟩ |
    ⟨k, col, hcol, hout, herror⟩ | ⟨k, before, col, hbefore, hcol, hback, herror⟩
  · refine Or.inl ⟨hcheck.trans ?_, hle, hstored, hasc, hbounded⟩
    exact congrArg Outcome.ofExcept hok
  · obtain ⟨hlt, hget⟩ := getElem?_of_row hcol
    refine Or.inr ⟨_, hcheck.trans (congrArg Outcome.ofExcept herror), Or.inl ?_⟩
    exact ⟨hrow, rfl, hout, _, _, _, hrange, Nat.le_add_right .., hlt, hget⟩
  · obtain ⟨hlt, hget⟩ := getElem?_of_row hcol
    obtain ⟨_, hget'⟩ := getElem?_of_row hbefore
    refine Or.inr ⟨_, hcheck.trans (congrArg Outcome.ofExcept herror), Or.inl ?_⟩
    exact ⟨hrow, _, _, _, before, hrange, Nat.le_add_right .., hlt, hget', hget, hback⟩

/-- All rows pass their checks, or the error is about one of them. -/
theorem checkRows_cases (hsize : p.offsets.size = p.rows + 1) (rows : List Nat)
    (hrows : ∀ row ∈ rows, row < p.rows) :
    (p.checkRows rows = .ok () ∧ ∀ row ∈ rows, p.RowFits row) ∨
      ∃ e, p.checkRows rows = Outcome.fail e ∧ p.Faulty e := by
  induction rows with
  | nil => exact Or.inl ⟨rfl, by simp⟩
  | cons row rest ih =>
      rcases checkRow_cases hsize (hrows row (List.mem_cons_self ..)) with ⟨hok, hfits⟩ |
        ⟨e, herror, hfaulty⟩
      · have hstep : p.checkRows (row :: rest) = p.checkRows rest := by
          rw [checkRows, hok]
          rfl
        rw [hstep]
        rcases ih fun row hrow => hrows row (List.mem_cons_of_mem _ hrow) with ⟨hrest, hall⟩ | hrest
        · exact Or.inl ⟨hrest, List.forall_mem_cons.2 ⟨hfits, hall⟩⟩
        · exact Or.inr hrest
      · refine Or.inr ⟨e, ?_, hfaulty⟩
        rw [checkRows, herror]
        rfl

/-! ## All arrays -/

/-- Arrays have the compressed-row form and pass, or the error is about them. -/
theorem validate_cases (hword : p.rows + 1 < Word.bound) :
    (p.validate = .ok () ∧ p.Compressed) ∨
      ∃ e, p.validate = Outcome.fail e ∧ p.Faulty e := by
  have hadd : Word.add? p.rows 1 = some (p.rows + 1) := if_pos hword
  by_cases hsize : p.offsets.size = p.rows + 1
  · have hfirst := getElem?_offsets hsize (Nat.zero_le p.rows)
    have hlast := getElem?_offsets hsize (Nat.le_refl p.rows)
    have hvalidate : p.validate =
        if p.start 0 ≠ 0 ∨ p.start p.rows ≠ p.stored then Outcome.fail (.offsetsBounds p.stored)
        else p.checkRows (List.range p.rows) := by
      rw [validate, hadd, hfirst, hlast]
      exact if_neg (not_not.2 hsize)
    by_cases hends : p.start 0 ≠ 0 ∨ p.start p.rows ≠ p.stored
    · exact Or.inr ⟨_, hvalidate.trans (if_pos hends), Or.inl ⟨rfl, _, _, hfirst, hlast, hends⟩⟩
    · rw [if_neg hends] at hvalidate
      rw [hvalidate]
      obtain ⟨hzero, hrows⟩ := not_or.1 hends
      rcases checkRows_cases hsize (List.range p.rows) fun row => List.mem_range.1 with
        ⟨hok, hfits⟩ | herror
      · have hfits : ∀ row < p.rows, p.RowFits row := fun row hrow => hfits row (List.mem_range.2 hrow)
        refine Or.inl ⟨hok, ?_⟩
        exact {
          start_zero := not_not.1 hzero
          start_rows := not_not.1 hrows
          start_le_stop := fun row hrow => (hfits row hrow).start_le_stop
          ascending := fun row hrow => (hfits row hrow).ascending
          bounded := fun row hrow => (hfits row hrow).bounded
          size_offsets := hsize }
      · exact Or.inr herror
  · refine Or.inr ⟨.offsetsLength (p.rows + 1) p.offsets.size, ?_, Or.inl ⟨rfl, rfl, hsize⟩⟩
    rw [validate, hadd]
    exact if_pos hsize

theorem validate_eq_ok_iff (hword : p.rows + 1 < Word.bound) :
    p.validate = .ok () ↔ p.Compressed := by
  rcases validate_cases hword with ⟨hok, hcompressed⟩ | ⟨e, herror, hfaulty⟩
  · exact iff_of_true hok hcompressed
  · refine iff_of_false (fun hok => ?_) fun h => h.not_faulty e hfaulty
    rw [herror] at hok
    cases hok

/-- Rows and entries can be read without leaving the arrays, and what is read is what is stored. -/
structure Readable (p : Pattern) : Prop where
  /-- Each row has its two offsets, in order and among the columns. -/
  range : ∀ row < p.rows, p.rowRange? row = some (p.start row, p.stop row) ∧
    p.start row ≤ p.stop row ∧ p.stop row ≤ p.stored
  /-- The columns of each row can be read. -/
  row : ∀ row < p.rows, p.row? row = some (p.row row)
  /-- All entries can be read, one for each position. -/
  entries : p.entries? = some p.entries ∧
    p.entries.map (fun entry => entry.2.2) = List.range p.stored

theorem Compressed.readable (h : p.Compressed) : p.Readable where
  range row hrow := ⟨h.rowRange?_eq hrow, h.start_le_stop row hrow, h.stop_le_stored hrow⟩
  row _ hrow := h.row?_eq hrow
  entries := ⟨h.entries?_eq, h.positions_entries⟩

theorem ofArrays_eq (p : Pattern) :
    ofArrays p.rows p.cols p.offsets p.indices = p.validate >>= fun _ => .ok p := by
  obtain ⟨rows, cols, offsets, indices⟩ := p
  dsimp only [ofArrays]
  cases validate ⟨rows, cols, offsets, indices⟩ <;> rfl

/-- **Validation.** Two arrays, whatever they hold, are accepted just if they have the compressed-row
    form, and then rows and entries can be read without leaving them. Otherwise there is an error, and
    the violation that it names is there, or it is one of wrong bounds and a row ends past the last
    column. No arrays lead to an abort. -/
theorem ofArrays_spec {rows cols : Nat} {offsets indices : Array Nat}
    (hword : rows + 1 < Word.bound) :
    let p : Pattern := ⟨rows, cols, offsets, indices⟩
    (ofArrays rows cols offsets indices = .ok p ∧ p.Compressed ∧ p.Readable) ∨
      ¬ p.Compressed ∧ ∃ e, ofArrays rows cols offsets indices = Outcome.fail e ∧
        (p.Violates e ∨ e = .offsetsBounds p.stored ∧ p.Overshoots) := by
  intro p
  rcases validate_cases (p := p) hword with ⟨hok, hcompressed⟩ | ⟨e, herror, hfaulty⟩
  · exact Or.inl ⟨(ofArrays_eq p).trans (by rw [hok]; rfl), hcompressed, hcompressed.readable⟩
  · refine Or.inr ⟨fun h => h.not_faulty e hfaulty, e, ?_, hfaulty⟩
    exact (ofArrays_eq p).trans (by rw [herror]; rfl)

/-- A pattern of three rows, the middle one empty, is accepted and can be read. -/
theorem emptyRow_ofArrays :
    let p : Pattern := ⟨3, 4, #[0, 2, 2, 4], #[0, 2, 1, 3]⟩
    3 + 1 < Word.bound ∧ ofArrays 3 4 #[0, 2, 2, 4] #[0, 2, 1, 3] = .ok p ∧ p.Compressed ∧
      p.Readable := by
  intro p
  have hword : 3 + 1 < Word.bound := by decide
  have haccepted : ofArrays 3 4 #[0, 2, 2, 4] #[0, 2, 1, 3] = .ok p := by decide
  rcases @ofArrays_spec 3 4 #[0, 2, 2, 4] #[0, 2, 1, 3] hword with hok | ⟨_, e, herror, _⟩
  · exact ⟨hword, hok⟩
  · rw [haccepted] at herror
    cases herror

/-- Offsets that go past the last column and come back are reported for their ends, which are right,
    and not for the row in which they decrease. -/
theorem strayOffset_misnamed :
    let p : Pattern := ⟨2, 2, #[0, 5, 2], #[0, 1]⟩
    ofArrays 2 2 #[0, 5, 2] #[0, 1] = Outcome.fail (.offsetsBounds 2) ∧
      ¬ p.Violates (.offsetsBounds 2) ∧ p.Violates (.decreasingOffsets 1) := by
  intro p
  refine ⟨by decide, ?_, by decide, 5, 2, rfl, by decide⟩
  rintro ⟨_, first, last, hfirst, hlast, hwrong⟩
  obtain rfl : 0 = first := Option.some.inj hfirst
  obtain rfl : 2 = last := Option.some.inj hlast
  exact hwrong.elim (· rfl) (· rfl)

end Pattern

end GraphTensor
