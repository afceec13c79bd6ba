import GraphTensor.Proofs.Machine.Sizes
set_option autoImplicit false

/-! # References that resolve

The pattern of a reference can be missing for three reasons: a set has no size, the reference is not
one that its source induces, or the arrays of the pattern have no room in memory. The first two do
not arise for a reference that can lie on a tensor whose function declares the set of a diagonal:
there the reference resolves to a pattern with as many rows and columns as its sets have elements,
unless one of these sets is too large for the arrays (`Resolution.Resolves`). -/

namespace GraphTensor

/-! ## Patterns that have room -/

theorem Pattern.exists_ofCoordinates? {rows cols : Nat} {cs : List (Nat × Nat)}
    (hroom : (rows + 1) * 8 < 2 ^ 63) (hinside : ∀ c ∈ cs, c.1 < rows ∧ c.2 < cols) :
    ∃ p, ofCoordinates? rows cols cs = some p :=
  ⟨_, Pattern.ofCoordinates?_eq_some_iff.2 ⟨hroom, hinside, rfl⟩⟩

theorem Pattern.exists_diagonal? {n : Nat} (hroom : (n + 1) * 8 < 2 ^ 63) :
    ∃ p, diagonal? n = some p := by
  rw [diagonal?, Word.cells?, if_pos hroom]
  exact ⟨_, rfl⟩

theorem Pattern.Compressed.exists_transpose? {p : Pattern} (h : p.Compressed)
    (hroom : (p.cols + 1) * 8 < 2 ^ 63) : ∃ q, p.transpose? = some q := by
  rw [transpose?, h.entries?_eq]
  refine Pattern.exists_ofCoordinates? hroom fun c hc => ?_
  obtain ⟨⟨i, j, position⟩, hentry, rfl⟩ := List.mem_map.1 hc
  exact ⟨h.col_lt hentry, Pattern.row_lt hentry⟩

namespace Topology.InRange

variable {t : Topology}

theorem exists_squarePattern? (h : t.InRange) (hroom : t.endpointCount * 16 < 2 ^ 63) :
    ∃ p, t.squarePattern? = some p := by
  rw [squarePattern?, Word.cells?, if_pos hroom]
  refine Pattern.exists_ofCoordinates? (by omega) fun c hc => ?_
  rcases List.mem_append.1 hc with hc | hc
  · obtain ⟨i, hi, rfl⟩ := List.mem_map.1 hc
    exact ⟨List.mem_range.1 hi, List.mem_range.1 hi⟩
  · obtain ⟨es, hes, hpair⟩ := List.mem_flatMap.1 hc
    obtain ⟨e, _, rfl⟩ := mem_elements_iff.1 hes
    obtain ⟨hrow, hcol⟩ := mem_endpointPairs_iff.1 hpair
    exact ⟨h.lt_of_mem_endpoints hrow, h.lt_of_mem_endpoints hcol⟩

theorem exists_incidencePattern? (h : t.InRange) (hroom : (t.size + 1) * 8 < 2 ^ 63) :
    ∃ p, t.incidencePattern? = some p := by
  refine Pattern.exists_ofCoordinates? hroom fun c hc => ?_
  obtain ⟨⟨es, e⟩, hes, hc⟩ := List.mem_flatMap.1 hc
  obtain ⟨v, hv, rfl⟩ := List.mem_map.1 hc
  have hat := List.mk_mem_zipIdx_iff_getElem?.1 hes
  obtain ⟨he, hes⟩ : e < t.size ∧ t.endpoints e = es := by
    simpa [elements, List.getElem?_map, List.getElem?_eq_some_iff] using hat
  exact ⟨he, h.lt_of_mem_endpoints (hes ▸ hv)⟩

theorem exists_coincidencePattern? (h : t.InRange) (hroom : (t.size + 1) * 8 < 2 ^ 63)
    (hroom' : (t.endpointCount + 1) * 8 < 2 ^ 63) :
    ∃ p, t.incidencePattern?.bind Pattern.transpose? = some p := by
  obtain ⟨q, hq⟩ := h.exists_incidencePattern? hroom
  obtain ⟨_, _, hcols, _⟩ := incidencePattern?_spec hq
  rw [hq]
  exact (Pattern.compressed_of_ofCoordinates? hq).exists_transpose? (hcols ▸ hroom')

end Topology.InRange

/-! ## References -/

namespace Resolution

variable {α : Type} {r : Resolution} {f : Func α} {b : Bindings α}

/-- A reference resolves: its rows and columns are sets that have sizes, and it stands for a
    pattern of these sizes. Only where a size is so large that the arrays of the pattern may not
    have room is the outcome an abort. -/
def Resolves (r : Resolution) (p : PatternRef) : Prop :=
  ∃ rows cols, r.size p.rows = .ok rows ∧ r.size p.cols = .ok cols ∧
    ((∃ q, r.build p = .ok q ∧ q.rows = rows ∧ q.cols = cols) ∨
      r.build p = .error .abort ∧ (2 ^ 59 ≤ rows ∨ 2 ^ 59 ≤ cols))

theorem build_orAbort {p : PatternRef} {o : Option Pattern} {rows cols : Nat}
    (hbuild : r.build p = Outcome.orAbort o)
    (hsizes : ∀ q, o = some q → q.rows = rows ∧ q.cols = cols)
    (hroom : rows < 2 ^ 59 → cols < 2 ^ 59 → ∃ q, o = some q) :
    (∃ q, r.build p = .ok q ∧ q.rows = rows ∧ q.cols = cols) ∨
      r.build p = .error .abort ∧ (2 ^ 59 ≤ rows ∨ 2 ^ 59 ≤ cols) := by
  cases o with
  | some q => exact Or.inl ⟨q, hbuild, hsizes q rfl⟩
  | none =>
      refine Or.inr ⟨hbuild, ?_⟩
      by_contra hsmall
      obtain ⟨hrows, hcols⟩ := not_or.1 hsmall
      obtain ⟨q, hq⟩ := hroom (Nat.lt_of_not_le hrows) (Nat.lt_of_not_le hcols)
      cases hq

theorem Fits.resolves_diagonal (h : r.Fits f b) {p : PatternRef} (hdiagonal : p.isDiagonal = true)
    {var : VarName} {type : TensorType} (hinduces : f.checkInduces var p type = .ok ())
    (hdeclared : (f.set? p.rows).isSome = true) : r.Resolves p := by
  obtain ⟨decl, hdecl⟩ := Option.isSome_iff_exists.1 hdeclared
  obtain ⟨hname, hmem⟩ := Func.name_of_set? hdecl
  obtain ⟨n, hn⟩ := Option.isSome_iff_exists.1 (h.declared decl hmem)
  rw [hname] at hn
  have hsize := size_eq_ok_iff.2 hn
  have heq := f.eq_diagonal_of_checkInduces hinduces hdiagonal
  have hcols : p.cols = p.rows := congrArg PatternRef.cols heq
  refine ⟨n, n, hsize, hcols ▸ hsize, build_orAbort (o := Pattern.diagonal? n) ?_ ?_ ?_⟩
  · rw [heq]
    simp only [build, PatternRef.diagonal, and_self, if_true, hsize]
    rfl
  · intro q hq
    obtain ⟨_, hrows, hcols, _⟩ := Pattern.diagonal?_spec hq
    exact ⟨hrows, hcols⟩
  · intro hsmall _
    exact Pattern.exists_diagonal? (by omega)

/-- The patterns that a relation induces resolve, whichever of them a reference is. -/
theorem resolves_of_topology {p : PatternRef} {relation : SetName} {t : Topology}
    (hsource : p.source = .relation relation) (htopology : r.topology relation = .ok t)
    (hin : t.InRange) (hendpoints : r.size t.endpointSet = .ok t.endpointCount)
    (helements : r.size relation = .ok t.size)
    (hinduced : p = .square relation t.endpointSet ∨ p = .incidence relation t.endpointSet ∨
      p = .coincidence relation t.endpointSet) : r.Resolves p := by
  -- the square pattern comes first where the relation is its own endpoint set
  by_cases hsquare : p.rows = t.endpointSet ∧ p.cols = t.endpointSet
  · refine ⟨_, _, hsquare.1.symm ▸ hendpoints, hsquare.2.symm ▸ hendpoints,
      build_orAbort (o := t.squarePattern?) ?_ ?_ ?_⟩
    · simp only [build, hsource, htopology]
      exact if_pos hsquare
    · intro q hq
      obtain ⟨_, hrows, hcols, _⟩ := Topology.squarePattern?_spec hq
      exact ⟨hrows, hcols⟩
    · intro hsmall _
      exact hin.exists_squarePattern? (by omega)
  rcases hinduced with rfl | rfl | rfl
  · exact absurd ⟨rfl, rfl⟩ hsquare
  · refine ⟨_, _, helements, hendpoints, build_orAbort (o := t.incidencePattern?) ?_ ?_ ?_⟩
    · simp only [build, PatternRef.incidence, htopology]
      exact (if_neg hsquare).trans (if_pos ⟨trivial, rfl⟩)
    · intro q hq
      obtain ⟨_, hrows, hcols, _⟩ := Topology.incidencePattern?_spec hq
      exact ⟨hrows, hcols⟩
    · intro hsmall _
      exact hin.exists_incidencePattern? (by omega)
  · have hmixed : ¬ (t.endpointSet = relation ∧ relation = t.endpointSet) :=
      fun heq => hsquare ⟨rfl, heq.2⟩
    refine ⟨_, _, hendpoints, helements,
      build_orAbort (o := t.incidencePattern?.bind Pattern.transpose?) ?_ ?_ ?_⟩
    · simp only [build, PatternRef.coincidence, htopology]
      exact (if_neg hsquare).trans ((if_neg hmixed).trans (if_pos ⟨rfl, trivial⟩))
    · intro q hq
      obtain ⟨_, hrows, hcols, _⟩ := Topology.coincidencePattern?_spec hq
      exact ⟨hrows, hcols⟩
    · intro hsmall hsmall'
      exact hin.exists_coincidencePattern? (by omega) (by omega)

/-- **Resolving a reference.** Under bindings that suit a function, a reference that can lie on a
    tensor resolves, if a diagonal is over a declared set. -/
theorem Fits.resolves (h : r.Fits f b) (hcheck : b.check f = .ok ()) {var : VarName}
    {p : PatternRef} {type : TensorType} (hinduces : f.checkInduces var p type = .ok ())
    (hdeclared : p.isDiagonal = true → (f.set? p.rows).isSome = true) : r.Resolves p := by
  cases hsource : p.source with
  | diagonal set =>
      have hdiagonal : p.isDiagonal = true := by rw [PatternRef.isDiagonal, hsource]
      exact h.resolves_diagonal hdiagonal hinduces (hdeclared hdiagonal)
  | relation relation =>
      obtain ⟨decl, ep, hdecl, hep, hinduced⟩ := f.relation_of_checkInduces hinduces hsource
      obtain ⟨hname, hmem⟩ := Func.name_of_set? hdecl
      obtain ⟨t, ht, hend, _⟩ := h.made decl hmem ep hep
      rw [hname] at ht
      have htopology := topology_eq_ok_iff.2 ht
      obtain ⟨_, hcount, hin⟩ := h.topologies relation t ht
      exact resolves_of_topology hsource htopology hin (size_eq_ok_iff.2 hcount)
        (hname ▸ h.size_eq hcheck hmem hep (hname.symm ▸ htopology)) (hend ▸ hinduced)

theorem large_of_orAbort {o : Option Pattern} {rows cols : Nat}
    (h : (Outcome.orAbort o : Ran Pattern) = .error .abort)
    (hroom : rows < 2 ^ 59 → cols < 2 ^ 59 → ∃ q, o = some q) : 2 ^ 59 ≤ rows ∨ 2 ^ 59 ≤ cols := by
  by_contra hsmall
  obtain ⟨hrows, hcols⟩ := not_or.1 hsmall
  obtain ⟨q, rfl⟩ := hroom (Nat.lt_of_not_le hrows) (Nat.lt_of_not_le hcols)
  cases h

/-- **References that have no room.** Whatever a reference is, it fails to resolve for lack of room
    only if the set of its rows or that of its columns is large. -/
theorem large_of_build_abort (htopologies : r.TopologiesFit)
    (hsizes : ∀ relation t, r.topology relation = .ok t → r.size relation = .ok t.size)
    {p : PatternRef} (h : r.build p = .error .abort) :
    ∃ n, (r.size p.rows = .ok n ∨ r.size p.cols = .ok n) ∧ 2 ^ 59 ≤ n := by
  suffices hlarge : ∃ rows cols, r.size p.rows = .ok rows ∧ r.size p.cols = .ok cols ∧
      (2 ^ 59 ≤ rows ∨ 2 ^ 59 ≤ cols) by
    obtain ⟨rows, cols, hrows, hcols, hsize | hsize⟩ := hlarge
    · exact ⟨rows, Or.inl hrows, hsize⟩
    · exact ⟨cols, Or.inr hcols, hsize⟩
  cases hsource : p.source with
  | diagonal set =>
      simp only [build, hsource] at h
      split at h
      · next heq =>
          obtain ⟨n, hn, habort⟩ := (Except.bind_eq_error h).resolve_left Outcome.orFail_ne_abort
          exact ⟨n, n, heq.1.symm ▸ hn, heq.2.symm ▸ hn,
            large_of_orAbort habort fun hsmall _ => Pattern.exists_diagonal? (by omega)⟩
      · cases h
  | relation relation =>
      simp only [build, hsource] at h
      obtain ⟨t, ht, h⟩ := (Except.bind_eq_error h).resolve_left Outcome.orFail_ne_abort
      obtain ⟨_, hcount, hin⟩ := htopologies relation t (topology_eq_ok_iff.1 ht)
      have hendpoints : r.size t.endpointSet = .ok t.endpointCount := size_eq_ok_iff.2 hcount
      have helements : r.size relation = .ok t.size := hsizes relation t ht
      split at h
      · next heq =>
          exact ⟨_, _, heq.1.symm ▸ hendpoints, heq.2.symm ▸ hendpoints,
            large_of_orAbort h fun hsmall _ => hin.exists_squarePattern? (by omega)⟩
      · split at h
        · next heq =>
            exact ⟨_, _, heq.1.symm ▸ helements, heq.2.symm ▸ hendpoints,
              large_of_orAbort h fun hsmall _ => hin.exists_incidencePattern? (by omega)⟩
        · split at h
          · next heq =>
              exact ⟨_, _, heq.1.symm ▸ hendpoints, heq.2.symm ▸ helements,
                large_of_orAbort h fun hsmall hsmall' =>
                  hin.exists_coincidencePattern? (by omega) (by omega)⟩
          · cases h

end Resolution

end GraphTensor
