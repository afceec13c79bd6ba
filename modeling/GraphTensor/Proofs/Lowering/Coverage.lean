import GraphTensor.Proofs.Lowering.Elements
import GraphTensor.Proofs.Machine.Inversion
import GraphTensor.Proofs.Machine.Misses
import Mathlib.Data.List.Permutation
set_option autoImplicit false

/-! # Whether kernels find what they write

A kernel writes into a sparse target only at places that are known to range over the target's
pattern (`KernelContext.RangesOver`). That is decided by the names of sets, before anything is
bound; which pattern a reference stands for is told by names too, the square pattern coming first.
The two agree unless a relation has its endpoints in itself: then the pattern from elements to
endpoints is taken for the square pattern, and whether a write finds its place (`Topology.Finds`)
depends on the tuples.

A run goes through the elements in order and stops at the first that misses. `KernelContext.Tells`
carries this through statements, kernels and loops: a miss tells that some element does not find a
place, and success that all elements have found theirs. -/

namespace GraphTensor

variable {α : Type}

/-! ## Places of a write -/

/-- The place of an element's write is stored. Writes at two endpoints, or twice at the element, lie
    in the pattern in any case. -/
def Topology.Finds (t : Topology) (e : Nat) : IndexRole → IndexRole → Prop
  | .element, .endpoint slot => ∀ v, (t.endpoints e)[slot]? = some v →
      if t.relation = t.endpointSet then e = v ∨ t.Share e v
      else ∃ w ∈ t.endpoints e, SignedWord.ofCount v = w
  | .endpoint slot, .element => ∀ v, (t.endpoints e)[slot]? = some v →
      t.relation = t.endpointSet → v = e ∨ t.Share v e
  | .element, .element => True
  | .endpoint _, .endpoint _ => True

/-- The roles are of different kinds. -/
def IndexRole.Mixed : IndexRole → IndexRole → Prop
  | .element, .endpoint _ => True
  | .endpoint _, .element => True
  | .element, .element => False
  | .endpoint _, .endpoint _ => False

/-- Over another set, whose elements signed words count, every element finds its places. -/
theorem Topology.finds_of_ne {t : Topology} (hin : t.InRange) (hne : t.relation ≠ t.endpointSet)
    (hsize : t.endpointCount ≤ 2 ^ 63) (e : Nat) (row col : IndexRole) : t.Finds e row col := by
  cases row with
  | element =>
      cases col with
      | element => trivial
      | endpoint slot =>
          intro v hv
          have hmem := List.mem_of_getElem? hv
          rw [if_neg hne]
          exact ⟨v, hmem, SignedWord.ofCount_of_lt
            ((hin.lt_of_mem_endpoints hmem).trans_le hsize)⟩
  | endpoint slot =>
      cases col with
      | element => exact fun v _ hself => absurd hself hne
      | endpoint other => trivial

/-! ## Patterns of a kernel's own relation -/

namespace Resolution

variable {r : Resolution} {t : Topology} {relation : SetName} {q : Pattern}

theorem diagonal_of_build {p : PatternRef} (hfit : r.TopologiesFit) (hsquare : p.rows = p.cols)
    (h : r.build p = .ok q) :
    ∃ n, r.sizes.get? p.rows = some n ∧ n < 2 ^ 63 ∧ ∀ i < n, (i, i) ∈ q.coordinates := by
  rcases build_cases h with ⟨set, n, rfl, hn, hq⟩ | ⟨relation, t, hsource, ht, hpattern⟩
  · obtain ⟨_, _, _, hroom, hmem⟩ := Pattern.diagonal?_spec hq
    exact ⟨n, size_eq_ok_iff.1 hn, by omega, fun i hi => (hmem i i).2 ⟨rfl, hi⟩⟩
  · rcases hpattern with ⟨hrows, _, hq⟩ | ⟨hne, hrows, hcols, _⟩ | ⟨hne, hrows, hcols, _⟩
    · obtain ⟨_, _, _, hroom, hmem⟩ := Topology.squarePattern?_spec hq
      obtain ⟨_, hcount, _⟩ := hfit relation t (topology_eq_ok_iff.1 ht)
      exact ⟨t.endpointCount, hrows ▸ hcount, by omega, fun i hi => (hmem i i).2 (Or.inl ⟨rfl, hi⟩)⟩
    · exact absurd (hrows.symm.trans (hsquare.trans hcols)) hne
    · exact absurd (hcols.symm.trans (hsquare.symm.trans hrows)) hne

theorem square_of_build (ht : r.topology relation = .ok t)
    (h : r.build (.square relation t.endpointSet) = .ok q) : t.squarePattern? = some q := by
  dsimp only [build, PatternRef.square] at h
  rw [ht] at h
  exact Outcome.orAbort_eq_ok_iff.1 ((if_pos ⟨rfl, rfl⟩).symm.trans h)

/-- The pattern from elements to endpoints is the square one if these are the same. -/
theorem incidence_of_build (ht : r.topology relation = .ok t)
    (h : r.build (.incidence relation t.endpointSet) = .ok q) :
    if relation = t.endpointSet then t.squarePattern? = some q else t.incidencePattern? = some q := by
  dsimp only [build, PatternRef.incidence] at h
  rw [ht] at h
  by_cases hself : relation = t.endpointSet
  · rw [if_pos hself]
    exact Outcome.orAbort_eq_ok_iff.1 ((if_pos ⟨hself, rfl⟩).symm.trans h)
  · rw [if_neg hself]
    have h := (if_neg fun heq => hself heq.1).symm.trans h
    exact Outcome.orAbort_eq_ok_iff.1 ((if_pos ⟨rfl, rfl⟩).symm.trans h)

theorem coincidence_of_build (ht : r.topology relation = .ok t)
    (h : r.build (.coincidence relation t.endpointSet) = .ok q) :
    if relation = t.endpointSet then t.squarePattern? = some q
    else t.incidencePattern?.bind Pattern.transpose? = some q := by
  dsimp only [build, PatternRef.coincidence] at h
  rw [ht] at h
  by_cases hself : relation = t.endpointSet
  · rw [if_pos hself]
    exact Outcome.orAbort_eq_ok_iff.1 ((if_pos ⟨rfl, hself⟩).symm.trans h)
  · rw [if_neg hself]
    have h := (if_neg fun heq => hself heq.2).symm.trans h
    have h := (if_neg fun heq => hself heq.1.symm).symm.trans h
    exact Outcome.orAbort_eq_ok_iff.1 ((if_pos ⟨rfl, rfl⟩).symm.trans h)

end Resolution

/-- The ways in which two roles are known to range over a pattern. -/
theorem SetDecl.covers_eq_true_iff {d : SetDecl} {p : PatternRef} {row col : IndexRole} :
    d.covers p row col = true ↔ (row = col ∧ p.rows = p.cols) ∨
      (p.source = .relation d.name ∧ d.inducedPattern? row col = some p) := by
  simp [covers]

/-- A write at two roles of a kernel ranges over a pattern, as far as names tell. -/
structure KernelContext.RangesOver (c : KernelContext) (r : Resolution) (p : PatternRef)
    (row col : IndexRole) : Prop where
  /-- The topologies fit the sizes. -/
  fits : r.TopologiesFit
  /-- The set of the kernel has its topology, if it is a relation. -/
  made : ∀ ep, c.set.endpoints = some ep →
    ∃ t, r.topology c.set.name = .ok t ∧ t.endpointSet = ep.set
  /-- The rows are what the first role ranges over. -/
  rowSet : c.set.roleSet? row = some p.rows
  /-- The columns are what the second role ranges over. -/
  colSet : c.set.roleSet? col = some p.cols
  /-- The places are known to lie in the pattern. -/
  covers : c.set.covers p row col = true

namespace KernelContext.RangesOver

variable {c : KernelContext} {r : Resolution} {p : PatternRef} {row col : IndexRole} {q : Pattern}
  {e n i j slot : Nat}

theorem topology (h : c.RangesOver r p row col)
    (hset : ∃ set, c.set.roleSet? (.endpoint slot) = some set) :
    ∃ ep t, c.set.endpoints = some ep ∧ r.topology c.set.name = .ok t ∧ t.endpointSet = ep.set ∧
      c.set.roleSet? (.endpoint slot) = some t.endpointSet ∧ t.relation = c.set.name ∧
        r.sizes.get? t.endpointSet = some t.endpointCount ∧ t.InRange := by
  obtain ⟨set, hset⟩ := hset
  obtain ⟨ep, hep, hslot⟩ := Option.bind_eq_some_iff.1 hset
  obtain ⟨t, ht, hend⟩ := h.made ep hep
  obtain ⟨hrel, hcount, hin⟩ := h.fits _ t (Resolution.topology_eq_ok_iff.1 ht)
  refine ⟨ep, t, hep, ht, hend, ?_, hrel, hcount, hin⟩
  split at hslot
  · cases hslot
    rw [hset, hend]
  · cases hslot

theorem stored_of_not_mixed (h : c.RangesOver r p row col) (hmixed : ¬ row.Mixed col)
    (hq : r.build p = .ok q) (hn : r.sizes.get? c.set.name = some n) (he : e < n)
    (hi : r.StandsFor c.set.name e row i) (hj : r.StandsFor c.set.name e col j) :
    i < 2 ^ 63 ∧ j < 2 ^ 63 ∧ (i, j) ∈ q.coordinates := by
  rcases SetDecl.covers_eq_true_iff.1 h.covers with ⟨rfl, hsquare⟩ | ⟨hsource, hinduced⟩
  · -- the roles are the same, and the pattern holds the diagonal
    obtain ⟨count, hcount, hroom, hdiagonal⟩ := Resolution.diagonal_of_build h.fits hsquare hq
    have hboth : i = j ∧ i < count := by
      cases row with
      | element =>
          obtain rfl : i = e := hi
          obtain rfl : j = i := hj
          have hset : c.set.name = p.rows := Option.some.inj h.rowSet
          rw [hset, hcount] at hn
          exact ⟨rfl, (Option.some.inj hn) ▸ he⟩
      | endpoint slot =>
          obtain ⟨t, ht, _, hti⟩ := hi
          obtain ⟨t', ht', _, htj⟩ := hj
          obtain rfl : t = t' := Except.ok.inj (ht.symm.trans ht')
          obtain rfl : i = j := Option.some.inj (hti.symm.trans htj)
          obtain ⟨_, t', _, ht', _, hset, _, hsize, hin⟩ := h.topology ⟨_, h.rowSet⟩
          obtain rfl : t = t' := Except.ok.inj (ht.symm.trans ht')
          rw [h.rowSet] at hset
          rw [← Option.some.inj hset, hcount] at hsize
          exact ⟨rfl, (Option.some.inj hsize) ▸ hin.lt_of_mem_endpoints (List.mem_of_getElem? hti)⟩
    obtain ⟨rfl, hlt⟩ := hboth
    exact ⟨hlt.trans hroom, hlt.trans hroom, hdiagonal i hlt⟩
  · cases row with
    | element =>
        cases col with
        | element =>
            -- a diagonal is not the pattern of a relation
            obtain rfl := Option.some.inj hinduced
            cases hsource
        | endpoint slot => exact absurd trivial hmixed
    | endpoint slot =>
        cases col with
        | element => exact absurd trivial hmixed
        | endpoint other =>
            obtain ⟨ep, t, hep, ht, hend, _, _, _, hin⟩ := h.topology ⟨_, h.rowSet⟩
            simp only [SetDecl.inducedPattern?, hep, Option.some.injEq] at hinduced
            rw [← hinduced, ← hend] at hq
            obtain ⟨_, _, _, hroom, hmem⟩ :=
              Topology.squarePattern?_spec (Resolution.square_of_build ht hq)
            obtain ⟨t', ht', hlt, hti⟩ := hi
            obtain rfl : t = t' := Except.ok.inj (ht.symm.trans ht')
            obtain ⟨t', ht', _, htj⟩ := hj
            obtain rfl : t = t' := Except.ok.inj (ht.symm.trans ht')
            have hi := List.mem_of_getElem? hti
            have hj := List.mem_of_getElem? htj
            have hilt := hin.lt_of_mem_endpoints hi
            have hjlt := hin.lt_of_mem_endpoints hj
            exact ⟨by omega, by omega, (hmem i j).2 (Or.inr ⟨e, hlt, hi, hj⟩)⟩

/-- The pattern that a kernel's writes at roles of two kinds range over. -/
theorem induced (h : c.RangesOver r p row col) (hmixed : row.Mixed col) :
    c.set.inducedPattern? row col = some p := by
  rcases SetDecl.covers_eq_true_iff.1 h.covers with ⟨rfl, _⟩ | ⟨_, hinduced⟩
  · cases row <;> exact hmixed.elim
  · exact hinduced

theorem miss_iff_element_endpoint (h : c.RangesOver r p .element (.endpoint slot))
    (hq : r.build p = .ok q) (hj : r.StandsFor c.set.name e (.endpoint slot) j) :
    ∃ t, r.topology c.set.name = .ok t ∧
      ((∀ a b : Nat, (e : Int) = a → SignedWord.ofCount j = b → (a, b) ∉ q.coordinates) ↔
        ¬ t.Finds e .element (.endpoint slot)) := by
  obtain ⟨ep, t, hep, ht, hend, _, hrel, _, hin⟩ := h.topology ⟨_, h.colSet⟩
  obtain ⟨t', ht', hlt, htj⟩ := hj
  obtain rfl : t = t' := Except.ok.inj (ht.symm.trans ht')
  have hinduced := h.induced trivial
  simp only [SetDecl.inducedPattern?, hep, Option.some.injEq] at hinduced
  rw [← hinduced, ← hend] at hq
  have hpattern := Resolution.incidence_of_build ht hq
  have hjlt := hin.lt_of_mem_endpoints (List.mem_of_getElem? htj)
  have hfinds : t.Finds e .element (.endpoint slot) ↔
      if t.relation = t.endpointSet then e = j ∨ t.Share e j
      else ∃ w ∈ t.endpoints e, SignedWord.ofCount j = w := by
    constructor
    · exact fun hall => hall j htj
    · intro hone v hv
      obtain rfl : j = v := Option.some.inj (htj.symm.trans hv)
      exact hone
  refine ⟨t, ht, ?_⟩
  rw [hfinds, hrel]
  split at hpattern
  · next hself =>
      obtain ⟨_, _, _, hroom, hmem⟩ := Topology.squarePattern?_spec hpattern
      rw [if_pos hself, SignedWord.ofCount_of_lt (by omega)]
      constructor
      · intro hnone hstored
        refine hnone e j rfl rfl ((hmem e j).2 (hstored.imp (fun heq => ⟨heq, hjlt⟩) id))
      · intro hnone a b ha hb hab
        obtain rfl : e = a := Int.ofNat.inj ha
        obtain rfl : j = b := Int.ofNat.inj hb
        exact hnone (((hmem e j).1 hab).imp And.left id)
  · next hself =>
      obtain ⟨_, _, _, _, hmem⟩ := Topology.incidencePattern?_spec hpattern
      rw [if_neg hself]
      constructor
      · rintro hnone ⟨w, hw, hjw⟩
        exact hnone e w rfl hjw ((hmem e w).2 ⟨hlt, hw⟩)
      · intro hnone a b ha hb hab
        obtain rfl : e = a := Int.ofNat.inj ha
        exact hnone ⟨b, ((hmem e b).1 hab).2, hb⟩

theorem miss_iff_endpoint_element (h : c.RangesOver r p (.endpoint slot) .element)
    (hq : r.build p = .ok q) (hi : r.StandsFor c.set.name e (.endpoint slot) i) :
    ∃ t, r.topology c.set.name = .ok t ∧
      ((∀ a b : Nat, SignedWord.ofCount i = a → (e : Int) = b → (a, b) ∉ q.coordinates) ↔
        ¬ t.Finds e (.endpoint slot) .element) := by
  obtain ⟨ep, t, hep, ht, hend, _, hrel, _, hin⟩ := h.topology ⟨_, h.rowSet⟩
  obtain ⟨t', ht', hlt, hti⟩ := hi
  obtain rfl : t = t' := Except.ok.inj (ht.symm.trans ht')
  have hinduced := h.induced trivial
  simp only [SetDecl.inducedPattern?, hep, Option.some.injEq] at hinduced
  rw [← hinduced, ← hend] at hq
  have hpattern := Resolution.coincidence_of_build ht hq
  have hmem := List.mem_of_getElem? hti
  have hilt := hin.lt_of_mem_endpoints hmem
  have hfinds : t.Finds e (.endpoint slot) .element ↔
      (t.relation = t.endpointSet → i = e ∨ t.Share i e) := by
    constructor
    · exact fun hall => hall i hti
    · intro hone v hv
      obtain rfl : i = v := Option.some.inj (hti.symm.trans hv)
      exact hone
  refine ⟨t, ht, ?_⟩
  rw [hfinds, hrel]
  split at hpattern
  · next hself =>
      obtain ⟨_, _, _, hroom, hstored⟩ := Topology.squarePattern?_spec hpattern
      rw [SignedWord.ofCount_of_lt (by omega)]
      constructor
      · intro hnone hfound
        refine hnone i e rfl rfl ((hstored i e).2 ((hfound hself).imp (fun heq => ⟨heq, ?_⟩) id))
        exact heq ▸ hilt
      · intro hnone a b ha hb hab
        obtain rfl : i = a := Int.ofNat.inj ha
        obtain rfl : e = b := Int.ofNat.inj hb
        exact hnone fun _ => ((hstored i e).1 hab).imp And.left id
  · next hself =>
      -- over another set the pair is an entry of the transposed pattern
      obtain ⟨_, _, _, _, hroom, hstored⟩ := Topology.coincidencePattern?_spec hpattern
      rw [SignedWord.ofCount_of_lt (by omega)]
      constructor
      · exact fun hnone => absurd ((hstored i e).2 ⟨hlt, hmem⟩) (hnone i e rfl rfl)
      · exact fun hnone => absurd (fun heq => absurd heq hself) hnone

end KernelContext.RangesOver

namespace Machine

variable {m : Machine α} {mem : Memory α}

/-- A search for a place gives a miss just if no entry is where its indices point. -/
theorem locateValue_eq_miss_iff {p : Pattern} (hp : p.Valid) {search : Search} {row col : Int} :
    (locateValue p search row col : Value α) = .miss ↔
      ∀ i j : Nat, row = i → col = j → (i, j) ∉ p.coordinates := by
  unfold locateValue SignedWord.toCount?
  by_cases hrow : 0 ≤ row
  · by_cases hcol : 0 ≤ col
    · obtain ⟨i, rfl⟩ := Int.eq_ofNat_of_zero_le hrow
      obtain ⟨j, rfl⟩ := Int.eq_ofNat_of_zero_le hcol
      simp only [Int.natCast_nonneg, if_true, Option.bind_eq_bind, Option.bind_some, Int.toNat_natCast,
        Nat.cast_inj]
      rw [show (∀ i' j' : Nat, i = i' → j = j' → (i', j') ∉ p.coordinates) ↔
          (i, j) ∉ p.coordinates by
        constructor
        · exact fun h => h i j rfl rfl
        · rintro h _ _ rfl rfl
          exact h, ← hp.locate_eq_none_iff search]
      cases p.locate search i j <;> simp [Value.ofCount]
    · simp only [hrow, hcol, if_true, if_false, Option.bind_eq_bind, Option.bind_some,
        Option.bind_none, true_iff]
      intro i j _ hj
      omega
  · simp only [hrow, if_false, Option.bind_eq_bind, Option.bind_none, true_iff]
    intro i j hi _
    omega

variable [Scalar α]

/-- The search for the place of a write, by the roles of its indices. -/
theorem eval_locate {c : KernelContext} {p : PatternRef} {row col : IndexRole}
    {e n : Nat} {search : Search} {v : Value α} (hranges : c.RangesOver m.resolution p row col)
    (hfit : m.resolution.PatternsFit) (hn : m.resolution.sizes.get? c.set.name = some n)
    (he : e < n) (helement : mem.locals.get? c.kernel.element.name = some (.ofCount e))
    (h : m.eval mem (.locate p (row.expr c) (col.expr c) search) = .ok v) :
    (¬ row.Mixed col → v ≠ .miss) ∧
      (row.Mixed col → ∃ (e' : Nat) (t : Topology), SignedWord.ofCount e = e' ∧
        m.resolution.topology c.set.name = .ok t ∧ (v = .miss ↔ ¬ t.Finds e' row col)) := by
  obtain ⟨q, rowValue, a, colValue, b, hq, hrow, ha, hcol, hb, rfl⟩ := eval_locate_eq_ok_iff.1 h
  rw [Resolution.pattern_eq_build hfit] at hq
  have hvalid := Resolution.valid_of_build hq
  have hrow := eval_roleExpr _ helement hrow
  have hcol := eval_roleExpr _ helement hcol
  cases row with
  | element =>
      obtain rfl : rowValue = .ofCount e := hrow
      obtain rfl : SignedWord.ofCount e = a := Except.ok.inj ha
      cases col with
      | element =>
          obtain rfl : colValue = .ofCount e := hcol
          obtain rfl : SignedWord.ofCount e = b := Except.ok.inj hb
          refine ⟨fun _ => ?_, fun hmixed => hmixed.elim⟩
          obtain ⟨hlt, _, hstored⟩ := hranges.stored_of_not_mixed id hq hn he rfl rfl
          rw [Ne, locateValue_eq_miss_iff hvalid]
          exact fun hnone => hnone e e (SignedWord.ofCount_of_lt hlt)
            (SignedWord.ofCount_of_lt hlt) hstored
      | endpoint slot =>
          obtain ⟨e', j, heq, rfl, hj⟩ := hcol
          obtain rfl : SignedWord.ofCount j = b := Except.ok.inj hb
          refine ⟨fun hnot => absurd trivial hnot, fun _ => ?_⟩
          obtain ⟨t, ht, hiff⟩ := hranges.miss_iff_element_endpoint hq hj
          exact ⟨e', t, heq, ht, by rw [locateValue_eq_miss_iff hvalid, heq, hiff]⟩
  | endpoint slot =>
      obtain ⟨e', i, heq, rfl, hi⟩ := hrow
      obtain rfl : SignedWord.ofCount i = a := Except.ok.inj ha
      cases col with
      | element =>
          obtain rfl : colValue = .ofCount e := hcol
          obtain rfl : SignedWord.ofCount e = b := Except.ok.inj hb
          refine ⟨fun hnot => absurd trivial hnot, fun _ => ?_⟩
          obtain ⟨t, ht, hiff⟩ := hranges.miss_iff_endpoint_element hq hi
          exact ⟨e', t, heq, ht, by rw [locateValue_eq_miss_iff hvalid, heq, hiff]⟩
      | endpoint other =>
          obtain ⟨e'', j, heq', rfl, hj⟩ := hcol
          obtain rfl : SignedWord.ofCount j = b := Except.ok.inj hb
          obtain rfl : e' = e'' := Int.ofNat.inj (heq.symm.trans heq')
          refine ⟨fun _ => ?_, fun hmixed => hmixed.elim⟩
          have hle := SignedWord.ofCount_le e
          obtain ⟨hilt, hjlt, hstored⟩ :=
            hranges.stored_of_not_mixed id hq hn (show e' < n by omega) hi hj
          rw [Ne, locateValue_eq_miss_iff hvalid]
          exact fun hnone => hnone i j (SignedWord.ofCount_of_lt hilt)
            (SignedWord.ofCount_of_lt hjlt) hstored

end Machine

/-! ## Kernels -/

namespace KernelVars

/-- Some write of a kernel into a sparse target is at indices with the given roles. -/
def WritesSparse (k : KernelVars) (storages : Storages) (body : List (Stmt α))
    (row col : IndexRole) : Prop :=
  ∃ target i j position value, .tensorWrite target [i, j] position value true ∈ body ∧
    (Table.pattern? storages target).isSome = true ∧ k.role? i = some row ∧ k.role? j = some col

variable {k : KernelVars} {storages : Storages} {s : Stmt α} {rest : List (Stmt α)}
  {row col : IndexRole}

theorem writesSparse_cons :
    k.WritesSparse storages (s :: rest) row col ↔
      k.WritesSparse storages [s] row col ∨ k.WritesSparse storages rest row col := by
  constructor
  · rintro ⟨target, i, j, position, value, hmem, hsparse⟩
    rcases List.mem_cons.1 hmem with rfl | hmem
    · exact Or.inl ⟨target, i, j, position, value, List.mem_singleton_self _, hsparse⟩
    · exact Or.inr ⟨target, i, j, position, value, hmem, hsparse⟩
  · rintro (⟨target, i, j, position, value, hmem, hsparse⟩ |
      ⟨target, i, j, position, value, hmem, hsparse⟩)
    · exact ⟨target, i, j, position, value, by simp [List.mem_singleton.1 hmem], hsparse⟩
    · exact ⟨target, i, j, position, value, List.mem_cons_of_mem _ hmem, hsparse⟩

end KernelVars

namespace KernelContext

section

variable [Scalar α]

/-- Some element up to a given one does not find the place of some write into a sparse target. -/
def MissesUpTo (c : KernelContext) (m : Machine α) (e : Nat) (body : List (Stmt α)) : Prop :=
  ∃ row col e' t, c.kernel.WritesSparse c.storages body row col ∧ e' ≤ e ∧
    m.resolution.topology c.set.name = .ok t ∧ ¬ t.Finds e' row col

/-- An element, as a signed word gives it, finds the places of all writes into sparse targets. -/
def FindsAll (c : KernelContext) (m : Machine α) (e : Nat) (body : List (Stmt α)) : Prop :=
  ∀ row col, c.kernel.WritesSparse c.storages body row col → row.Mixed col →
    ∃ (e' : Nat) (t : Topology), SignedWord.ofCount e = e' ∧
      m.resolution.topology c.set.name = .ok t ∧ t.Finds e' row col

/-- The memory during the visit of an element: every tensor has its buffer, and the element is
    bound. -/
structure AtElement (c : KernelContext) (m : Machine α) (e : Nat) (mem : Memory α) : Prop where
  /-- The memory is laid out as the descriptors say. -/
  laid : m.Laid c.storages mem
  /-- The element is bound. -/
  element : mem.locals.get? c.kernel.element.name = some (.ofCount e)

/-- A computation during the visit of an element misses only if the element does not find some place,
    and else it has found all of them. -/
structure Tells (c : KernelContext) (m : Machine α) (e : Nat) (body : List (Stmt α))
    (o : Ran (Memory α)) : Prop where
  /-- A miss tells of a place that is not found. -/
  miss : ∀ var, o = .error (.error (.sparseWriteMiss var)) → c.MissesUpTo m e body
  /-- Success tells that all are found. -/
  ok : ∀ mem, o = .ok mem → c.AtElement m e mem ∧ c.FindsAll m e body

variable {c : KernelContext} {f : Func α} {a : AccessContext α} {m : Machine α} {n e : Nat}
  {mem : Memory α} {scope : TypeScope α}

omit [Scalar α] in
/-- The roles of a checked write range over the pattern of its target. -/
theorem Runs.rangesOver (h : c.Runs f m n) (hknows : c.KnowsKernel scope) (hfunc : scope.func = f)
    {target : VarName} {indices : List (Expr α)} {value : Expr α} {type : TensorType}
    {row col : IndexRole} {storage : TensorStorage} {p : PatternRef}
    (hfits : c.WriteFits scope target indices value type [row, col] storage)
    (hp : storage.kind = .sparse p) : c.RangesOver m.resolution p row col := by
  obtain ⟨type', htype, hsuits⟩ := h.suits target storage hfits.hasStorage
  obtain rfl : type' = type := by
    have := hfits.isTensor
    rw [hfunc, htype] at this
    cases this
    rfl
  have hdims : type'.dims = [.set p.rows, .set p.cols] := by
    have hcheck := hsuits.pattern p hp
    unfold Func.checkInduces at hcheck
    by_cases hne : type'.dims = [.set p.rows, .set p.cols]
    · exact hne
    · simp [hne] at hcheck
  have hsets := hfits.hasRoles.dims_eq hknows (hfunc ▸ h.declared)
  rw [hdims] at hsets
  cases hsets with
  | cons hrow hrest =>
      cases hrest with
      | cons hcol _ =>
          obtain ⟨rowSet, hrowSet, hrow⟩ := hrow
          obtain ⟨colSet, hcolSet, hcol⟩ := hcol
          cases hrow
          cases hcol
          obtain ⟨row', col', rest, hroles, hcovers⟩ := hfits.covered p hp
          cases hroles
          exact ⟨h.topologies, h.made, hrowSet, hcolSet, hcovers⟩

omit [Scalar α] in
theorem MissesUpTo.mono {body body' : List (Stmt α)} {e' : Nat}
    (hwrites : ∀ row col, c.kernel.WritesSparse c.storages body row col →
      c.kernel.WritesSparse c.storages body' row col)
    (hle : e ≤ e') (h : c.MissesUpTo m e body) : c.MissesUpTo m e' body' := by
  obtain ⟨row, col, i, t, hmem, hi, ht, hnot⟩ := h
  exact ⟨row, col, i, t, hwrites row col hmem, hi.trans hle, ht, hnot⟩

omit [Scalar α] in
theorem findsAll_cons {s : Stmt α} {rest : List (Stmt α)} (hs : c.FindsAll m e [s])
    (hrest : c.FindsAll m e rest) : c.FindsAll m e (s :: rest) := fun row col hwrites hmixed =>
  (KernelVars.writesSparse_cons.1 hwrites).elim (fun h => hs row col h hmixed)
    fun h => hrest row col h hmixed

theorem Tells.cons {s s' : Stmt α} {rest rest' : List (Stmt α)}
    (hs : c.Tells m e [s] (m.exec s' mem))
    (hrest : ∀ mem', c.AtElement m e mem' → c.Tells m e rest (m.execAll rest' mem')) :
    c.Tells m e (s :: rest) (m.execAll (s' :: rest') mem) := by
  rw [Machine.execAll]
  cases hexec : m.exec s' mem with
  | error fault =>
      refine ⟨fun var h => ?_, fun mem' h => nomatch h⟩
      have h := hs.miss var (hexec.trans h)
      exact h.mono (fun row col hw => KernelVars.writesSparse_cons.2 (Or.inl hw)) le_rfl
  | ok next =>
      obtain ⟨hnext, hfinds⟩ := hs.ok next hexec
      have hrest := hrest next hnext
      refine ⟨fun var h => ?_, fun mem' h => ?_⟩
      · have h := hrest.miss var h
        exact h.mono (fun row col hw => KernelVars.writesSparse_cons.2 (Or.inr hw)) le_rfl
      · obtain ⟨hat, hfinds'⟩ := hrest.ok mem' h
        exact ⟨hat, findsAll_cons hfinds hfinds'⟩

/-- A statement that never misses and is no write into a sparse target tells nothing more than that
    the element stays bound. -/
theorem Tells.of_neverMisses {s : Stmt α} {o : Ran (Memory α)} (hnever : Ran.NeverMisses o)
    (hwrites : ∀ row col, ¬ c.kernel.WritesSparse c.storages [s] row col)
    (hok : ∀ mem', o = .ok mem' → c.AtElement m e mem') : c.Tells m e [s] o where
  miss := fun var h => absurd h (hnever.ne_miss var)
  ok := fun mem' h => ⟨hok mem' h, fun row col hw => absurd hw (hwrites row col)⟩

theorem tells_assign {s : Stmt α} {name : VarName} {value : Expr α} {accumulate : Bool}
    (hat : c.AtElement m e mem) (hs : s.boundName? = some name)
    (hkept : name ≠ c.kernel.element.name) :
    c.Tells m e [s] (m.assign mem name value accumulate) := by
  refine .of_neverMisses (m.neverMisses_assign ..) ?_ fun mem' h => ?_
  · rintro row col ⟨target, i, j, position, value, hmem, _⟩
    rw [← List.mem_singleton.1 hmem] at hs
    cases hs
  · have hchanges := Machine.changes_assign h
    refine ⟨hat.laid.changes hchanges, ?_⟩
    rw [hchanges.local_eq (by simpa using hkept.symm) (List.not_mem_nil)]
    exact hat.element

/-- A store where the places of a checked write are searched misses only if the element does not find
    its place, and else it has found it. -/
theorem tells_sparseStore (hruns : c.Runs f m n) (he : e < n) (hknows : c.KnowsKernel scope)
    (hfunc : scope.func = f) {target : VarName} {indices : List (Expr α)}
    {position : Option VarName} {value value' : Expr α} {type : TensorType} {row col : IndexRole}
    {storage : TensorStorage} {p : PatternRef} {search : Search}
    (hfits : c.WriteFits scope target indices value type [row, col] storage)
    (hkind : storage.kind = .sparse p) (hat : c.AtElement m e mem) :
    c.Tells m e [.tensorWrite target indices position value true]
      (m.exec (.sparseStore target (.locate p (row.expr c) (col.expr c) search) value' true
        storage.block) mem) := by
  have hranges := hruns.rangesOver hknows hfunc hfits hkind
  obtain ⟨i, j, rfl, hi, hj⟩ := hfits.hasRoles.pair
  have hsparse : (Table.pattern? c.storages target).isSome = true := by
    simp [Table.pattern?, hfits.hasStorage, TensorStorage.pattern?, hkind]
  have hlocate : ∀ v, m.eval mem (.locate p (row.expr c) (col.expr c) search) = .ok v → _ :=
    fun v => Machine.eval_locate hranges hruns.patterns hruns.size he hat.element
  refine ⟨fun var h => ?_, fun mem' h => ⟨⟨?_, ?_⟩, ?_⟩⟩
  · obtain ⟨hsame, hmixed⟩ := hlocate _ (Machine.miss_of_execSparseStore h)
    have hkinds : row.Mixed col := not_not.1 fun hnot => hsame hnot rfl
    obtain ⟨e', t, heq, ht, hmiss⟩ := hmixed hkinds
    have hle := SignedWord.ofCount_le e
    exact ⟨row, col, e', t, ⟨target, i, j, position, value, List.mem_singleton_self _, hsparse,
      hi, hj⟩, by omega, ht, hmiss.1 rfl⟩
  · exact hat.laid.changes (Machine.changes_exec _ h)
  · rw [(Machine.refills_execSparseStore h).locals_eq]
    exact hat.element
  · rintro row' col' ⟨_, i', j', _, _, hmem, _, hi', hj'⟩ hkinds
    cases List.mem_singleton.1 hmem
    obtain rfl : row = row' := Option.some.inj (hi.symm.trans hi')
    obtain rfl : col = col' := Option.some.inj (hj.symm.trans hj')
    obtain ⟨v, k, _, _, hv, hk, _⟩ := Machine.exec_sparseStore_eq_ok_iff.1 h
    have hfound : v ≠ .miss := by
      rintro rfl
      cases hk
    obtain ⟨e', t, heq, ht, hmiss⟩ := (hlocate v hv).2 hkinds
    exact ⟨e', t, heq, ht, not_not.1 fun hnot => hfound (hmiss.2 hnot)⟩

theorem tells_write (hruns : c.Runs f m n) (he : e < n) (hstorages : a.storages = c.storages)
    (hknows : c.KnowsKernel scope) (hfunc : scope.func = f) {target : VarName}
    {indices : List (Expr α)} {position : Option VarName} {value value' : Expr α}
    {type : TensorType} {roles : List IndexRole} {storage : TensorStorage} {s : Stmt α}
    (hfits : c.WriteFits scope target indices value type roles storage)
    (hs : a.lowerStmt (.tensorWrite target (roles.map (IndexRole.expr c)) none value' true) = .ok s)
    (hat : c.AtElement m e mem) :
    c.Tells m e [.tensorWrite target indices position value true] (m.exec s mem) := by
  obtain ⟨value'', _, hlowered⟩ := lowerStmt_write (hstorages ▸ hfits.hasStorage) hs
  have hnot : (∀ p, storage.kind ≠ .sparse p) → ∀ row col,
      ¬ c.kernel.WritesSparse c.storages [.tensorWrite target indices position value true] row col := by
    rintro hkind row col ⟨target', i, j, position', value', hmem, hsparse, _⟩
    cases List.mem_singleton.1 hmem
    simp only [Table.pattern?, hfits.hasStorage, Option.bind_some, TensorStorage.pattern?] at hsparse
    cases hk : storage.kind with
    | sparse p => exact hkind p hk
    | dense => simp [hk] at hsparse
    | register => simp [hk] at hsparse
  cases hkind : storage.kind with
  | dense =>
      rw [hkind] at hlowered
      obtain ⟨_, offset, _, _, _, rfl⟩ := hlowered
      refine .of_neverMisses (m.neverMisses_execStore ..) (hnot (by simp [hkind])) fun mem' h => ?_
      refine ⟨hat.laid.changes (Machine.changes_exec _ h), ?_⟩
      rw [(Machine.refills_execStore h).locals_eq]
      exact hat.element
  | register =>
      rw [hkind] at hlowered
      obtain rfl := hlowered
      obtain ⟨type', htype, _⟩ := hruns.suits target storage hfits.hasStorage
      rw [Machine.exec]
      refine .of_neverMisses (m.neverMisses_assign ..) (hnot (by simp [hkind])) fun mem' h => ?_
      refine ⟨hat.laid.changes (Machine.changes_assign h), ?_⟩
      obtain ⟨_, _, b, _, _, hb, _⟩ := hat.laid.tensor target type' (hruns.types target ▸ htype)
      rw [(Machine.refills_assign hb h).locals_eq]
      exact hat.element
  | sparse p =>
      rw [hkind] at hlowered
      obtain ⟨row, col, rfl, rfl⟩ := hlowered
      exact tells_sparseStore hruns he hknows hfunc hfits hkind hat

/-- **A kernel** misses only if its element does not find the place of some write, and else has found
    the places of all of them. -/
theorem Lowers.tells {body lowered : List (Stmt α)} (h : c.Lowers scope body lowered)
    (hruns : c.Runs f m n) (he : e < n) (hstorages : a.storages = c.storages)
    (hknows : c.KnowsKernel scope) (hfunc : scope.func = f) (hkept : c.kernel.KeptBy body)
    {final : List (Stmt α)} (hfinal : a.lowerBody lowered = .ok final)
    (hat : c.AtElement m e mem) : c.Tells m e body (m.execAll final mem) := by
  induction h generalizing final mem with
  | nil =>
      cases hfinal
      rw [Machine.execAll]
      refine ⟨fun var h => (nomatch h), fun mem' h => ?_⟩
      obtain rfl := Except.ok.inj h
      exact ⟨hat, fun row col hw => by simp [KernelVars.WritesSparse] at hw⟩
  | @assign scope name value value' type rest rest' _ _ _ _ ih =>
      obtain ⟨s', final', hs, hrest, rfl⟩ := AccessContext.lowerBody_cons_eq_ok.1 hfinal
      obtain ⟨value'', _, rfl⟩ := AccessContext.lowerStmt_assign_eq_ok_iff.1 hs
      obtain ⟨helement, hendpoints⟩ := hkept _ (List.mem_cons_self ..) name rfl
      have htells : c.Tells m e [.assign name value] (m.exec (.assign name value'') mem) := by
        rw [Machine.exec]
        exact tells_assign hat rfl helement
      exact htells.cons fun mem' hat' => ih (hknows.bind helement hendpoints) hfunc
        (fun s hs => hkept s (List.mem_cons_of_mem _ hs)) hrest hat'
  | @accumulate scope name value value' type bound rest rest' _ _ _ _ _ ih =>
      obtain ⟨s', final', hs, hrest, rfl⟩ := AccessContext.lowerBody_cons_eq_ok.1 hfinal
      obtain ⟨value'', _, rfl⟩ := AccessContext.lowerStmt_accumulate_eq_ok_iff.1 hs
      obtain ⟨helement, _⟩ := hkept _ (List.mem_cons_self ..) name rfl
      have htells : c.Tells m e [.accumulate name value] (m.exec (.accumulate name value'') mem) := by
        rw [Machine.exec]
        exact tells_assign hat rfl helement
      exact htells.cons fun mem' hat' => ih hknows hfunc
        (fun s hs => hkept s (List.mem_cons_of_mem _ hs)) hrest hat'
  | write _ hfits _ _ ih =>
      obtain ⟨s', final', hs, hrest, rfl⟩ := AccessContext.lowerBody_cons_eq_ok.1 hfinal
      refine Tells.cons (tells_write hruns he hstorages hknows hfunc hfits hs hat) ?_
      exact fun mem' hat' => ih hknows hfunc
        (fun s hs => hkept s (List.mem_cons_of_mem _ hs)) hrest hat'

/-- The loop of an assembly misses only if some element does not find a place that it writes, and
    else every element has found all of them. -/
theorem Lowers.tells_loop {body lowered : List (Stmt α)} (h : c.Lowers scope body lowered)
    (hruns : c.Runs f m n) (hstorages : a.storages = c.storages) (hknows : c.KnowsKernel scope)
    (hfunc : scope.func = f) (hkept : c.kernel.KeptBy body) {final : List (Stmt α)}
    (hfinal : a.lowerBody lowered = .ok final) (hlaid : m.Laid c.storages mem) :
    (∀ var, m.exec (.loop (.elements c.set.name c.kernel.element.name) final) mem =
        .error (.error (.sparseWriteMiss var)) → ∃ e < n, c.MissesUpTo m e body) ∧
      ∀ mem', m.exec (.loop (.elements c.set.name c.kernel.element.name) final) mem = .ok mem' →
        ∀ e < n, c.FindsAll m e body := by
  have hvisit : ∀ mem e, m.Laid c.storages mem → e < n → c.Tells m e body
      (m.execAll final (mem.withLocal c.kernel.element.name (.ofCount e))) := by
    intro mem e hlaid he
    have hbind : mem.Changes [] [c.kernel.element.name]
        (mem.withLocal c.kernel.element.name (.ofCount e)) :=
      .single (.index (List.mem_singleton_self _))
    refine h.tells hruns he hstorages hknows hfunc hkept hfinal ⟨hlaid.changes hbind, ?_⟩
    simp [Memory.withLocal, Table.get?_insert]
  rw [Machine.exec_elements (Resolution.size_eq_ok_iff.2 hruns.size)]
  constructor
  · intro var hmiss
    obtain ⟨e, he, mem', hlaid', hmiss⟩ := Except.foldlM_error (P := m.Laid c.storages)
      (fun mem e mem' he hlaid hok => ((hvisit mem e hlaid (List.mem_range.1 he)).ok mem' hok).1.laid)
      hlaid hmiss
    have he := List.mem_range.1 he
    exact ⟨e, he, (hvisit mem' e hlaid' he).miss var hmiss⟩
  · intro mem' hok e he
    refine (Except.foldlM_prefix (P := fun done mem => m.Laid c.storages mem ∧
      ∀ e ∈ done, c.FindsAll m e body) ?_ ⟨hlaid, by simp⟩ hok).2 e (List.mem_range.2 he)
    rintro done mem e mem' he ⟨hlaid, hdone⟩ hok
    obtain ⟨hat, hfinds⟩ := (hvisit mem e hlaid (List.mem_range.1 he)).ok mem' hok
    refine ⟨hat.laid, fun e' he' => ?_⟩
    rcases List.mem_append.1 he' with he' | he'
    · exact hdone e' he'
    · rw [List.mem_singleton.1 he']
      exact hfinds

omit [Scalar α] in
/-- If every element, as signed words give them, finds all places, then every element does: signed
    words give all of them, or one of them would be negative. -/
theorem finds_of_findsAll {body : List (Stmt α)} (h : ∀ e < n, c.FindsAll m e body)
    {row col : IndexRole} {t : Topology} (hwrites : c.kernel.WritesSparse c.storages body row col)
    (he : e < n) (ht : m.resolution.topology c.set.name = .ok t) : t.Finds e row col := by
  by_cases hmixed : row.Mixed col
  · by_cases hsmall : e < 2 ^ 63
    · obtain ⟨e', t', heq, ht', hfinds⟩ := h e he row col hwrites hmixed
      obtain rfl : t = t' := Except.ok.inj (ht.symm.trans ht')
      rw [SignedWord.ofCount_of_lt hsmall] at heq
      obtain rfl : e = e' := Int.ofNat.inj heq
      exact hfinds
    · obtain ⟨e', _, heq, _⟩ := h (2 ^ 63) (by omega) row col hwrites hmixed
      have hnegative : SignedWord.ofCount (2 ^ 63) = -(2 ^ 63) := by decide
      omega
  · cases row <;> cases col <;> first | trivial | exact absurd trivial hmixed

end

end KernelContext

/-! ## Assemblies -/

variable [Scalar α]

/-- **Coverage.** Running the loop of an assembly ends in a sparse write that misses only if some
    element does not find a place that its kernel writes, which takes a relation to itself or more
    endpoints than signed words count; and if it succeeds, every element has found all places.

    Declared names are distinct (`Func.DistinctNames`): of two variables with one name lowering checks
    the type of the first (`Func.varType?`), and the descriptor is that of the last (`Func.tensors`). The
    kernel keeps its element and its endpoints (`KernelVars.KeptBy`): an element that is bound anew is
    written at in place of the element of the loop, and endpoints that are bound to those of another
    relation are checked as these, but lowered to the endpoints of the element. -/
theorem Func.assembly_finds_or_misses {f : Func α} {seed storages : Storages}
    {options : LowerOptions} {l : LoweredFunc α} {b : Bindings α} {config : SolverConfig α}
    {m : Machine α} (hdistinct : f.DistinctNames)
    (hstorages : f.inferStorageWith seed = .ok storages)
    (hlower : f.lowerWith storages options = .ok l) (hmachine : l.machine b config = .ok m)
    {targets : List VarName} {set : SetName} {kernel : KernelVars} {body : List (Stmt α)}
    (hmem : .assemble targets set kernel body ∈ f.body) (hkept : kernel.KeptBy body) :
    ∃ g lowered loop n, f.lowerAssembly storages targets set kernel body = .ok lowered ∧
      (AccessContext.mk g storages options.search).lowerStmt lowered = .ok loop ∧
      loop ∈ l.func.body ∧ m.resolution.size set = .ok n ∧
      ∀ earlier start mem, m.start storages = .ok start → m.execAll earlier start = .ok mem →
        (∀ var, m.exec loop mem = .error (.error (.sparseWriteMiss var)) →
          ∃ row col e t, kernel.WritesSparse storages body row col ∧ e < n ∧
            m.resolution.topology set = .ok t ∧ ¬ t.Finds e row col ∧
              (t.endpointSet = set ∨ 2 ^ 63 < t.endpointCount)) ∧
        ∀ mem', m.exec loop mem = .ok mem' →
          ∀ row col e t, kernel.WritesSparse storages body row col → e < n →
            m.resolution.topology set = .ok t → t.Finds e row col := by
  obtain ⟨assembled, contracted, groups, hgroups, hl⟩ := Func.groups_of_lowerWith hlower
  obtain ⟨before, after, hbody⟩ := List.append_of_mem hmem
  rw [hbody] at hgroups
  obtain ⟨zeroed, names, earlier, group, later, hsplit, hgroups⟩ := hgroups.split
  cases hsplit with
  | other hassemble => cases hassemble
  | assembly hloop hlowered _ =>
      obtain ⟨decl, kernelBody, hdecl, hcheck, _, hkernel, rfl⟩ := lowerAssembly_eq_loop hloop
      obtain ⟨rfl, hdecls⟩ := name_of_set? hdecl
      obtain ⟨n, hruns⟩ := KernelContext.runs_of_machine hdistinct hstorages hl hmachine hdecl
        targets kernel
      obtain ⟨header, final, hheader, hfinal, rfl⟩ :=
        AccessContext.lowerStmt_loop_eq_ok_iff.1 hlowered
      obtain rfl := Except.ok.inj hheader
      refine ⟨f.withBody contracted, _, .loop (.elements decl.name kernel.element.name) final, n, hloop,
        ?_, ?_, Resolution.size_eq_ok_iff.2 hruns.size, ?_⟩
      · exact AccessContext.lowerStmt_loop_eq_ok_iff.2 ⟨_, _, rfl, hfinal, rfl⟩
      · rw [hl, hgroups]
        simp [withBody]
      · intro earlier start mem hstart hearlier
        have hfunc : m.func = f.withBody groups.flatten := by
          rw [(LoweredFunc.machine_spec hmachine).1, hl]
        have hlaid : m.Laid storages mem :=
          (Machine.start_spec (hfunc ▸ hdistinct) hstart).1.changes
            (Machine.changes_execAll earlier hearlier)
        obtain ⟨hmiss, hok⟩ := (KernelContext.lowers_of_lowerBody hkernel).tells_loop hruns rfl
          (KernelContext.knowsKernel_kernelScope (f := f) hcheck)
          (by unfold kernelScope; split <;> rfl) hkept hfinal hlaid
        refine ⟨fun var h => ?_, fun mem' h row col e t hwrites he ht => ?_⟩
        · obtain ⟨e, he, row, col, e', t, hwrites, hle, ht, hnot⟩ := hmiss var h
          obtain ⟨hrel, _, hin⟩ := hruns.topologies _ t (Resolution.topology_eq_ok_iff.1 ht)
          refine ⟨row, col, e', t, hwrites, by omega, ht, hnot, ?_⟩
          by_contra hneither
          obtain ⟨hne, hsize⟩ := not_or.1 hneither
          exact hnot (Topology.finds_of_ne hin (fun heq => hne (heq.symm.trans hrel))
            (Nat.not_lt.1 hsize) e' row col)
        · exact KernelContext.finds_of_findsAll (hok mem' h) hwrites he ht

/-! ## A relation to itself -/

/-- A relation whose endpoints are its own elements, each with one of them, and a kernel that writes
    at an element and its endpoint. -/
def selfRelation : Func Float :=
  (Func.named "f").withSet (.relation "R" "R" 1)
    |>.withLocal "a" (.matrix "R" "R" .scalar)
    |>.withAssembly ["a"] "R" (fun k =>
      [.contribute "a" [k.elementExpr, k.endpointExpr 0] (.literal (.float 1))])

/-- Every element points to the next one, and the last to itself. -/
def nextElements : Bindings Float :=
  Bindings.empty.withSet "R" (.relation 1 #[1, 2, 2])

/-- What the write of the kernel is lowered to, with rows searched from the left. -/
def selfRelationWrite : Stmt Float :=
  let place : Expr Float :=
    .locate (.incidence "R" "R") (.var "R.e") (.endpointOf "R" (.var "R.e") 0) .linear
  .sparseStore "a" place (.literal (.float 1)) true .scalar

/-- The function once it is lowered. -/
def selfRelationLowered : LoweredFunc Float :=
  ⟨selfRelation.withBody [.zero "a", .loop (.elements "R" "R.e") [selfRelationWrite]],
    ⟨[("a", ⟨.sparse (.incidence "R" "R"), .scalar⟩)]⟩⟩

/-- The topology of the relation. -/
def selfTopology : Topology :=
  ⟨"R", "R", 3, 1, #[1, 2, 2]⟩

/-- What the bindings resolve to, with patterns that are resolved already. -/
def selfResolution (patterns : Table PatternRef Pattern) : Resolution :=
  ⟨⟨[("R", 3)]⟩, ⟨#[selfTopology], ⟨[("R", 0)]⟩⟩, patterns⟩

/-- The patterns of a run: the one of the matrix, which is a diagonal for these bindings. -/
def selfPatterns : Table PatternRef Pattern :=
  ⟨[(.incidence "R" "R", ⟨3, 3, #[0, 1, 2, 3], #[0, 1, 2]⟩)]⟩

/-- The machine of a run. -/
def selfRelationMachine : Machine Float :=
  ⟨selfRelationLowered.func, nextElements, selfResolution selfPatterns, .standard⟩

theorem selfRelation_inferred :
    selfRelation.inferStorageWith Table.empty = .ok selfRelationLowered.storages := by
  let inf := selfRelation.inference Table.empty
  let evidence : Evidence := ⟨[("a", .incidence "R" "R")]⟩
  have hsettled : inf.propagate evidence.keys evidence = .ok evidence := by
    rw [Inference.propagate]
    rfl
  show (inf.propagate evidence.keys evidence >>= fun _ => _) = _
  rw [hsettled]
  rfl

theorem selfRelation_resolved :
    Resolution.ofBindings selfRelation nextElements = .ok (selfResolution Table.empty) := by
  cbv

theorem selfRelation_topology (patterns : Table PatternRef Pattern) :
    (selfResolution patterns).topology "R" = .ok selfTopology := by
  cbv

theorem selfRelation_pattern :
    (selfResolution Table.empty).build (.incidence "R" "R") =
      .ok ⟨3, 3, #[0, 1, 2, 3], #[0, 1, 2]⟩ := by
  have hpattern : selfTopology.squarePattern? = some ⟨3, 3, #[0, 1, 2, 3], #[0, 1, 2]⟩ := by
    decide +kernel
  show ((selfResolution Table.empty).topology "R" >>= fun t => _) = _
  rw [selfRelation_topology]
  show Outcome.orAbort selfTopology.squarePattern? = _
  rw [hpattern]
  rfl

theorem selfRelation_machine :
    selfRelationLowered.machine nextElements .standard = .ok selfRelationMachine := by
  have hresolve : (selfResolution Table.empty).resolve (.incidence "R" "R") =
      .ok (selfResolution selfPatterns) := by
    show ((selfResolution Table.empty).build (.incidence "R" "R") >>= fun pattern => _) = _
    rw [selfRelation_pattern]
    rfl
  have hprepare : (selfResolution Table.empty).prepare selfRelationLowered.func
      selfRelationLowered.storages = (selfResolution selfPatterns, .ok ()) := by
    show (selfResolution Table.empty).resolveAll [.incidence "R" "R", .incidence "R" "R"] = _
    rw [Resolution.resolveAll, hresolve]
    rfl
  exact LoweredFunc.machine_of_prepare rfl selfRelation_resolved hprepare .standard

/-- The loop misses at the first element, whose endpoint is the second one. -/
theorem selfRelation_loop (mem : Memory Float) :
    selfRelationMachine.exec (.loop (.elements "R" "R.e") [selfRelationWrite]) mem =
      .error (.error (.sparseWriteMiss "a")) := by
  have hstore : ∀ mem : Memory Float, mem.locals.get? "R.e" = some (.ofCount 0) →
      selfRelationMachine.execAll [selfRelationWrite] mem =
        .error (.error (.sparseWriteMiss "a")) := by
    intro mem h
    have hrow : selfRelationMachine.eval mem (.var "R.e") = .ok (.ofCount 0) := by
      rw [Machine.eval, Memory.read, h]
    have hcol : selfRelationMachine.eval mem (.endpointOf "R" (.var "R.e") 0) =
        .ok (.ofCount 1) := by
      rw [Machine.eval, hrow]
      change ((selfResolution selfPatterns).topology "R" >>= fun t =>
        Machine.endpointValue t "R" 0 (.ofCount 0)) = _
      rw [selfRelation_topology]
      rfl
    have hplace : selfRelationMachine.eval mem (.locate (.incidence "R" "R") (.var "R.e")
        (.endpointOf "R" (.var "R.e") 0) .linear) = .ok .miss := by
      rw [Machine.eval, hrow, hcol]
      rfl
    rw [selfRelationWrite, Machine.execAll, Machine.exec, hplace]
    rfl
  rw [Machine.exec_elements (n := 3) rfl]
  show (selfRelationMachine.execAll _ _ >>= fun _ => _) = _
  rw [hstore _ (by simp [Memory.withLocal, Table.get?_insert])]
  rfl

/-- A kernel that writes at an element and its endpoint misses the pattern of a relation to itself. -/
theorem selfRelation_misses :
    selfRelation.inferStorageWith Table.empty = .ok selfRelationLowered.storages ∧
      selfRelation.lowerWith selfRelationLowered.storages ⟨.linear⟩ = .ok selfRelationLowered ∧
        (selfRelationLowered.execute nextElements .standard).2 =
          .error (.error (.sparseWriteMiss "a")) := by
  refine ⟨selfRelation_inferred, rfl, ?_⟩
  obtain ⟨start, mem, hstart, hzero⟩ : ∃ start mem,
      selfRelationMachine.start selfRelationLowered.storages = .ok start ∧
        selfRelationMachine.exec (.zero "a") start = .ok mem := ⟨_, _, rfl, rfl⟩
  have hbody : selfRelationMachine.execAll selfRelationLowered.func.body start =
      .error (.error (.sparseWriteMiss "a")) := by
    show selfRelationMachine.execAll [.zero "a", .loop (.elements "R" "R.e") _] start = _
    rw [Machine.execAll, hzero]
    show selfRelationMachine.execAll _ mem = _
    rw [Machine.execAll, selfRelation_loop]
    rfl
  have hcompute : selfRelationLowered.compute nextElements .standard =
      .error (.error (.sparseWriteMiss "a")) := by
    rw [LoweredFunc.compute, selfRelation_machine]
    show (selfRelationMachine.start selfRelationLowered.storages >>= fun _ => _) = _
    rw [hstart]
    show (selfRelationMachine.execAll selfRelationLowered.func.body start >>= fun _ => _) = _
    rw [hbody]
    rfl
  rw [LoweredFunc.execute, hcompute]

/-- The loop over a relation to itself does not succeed, since an element that is not its own
    endpoint does not find its place. -/
theorem selfRelation_fails :
    ∃ loop ∈ selfRelationLowered.func.body, ∀ start mem,
      selfRelationMachine.start selfRelationLowered.storages = .ok start →
        selfRelationMachine.exec loop start ≠ .ok mem := by
  have hkept : KernelVars.KeptBy (α := Float) ⟨⟨"R.e", .element "R"⟩, some ⟨"R.ep", .endpoints "R"⟩⟩
      [.contribute "a" [.var "R.e", .endpoint "R.ep" 0] (.literal (.float 1))] := by
    intro s hs name hname
    rw [List.mem_singleton.1 hs] at hname
    cases hname
  have hdistinct : selfRelation.DistinctNames := List.nodup_singleton _
  have hlower : selfRelation.lowerWith selfRelationLowered.storages ⟨.linear⟩ =
      .ok selfRelationLowered := rfl
  obtain ⟨_, _, loop, n, _, _, hloop, hn, hcovered⟩ :=
    Func.assembly_finds_or_misses hdistinct selfRelation_inferred hlower selfRelation_machine
      (List.mem_singleton_self _) hkept
  refine ⟨loop, hloop, fun start mem hstart hok => ?_⟩
  obtain ⟨_, hfinds⟩ := hcovered [] start start hstart rfl
  have hfinds := hfinds mem hok .element (.endpoint 0) 0 selfTopology
    ⟨"a", _, _, _, _, List.mem_singleton_self _, rfl, rfl, rfl⟩ ?_ (selfRelation_topology _)
  · rcases hfinds 1 rfl with heq | ⟨e, he, hfirst, _⟩
    · cases heq
    · revert e
      decide
  · have hsize : selfRelationMachine.resolution.size "R" = .ok 3 := rfl
    rw [show n = 3 from Except.ok.inj (hn.symm.trans hsize)]
    decide

end GraphTensor
