import GraphTensor.Proofs.Outcome
import GraphTensor.Proofs.Table
import GraphTensor.Proofs.Topology.Arena
import GraphTensor.Proofs.Topology.Patterns
import GraphTensor.Topology.Resolution
set_option autoImplicit false

/-! # What references to patterns stand for

The topologies of a run have the endpoints that the bindings give, one topology for each relation
that a function declares. This is shown of the loop over the sets and then of the loop over the
relations, with what is done so far as the invariant (`Resolution.Sized`, `Resolution.Related`).

A reference that is resolved beforehand stands for the pattern that it would be resolved to on the
spot (`Resolution.PatternsFit`), so a reference means the same wherever it is met. What it stands
for is told by `Resolution.build_cases`: a diagonal, or one of three patterns of a relation. -/

namespace GraphTensor

namespace Resolution

variable {α : Type}

/-! ## Sizes and topologies -/

/-- What the sizes of a resolution are: those of the sets in the bindings. -/
def SizesFrom (r : Resolution) (b : Bindings α) : Prop :=
  ∀ set n, r.sizes.get? set = some n → ∃ data, b.set set = .ok data ∧ data.size = n

/-- What the topologies of a resolution are: each has endpoints in range of the size of its endpoint
    set. -/
def TopologiesFit (r : Resolution) : Prop :=
  ∀ relation t, r.arena.ofRelation? relation = some t →
    t.relation = relation ∧ r.sizes.get? t.endpointSet = some t.endpointCount ∧ t.InRange

/-- The topology of a relation is made from its declaration and its bound tuples. -/
def MadeFrom (t : Topology) (b : Bindings α) (decl : SetDecl) (ep : EndpointDecl) : Prop :=
  t.endpointSet = ep.set ∧ t.arity = ep.arity ∧
    ∃ data, b.set decl.name = .ok data ∧
      t.tuples = (data.endpoints.map EndpointData.tuples).getD #[]

theorem addSize_spec {b : Bindings α} {r r' : Resolution} {decl : SetDecl}
    (h : addSize b r decl = .ok r') :
    ∃ data, b.set decl.name = .ok data ∧
      r' = { r with sizes := r.sizes.insert decl.name data.size } := by
  obtain ⟨data, hdata, h⟩ := Outcome.bind_eq_ok_iff.1 h
  cases h
  exact ⟨data, hdata, rfl⟩

theorem addTopology_spec {b : Bindings α} {r r' : Resolution} {decl : SetDecl}
    (h : addTopology b r decl = .ok r') :
    (decl.endpoints = none ∧ r' = r) ∨
      ∃ ep t handle arena, decl.endpoints = some ep ∧ t.relation = decl.name ∧
        MadeFrom t b decl ep ∧ r.sizes.get? ep.set = some t.endpointCount ∧ t.InRange ∧
        r.arena.insert t = (arena, .ok handle) ∧ r' = { r with arena := arena } := by
  unfold addTopology at h
  split at h
  · next hnone =>
      cases h
      exact Or.inl ⟨hnone, rfl⟩
  · next ep hep =>
      right
      obtain ⟨data, hdata, h⟩ := Outcome.bind_eq_ok_iff.1 h
      obtain ⟨count, hcount, h⟩ := Outcome.bind_eq_ok_iff.1 h
      obtain ⟨t, ht, h⟩ := Outcome.bind_eq_ok_iff.1 h
      obtain ⟨handle, harena, h⟩ := Outcome.bind_eq_ok_iff.1 h
      cases h
      rw [Outcome.mapError_eq_ok_iff, Outcome.ofExcept_eq_ok_iff] at ht harena
      obtain ⟨heq, hin⟩ := Topology.inRange_ofTuples ht
      have hsize : r.sizes.get? ep.set = some count := Outcome.orFail_eq_ok_iff.1 hcount
      subst heq
      exact ⟨ep, _, handle, _, hep, rfl, ⟨rfl, rfl, data, hdata, rfl⟩, hsize, hin,
        Prod.ext rfl harena, rfl⟩

/-- A resolution that has the sizes of the sets done, and nothing else yet. -/
structure Sized (b : Bindings α) (done : List SetDecl) (r : Resolution) : Prop where
  /-- The sizes are bound ones. -/
  bound : r.SizesFrom b
  /-- There are no topologies. -/
  arena : r.arena = TopologyArena.empty
  /-- There are no patterns. -/
  patterns : r.patterns = Table.empty
  /-- Each set done has its size. -/
  sized : ∀ decl ∈ done, (r.sizes.get? decl.name).isSome = true

theorem Sized.empty (b : Bindings α) : Sized b [] Resolution.empty where
  bound set n hn := by cases hn
  arena := rfl
  patterns := rfl
  sized decl hdecl := by cases hdecl

theorem Sized.addSize {b : Bindings α} {done : List SetDecl} {r r' : Resolution} {decl : SetDecl}
    (h : Sized b done r) (hstep : addSize b r decl = .ok r') : Sized b (done ++ [decl]) r' := by
  obtain ⟨data, hdata, rfl⟩ := addSize_spec hstep
  refine ⟨fun set n hn => ?_, h.arena, h.patterns, fun decl' hdecl' => ?_⟩
  · rw [Table.get?_insert] at hn
    by_cases heq : decl.name = set
    · subst heq
      simp only [beq_self_eq_true, if_true, Option.some.injEq] at hn
      exact ⟨data, hdata, hn⟩
    · rw [if_neg (by simpa using heq)] at hn
      exact h.bound set n hn
  · rw [Table.get?_insert]
    by_cases heq : decl.name = decl'.name
    · simp [heq]
    · rw [if_neg (by simpa using heq)]
      rcases List.mem_append.1 hdecl' with hmem | hmem
      · exact h.sized decl' hmem
      · rw [List.mem_singleton] at hmem
        exact absurd (by rw [hmem]) heq

/-- A resolution that has the topologies of the relations done, the sizes being those of another. -/
structure Related (b : Bindings α) (sized : Resolution) (done : List SetDecl) (r : Resolution) :
    Prop where
  /-- The sizes stay. -/
  sizes : r.sizes = sized.sizes
  /-- The patterns stay. -/
  patterns : r.patterns = sized.patterns
  /-- The list of topologies and the table of their numbers belong together. -/
  linked : r.arena.Linked
  /-- The topologies fit the sizes. -/
  fit : r.TopologiesFit
  /-- Each relation done has its topology. -/
  made : ∀ decl ∈ done, ∀ ep, decl.endpoints = some ep →
    ∃ t, r.arena.ofRelation? decl.name = some t ∧ MadeFrom t b decl ep
  /-- No other relation has one. -/
  only : ∀ relation t, r.arena.ofRelation? relation = some t →
    ∃ decl ∈ done, ∃ ep, decl.name = relation ∧ decl.endpoints = some ep ∧ MadeFrom t b decl ep

theorem Related.addTopology {b : Bindings α} {sized r r' : Resolution} {done : List SetDecl}
    {decl : SetDecl} (h : Related b sized done r) (hstep : addTopology b r decl = .ok r') :
    Related b sized (done ++ [decl]) r' := by
  rcases addTopology_spec hstep with ⟨hnone, rfl⟩ |
    ⟨ep, t, handle, arena, hep, hrel, hfrom, hcount, hin, hinsert, rfl⟩
  · refine ⟨h.sizes, h.patterns, h.linked, h.fit, fun decl' hdecl' ep hep => ?_,
      fun relation t ht => ?_⟩
    · rcases List.mem_append.1 hdecl' with hmem | hmem
      · exact h.made decl' hmem ep hep
      · rw [List.mem_singleton] at hmem
        rw [hmem, hnone] at hep
        cases hep
    · obtain ⟨decl', hdecl', hrest⟩ := h.only relation t ht
      exact ⟨decl', List.mem_append_left _ hdecl', hrest⟩
  · have hnew := h.linked.ofRelation?_insert hinsert
    have hlinked := h.linked.insert t
    rw [hinsert] at hlinked
    refine ⟨h.sizes, h.patterns, hlinked, fun relation t' ht' => ?_,
      fun decl' hdecl' ep' hep' => ?_, fun relation t' ht' => ?_⟩
    · rw [(hnew relation).2] at ht'
      split at ht'
      · next heq =>
          cases ht'
          exact ⟨heq.symm, hfrom.1 ▸ hcount, hin⟩
      · exact h.fit relation t' ht'
    · rcases List.mem_append.1 hdecl' with hmem | hmem
      · obtain ⟨t', ht', hfrom'⟩ := h.made decl' hmem ep' hep'
        refine ⟨t', ?_, hfrom'⟩
        rw [(hnew decl'.name).2, if_neg, ht']
        intro heq
        -- the relation would have a topology already
        have hnone := (hnew decl'.name).1
        rw [← heq] at hnone
        simp [TopologyArena.ofRelation?, hnone] at ht'
      · rw [List.mem_singleton] at hmem
        subst hmem
        rw [hep] at hep'
        cases hep'
        exact ⟨t, by rw [(hnew decl'.name).2, if_pos hrel.symm], hfrom⟩
    · rw [(hnew relation).2] at ht'
      split at ht'
      · next heq =>
          cases ht'
          exact ⟨decl, List.mem_append_right _ (List.mem_singleton_self decl), ep,
            hrel.symm.trans heq.symm, hep, hfrom⟩
      · obtain ⟨decl', hdecl', hrest⟩ := h.only relation t' ht'
        exact ⟨decl', List.mem_append_left _ hdecl', hrest⟩

/-- What bindings resolve to are the sizes of all declared sets and the topologies of all declared
    relations. -/
theorem related_of_ofBindings {f : Func α} {b : Bindings α} {r : Resolution}
    (h : ofBindings f b = .ok r) :
    ∃ sized, Sized b f.sets.decls sized ∧ Related b sized f.sets.decls r := by
  obtain ⟨sized, hsized, h⟩ := Outcome.bind_eq_ok_iff.1 h
  have hsizes : Sized b f.sets.decls sized :=
    Except.foldlM_prefix (fun _ _ _ _ _ hdone hstep => hdone.addSize hstep) (Sized.empty b) hsized
  have hbefore : Related b sized [] sized := by
    refine ⟨rfl, rfl, hsizes.arena ▸ TopologyArena.linked_empty, fun relation t ht => ?_,
      fun decl hdecl => (nomatch hdecl), fun relation t ht => ?_⟩
    · rw [hsizes.arena] at ht
      cases ht
    · rw [hsizes.arena] at ht
      cases ht
  exact ⟨sized, hsizes,
    Except.foldlM_prefix (fun _ _ _ _ _ hdone hstep => hdone.addTopology hstep) hbefore h⟩

/-- **The topologies of a run.** The sizes are those bound, every topology fits them, and each
    relation that the function declares has the topology of its declaration and its bound tuples. -/
theorem ofBindings_spec {f : Func α} {b : Bindings α} {r : Resolution}
    (h : ofBindings f b = .ok r) :
    r.SizesFrom b ∧ r.TopologiesFit ∧ r.patterns = Table.empty ∧
      (∀ decl ∈ f.sets.decls, (r.sizes.get? decl.name).isSome = true) ∧
      ∀ decl ∈ f.sets.decls, ∀ ep, decl.endpoints = some ep →
        ∃ t, r.arena.ofRelation? decl.name = some t ∧ MadeFrom t b decl ep := by
  obtain ⟨sized, hsizes, hrelated⟩ := related_of_ofBindings h
  refine ⟨fun set n hn => ?_, hrelated.fit, hrelated.patterns.trans hsizes.patterns,
    fun decl hdecl => ?_, hrelated.made⟩
  · rw [hrelated.sizes] at hn
    exact hsizes.bound set n hn
  · rw [hrelated.sizes]
    exact hsizes.sized decl hdecl

/-! ## References -/

theorem build_congr {r r' : Resolution} (hsizes : r.sizes = r'.sizes) (harena : r.arena = r'.arena)
    (p : PatternRef) : r.build p = r'.build p := by
  unfold build size topology
  rw [hsizes, harena]

/-- The patterns that are resolved already are those that the references stand for. -/
def PatternsFit (r : Resolution) : Prop :=
  ∀ p pattern, r.patterns.get? p = some pattern → r.build p = .ok pattern

theorem resolve_spec {r r' : Resolution} {p : PatternRef} (hfit : r.PatternsFit)
    (h : r.resolve p = .ok r') :
    r'.sizes = r.sizes ∧ r'.arena = r.arena ∧ r'.PatternsFit := by
  unfold resolve at h
  split at h
  · cases h
    exact ⟨rfl, rfl, hfit⟩
  · obtain ⟨pattern, hpattern, h⟩ := Outcome.bind_eq_ok_iff.1 h
    cases h
    refine ⟨rfl, rfl, fun q found hq => ?_⟩
    have hbuild : ({ r with patterns := r.patterns.insert p pattern } : Resolution).build q =
        r.build q := build_congr rfl rfl q
    rw [hbuild]
    rw [Table.get?_insert] at hq
    by_cases heq : p = q
    · subst heq
      simp only [beq_self_eq_true, if_true, Option.some.injEq] at hq
      exact hq ▸ hpattern
    · rw [if_neg (by simpa using heq)] at hq
      exact hfit q found hq

theorem resolveAll_spec {r : Resolution} (ps : List PatternRef) (hfit : r.PatternsFit) :
    (r.resolveAll ps).1.sizes = r.sizes ∧ (r.resolveAll ps).1.arena = r.arena ∧
      (r.resolveAll ps).1.PatternsFit := by
  induction ps generalizing r with
  | nil => exact ⟨rfl, rfl, hfit⟩
  | cons p rest ih =>
      rw [resolveAll]
      cases hp : r.resolve p with
      | error fault => exact ⟨rfl, rfl, hfit⟩
      | ok next =>
          obtain ⟨hsizes, harena, hnext⟩ := resolve_spec hfit hp
          obtain ⟨hsizes', harena', hfit'⟩ := ih hnext
          exact ⟨hsizes'.trans hsizes, harena'.trans harena, hfit'⟩

/-- **Resolving beforehand.** A reference stands for the pattern that it is resolved to on the
    spot, whether that has been done beforehand or not. -/
theorem pattern_eq_build {r : Resolution} (hfit : r.PatternsFit) (p : PatternRef) :
    r.pattern p = r.build p := by
  unfold pattern
  split
  · next pattern hpattern => exact (hfit p pattern hpattern).symm
  · rfl

/-! ## Patterns by their source -/

theorem topology_eq_ok_iff {r : Resolution} {relation : SetName} {t : Topology} :
    r.topology relation = .ok t ↔ r.arena.ofRelation? relation = some t :=
  Outcome.orFail_eq_ok_iff

theorem size_eq_ok_iff {r : Resolution} {set : SetName} {n : Nat} :
    r.size set = .ok n ↔ r.sizes.get? set = some n :=
  Outcome.orFail_eq_ok_iff

/-- A reference stands for a diagonal, or for one of the three patterns of a relation; which of them
    is told by the names of rows and columns, the square pattern coming first. -/
theorem build_cases {r : Resolution} {p : PatternRef} {q : Pattern} (h : r.build p = .ok q) :
    (∃ set n, p = .diagonal set ∧ r.size set = .ok n ∧ Pattern.diagonal? n = some q) ∨
      ∃ relation t, p.source = .relation relation ∧ r.topology relation = .ok t ∧
        ((p.rows = t.endpointSet ∧ p.cols = t.endpointSet ∧ t.squarePattern? = some q) ∨
          (relation ≠ t.endpointSet ∧ p.rows = relation ∧ p.cols = t.endpointSet ∧
            t.incidencePattern? = some q) ∨
          (relation ≠ t.endpointSet ∧ p.rows = t.endpointSet ∧ p.cols = relation ∧
            t.incidencePattern?.bind Pattern.transpose? = some q)) := by
  obtain ⟨source, rows, cols⟩ := p
  cases source with
  | diagonal set =>
      simp only [build] at h
      split at h
      · next heq =>
          obtain ⟨rfl, rfl⟩ := heq
          obtain ⟨n, hn, h⟩ := Outcome.bind_eq_ok_iff.1 h
          exact Or.inl ⟨_, n, rfl, hn, Outcome.orAbort_eq_ok_iff.1 h⟩
      · cases h
  | relation relation =>
      simp only [build] at h
      obtain ⟨t, ht, h⟩ := Outcome.bind_eq_ok_iff.1 h
      refine Or.inr ⟨relation, t, rfl, ht, ?_⟩
      split at h
      · next heq => exact Or.inl ⟨heq.1, heq.2, Outcome.orAbort_eq_ok_iff.1 h⟩
      · next hsquare =>
          split at h
          · next heq =>
              refine Or.inr (Or.inl ⟨?_, heq.1, heq.2, Outcome.orAbort_eq_ok_iff.1 h⟩)
              intro hself
              exact hsquare ⟨heq.1.trans hself, heq.2⟩
          · split at h
            · next heq =>
                refine Or.inr (Or.inr ⟨?_, heq.1, heq.2, Outcome.orAbort_eq_ok_iff.1 h⟩)
                intro hself
                exact hsquare ⟨heq.1, heq.2.trans hself⟩
            · cases h

theorem valid_of_build {r : Resolution} {p : PatternRef} {q : Pattern} (h : r.build p = .ok q) :
    q.Valid := by
  rcases build_cases h with
    ⟨_, _, _, _, hq⟩ | ⟨_, t, _, _, ⟨_, _, hq⟩ | ⟨_, _, _, hq⟩ | ⟨_, _, _, hq⟩⟩
  · exact (Pattern.diagonal?_spec hq).1
  · exact (Topology.squarePattern?_spec hq).1
  · exact (Topology.incidencePattern?_spec hq).1
  · exact (Topology.coincidencePattern?_spec hq).1

/-- Every pattern that a run can get has ascending rows. -/
theorem PatternsFit.valid {r : Resolution} (h : r.PatternsFit) {p : PatternRef} {q : Pattern}
    (hq : r.pattern p = .ok q) : q.Valid :=
  valid_of_build ((pattern_eq_build h p).symm.trans hq)

/-- Where the names of two references say so, every place of one pattern is one of the other. -/
theorem coordinates_of_subsetOf {r : Resolution} (hfit : r.TopologiesFit) {p p' : PatternRef}
    {q q' : Pattern} (hq : r.build p = .ok q) (hq' : r.build p' = .ok q')
    (hsub : p'.subsetOf p = true) {i j : Nat} (h : (i, j) ∈ q'.coordinates) :
    (i, j) ∈ q.coordinates := by
  by_cases heq : p' = p
  · obtain rfl := heq
    obtain rfl := Except.ok.inj (hq.symm.trans hq')
    exact h
  · simp only [PatternRef.subsetOf, Bool.or_eq_true, beq_iff_eq, heq, false_or,
      Bool.and_eq_true] at hsub
    obtain ⟨⟨⟨hdiagonal, hsquare⟩, hrows⟩, hcols⟩ := hsub
    rcases build_cases hq' with ⟨set, n, rfl, hn, hdiag⟩ | ⟨relation, _, hsource, _⟩
    · obtain ⟨_, _, _, _, hmem⟩ := Pattern.diagonal?_spec hdiag
      obtain ⟨rfl, hlt⟩ := (hmem i j).1 h
      -- a diagonal lies in every square pattern of a relation over the set
      rcases build_cases hq with ⟨set', n', rfl, hn', hdiag'⟩ | ⟨relation, t, _, ht, hcase⟩
      · exact absurd (congrArg PatternRef.diagonal hrows) heq
      · obtain ⟨_, hcount, _⟩ := hfit relation t (topology_eq_ok_iff.1 ht)
        rcases hcase with ⟨hset, _, hpattern⟩ | ⟨hne, hleft, hright, _⟩ | ⟨hne, hleft, hright, _⟩
        · obtain ⟨_, _, _, _, hmem⟩ := Topology.squarePattern?_spec hpattern
          have hset : set = t.endpointSet := hrows.trans hset
          have hsize : n = t.endpointCount := by
            rw [hset, size_eq_ok_iff, hcount] at hn
            exact (Option.some.inj hn).symm
          exact (hmem i i).2 (.inl ⟨rfl, hsize ▸ hlt⟩)
        · exact absurd (hleft.symm.trans (hsquare.trans hright)) hne
        · exact absurd (hright.symm.trans (hsquare.symm.trans hleft)) hne
    · simp [PatternRef.isDiagonal, hsource] at hdiagonal

end Resolution

end GraphTensor
