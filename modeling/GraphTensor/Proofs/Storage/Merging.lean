import GraphTensor.Proofs.Storage.Order
import GraphTensor.Proofs.Storage.Sources
import GraphTensor.Proofs.Topology.Room
import Mathlib.Data.List.Permutation
import Mathlib.Order.Bounds.Basic
set_option autoImplicit false

/-! # Merged patterns

The references that can lie on one tensor (`InducedRef`) are ordered by what their names tell of
their places (`PatternRef.subsetOf`), and a reference that is below another one stands for fewer
places whatever the sets are bound to (`Resolution.build_of_within`). Two references are merged into
their least upper bound, if they have an upper bound at all (`InducedRef.merge_eq_ok_iff`).

So the order of merging does not matter, neither to what comes out nor to whether anything does. For
three references this is associativity; for pieces of evidence that come in any order
(`Evidence.accumulate_perm`) it follows by induction on the permutation, with `Evidence.EndAlike`
for two orders of which one may meet a conflict earlier than the other. -/

namespace GraphTensor

/-! ## The order of references -/

theorem PatternRef.Within.subsetOf {p q : PatternRef} (h : p.Within q) : p.subsetOf q = true := by
  rcases h with rfl | ⟨rfl, hcols, _⟩
  · exact p.subsetOf_refl
  · exact subsetOf_diagonal hcols

/-- A reference that can lie on a tensor of a function. -/
@[ext]
structure InducedRef {α : Type} (f : Func α) (var : VarName) (type : TensorType) where
  /-- The reference. -/
  ref : PatternRef
  /-- Its rows and columns are those of the tensor, and its source induces it. -/
  induces : f.checkInduces var ref type = .ok ()

namespace InducedRef

variable {α : Type} {f : Func α} {var : VarName} {type : TensorType} {p q s : InducedRef f var type}

theorem proper (p : InducedRef f var type) : p.ref.Proper :=
  fun hdiagonal => f.eq_diagonal_of_checkInduces p.induces hdiagonal

theorem subsetOf_iff_within : p.ref.subsetOf q.ref = true ↔ p.ref.Within q.ref :=
  ⟨PatternRef.within_of_subsetOf p.proper q.proper, PatternRef.Within.subsetOf⟩

/-- References to patterns of one tensor are ordered by what their names tell. -/
instance : PartialOrder (InducedRef f var type) where
  le p q := p.ref.subsetOf q.ref = true
  le_refl p := p.ref.subsetOf_refl
  le_trans p q s hpq hqs := by
    rw [subsetOf_iff_within] at hpq hqs ⊢
    exact hpq.trans hqs
  le_antisymm p q hpq hqp := by
    rw [subsetOf_iff_within] at hpq hqp
    exact InducedRef.ext (hpq.antisymm hqp)

theorem le_iff_within : p ≤ q ↔ p.ref.Within q.ref :=
  subsetOf_iff_within

/-! ## Merging is joining -/

/-- Merging gives a reference that can lie on the tensor, the least upper bound. -/
theorem isLUB_of_merge {c : PatternRef} (h : mergePatterns var p.ref q.ref = .ok c) :
    ∃ s : InducedRef f var type, s.ref = c ∧ IsLUB {p, q} s := by
  have hc : f.checkInduces var c type = .ok () := by
    rcases mergePatterns_eq_or h with rfl | rfl
    · exact p.induces
    · exact q.induces
  obtain ⟨hp, hq, _⟩ := within_of_mergePatterns p.proper q.proper h
  refine ⟨⟨c, hc⟩, rfl, ?_, fun u hu => ?_⟩
  · rintro u (rfl | rfl)
    · exact le_iff_within.2 hp
    · exact le_iff_within.2 hq
  · have hpu : p ≤ u := hu (Set.mem_insert p _)
    have hqu : q ≤ u := hu (Set.mem_insert_of_mem p rfl)
    obtain ⟨c', hc', hwithin⟩ :=
      mergePatterns_within (le_iff_within.1 hpu) (le_iff_within.1 hqu) var
    obtain rfl := Except.ok.inj (h.symm.trans hc')
    exact le_iff_within.2 hwithin

theorem exists_merge (hp : p ≤ s) (hq : q ≤ s) : ∃ c, mergePatterns var p.ref q.ref = .ok c := by
  obtain ⟨c, hc, _⟩ := mergePatterns_within (le_iff_within.1 hp) (le_iff_within.1 hq) var
  exact ⟨c, hc⟩

/-- Merging finds the least upper bound, where there is one. -/
theorem merge_eq_ok_iff {c : PatternRef} :
    mergePatterns var p.ref q.ref = .ok c ↔
      ∃ s : InducedRef f var type, s.ref = c ∧ IsLUB {p, q} s := by
  refine ⟨isLUB_of_merge, ?_⟩
  rintro ⟨s, rfl, hs⟩
  obtain ⟨c, hc⟩ := exists_merge (hs.1 (Set.mem_insert p _)) (hs.1 (Set.mem_insert_of_mem p rfl))
  obtain ⟨s', rfl, hs'⟩ := isLUB_of_merge hc
  rw [hc, hs.unique hs']

theorem merge_comm {c : PatternRef} :
    mergePatterns var p.ref q.ref = .ok c ↔ mergePatterns var q.ref p.ref = .ok c := by
  rw [merge_eq_ok_iff, merge_eq_ok_iff, Set.pair_comm]

theorem merge_merge_eq_ok_iff {c : PatternRef} :
    (mergePatterns var p.ref q.ref >>= fun first => mergePatterns var first s.ref) = .ok c ↔
      ∃ m : InducedRef f var type, m.ref = c ∧ IsLUB {p, q, s} m := by
  -- joined with the third, the join of the first two bounds the same as the three
  have hbounds : ∀ first : InducedRef f var type, IsLUB {p, q} first →
      upperBounds {first, s} = upperBounds {p, q, s} := by
    intro first hfirst
    rw [upperBounds_insert, ← hfirst.upperBounds_eq, ← upperBounds_union, Set.insert_union,
      Set.singleton_union]
  constructor
  · intro h
    obtain ⟨c', hc', h⟩ := Except.bind_eq_ok h
    obtain ⟨first, rfl, hfirst⟩ := isLUB_of_merge hc'
    obtain ⟨m, hm, hlub⟩ := isLUB_of_merge h
    exact ⟨m, hm, (isLUB_congr (hbounds first hfirst)).1 hlub⟩
  · rintro ⟨m, rfl, hlub⟩
    obtain ⟨c', hc'⟩ := exists_merge (hlub.1 (Set.mem_insert p _))
      (hlub.1 (Set.mem_insert_of_mem p (Set.mem_insert q _)))
    obtain ⟨first, rfl, hfirst⟩ := isLUB_of_merge hc'
    rw [hc']
    exact merge_eq_ok_iff.2 ⟨m, rfl, (isLUB_congr (hbounds first hfirst)).2 hlub⟩

theorem merge_assoc {c : PatternRef} :
    (mergePatterns var p.ref q.ref >>= fun first => mergePatterns var first s.ref) = .ok c ↔
      (mergePatterns var q.ref s.ref >>= fun last => mergePatterns var p.ref last) = .ok c := by
  -- both sides join the same three, once the last step on the right is turned around
  have hlast : (mergePatterns var q.ref s.ref >>= fun last => mergePatterns var p.ref last) = .ok c ↔
      (mergePatterns var q.ref s.ref >>= fun last => mergePatterns var last p.ref) = .ok c := by
    cases h : mergePatterns var q.ref s.ref with
    | error cause => exact Iff.rfl
    | ok last =>
        obtain ⟨m, rfl, _⟩ := isLUB_of_merge h
        exact merge_comm
  have hrotate : ({q, s, p} : Set (InducedRef f var type)) = {p, q, s} := by
    rw [Set.pair_comm s p, Set.insert_comm]
  rw [hlast, merge_merge_eq_ok_iff, merge_merge_eq_ok_iff, hrotate]

end InducedRef

/-! ## What smaller references stand for -/

namespace Resolution

variable {α : Type} {r : Resolution}

/-- A reference in one that stands for a pattern stands for a pattern inside that. -/
theorem build_of_within (hfit : r.TopologiesFit) {p q : PatternRef} (h : p.Within q) {Q : Pattern}
    (hQ : r.build q = .ok Q) :
    ∃ P, r.build p = .ok P ∧ P.rows = Q.rows ∧ P.cols = Q.cols ∧ P.coordinates ⊆ Q.coordinates := by
  have hinside : ∀ P, r.build p = .ok P → P.coordinates ⊆ Q.coordinates :=
    fun P hP _ hc => coordinates_of_subsetOf hfit hQ hP h.subsetOf hc
  rcases h with rfl | ⟨rfl, hcols, hproper⟩
  · exact ⟨Q, hQ, rfl, rfl, hinside Q hQ⟩
  · rcases build_cases hQ with ⟨set, n, rfl, _, _⟩ | ⟨relation, t, _, ht, hcase⟩
    · cases hproper
    · obtain ⟨_, hcount, _⟩ := hfit relation t (topology_eq_ok_iff.1 ht)
      rcases hcase with ⟨hset, _, hpattern⟩ | ⟨hne, hleft, hright, _⟩ | ⟨hne, hleft, hright, _⟩
      · obtain ⟨_, hQrows, hQcols, hroom, _⟩ := Topology.squarePattern?_spec hpattern
        obtain ⟨P, hP⟩ := Pattern.exists_diagonal? (n := t.endpointCount) (by omega)
        obtain ⟨_, hProws, hPcols, _⟩ := Pattern.diagonal?_spec hP
        have hbuild : r.build (.diagonal q.rows) = .ok P := by
          have hsize := size_eq_ok_iff.2 (hset ▸ hcount)
          simp only [build, PatternRef.diagonal, and_self, if_true, hsize]
          exact Outcome.orAbort_eq_ok_iff.2 hP
        exact ⟨P, hbuild, hProws.trans hQrows.symm, hPcols.trans hQcols.symm, hinside P hbuild⟩
      -- only the square pattern has its rows and columns over one set
      · exact absurd (hleft.symm.trans (hcols.symm.trans hright)) hne
      · exact absurd (hright.symm.trans (hcols.trans hleft)) hne

end Resolution

/-! ## Accumulated evidence -/

namespace Evidence

variable {α : Type} {f : Func α} {tensors : Table VarName TensorType} {e : Evidence}

/-- Two accumulations end alike: the same patterns are known, or both end in a conflict. -/
def EndAlike (o o' : Except LowerError Evidence) : Prop :=
  (∃ e e' : Evidence, o = .ok e ∧ o' = .ok e' ∧ ∀ var, e.get? var = e'.get? var) ∨
    ∃ var p q var' p' q', o = .error (.conflictingTopology var p q) ∧
      o' = .error (.conflictingTopology var' p' q')

/-- A piece of evidence is a pattern that can lie on its variable. -/
def Piece (f : Func α) (tensors : Table VarName TensorType) (piece : VarName × PatternRef) : Prop :=
  ∃ type, tensors.get? piece.1 = some type ∧ f.checkInduces piece.1 piece.2 type = .ok ()

theorem conflict_of_merge {var : VarName} {p : PatternRef} {cause : LowerError}
    (h : e.merge var p = .error cause) : ∃ held, cause = .conflictingTopology var held p := by
  unfold merge at h
  split at h
  · cases h
  · next held _ =>
      have hmerge : mergePatterns var held p = .error cause := Except.eq_error_of_bind_ok h
      unfold mergePatterns at hmerge
      split at hmerge
      · cases hmerge
      · split at hmerge
        · cases hmerge
        · exact ⟨held, (Except.error.inj hmerge).symm⟩

theorem conflict_of_accumulate {pieces : List (VarName × PatternRef)} {cause : LowerError}
    (h : pieces.foldlM (fun e piece => e.merge piece.1 piece.2) e = .error cause) :
    ∃ var p q, cause = .conflictingTopology var p q := by
  obtain ⟨piece, _, _, _, hmerge⟩ := Except.foldlM_error (P := fun _ => True)
    (fun _ _ _ _ _ _ => trivial) trivial h
  obtain ⟨held, rfl⟩ := conflict_of_merge hmerge
  exact ⟨_, _, _, rfl⟩

/-- Pieces of evidence end alike in every order. -/
theorem accumulate_perm {pieces pieces' : List (VarName × PatternRef)} (hc : e.Checked f tensors)
    (h : ∀ piece ∈ pieces, Piece f tensors piece) (hperm : pieces.Perm pieces') :
    EndAlike (pieces.foldlM (fun e piece => e.merge piece.1 piece.2) e)
      (pieces'.foldlM (fun e piece => e.merge piece.1 piece.2) e) := by
  have hadds : ∀ piece ∈ pieces, Adds f tensors fun e => e.merge piece.1 piece.2 := by
    intro piece hpiece
    obtain ⟨type, htype, hcheck⟩ := h piece hpiece
    exact adds_merge htype hcheck
  cases ho : pieces.foldlM (fun e piece => e.merge piece.1 piece.2) e with
  | ok r =>
      obtain ⟨r', hr', hsame⟩ := foldlM_of_perm hperm hadds hc ho
      exact Or.inl ⟨r, r', rfl, hr', fun var => (hsame var).symm⟩
  | error cause =>
      obtain ⟨var, p, q, rfl⟩ := conflict_of_accumulate ho
      cases ho' : pieces'.foldlM (fun e piece => e.merge piece.1 piece.2) e with
      | ok r' =>
          -- then the first order succeeds too
          obtain ⟨r, hr, _⟩ := foldlM_of_perm hperm.symm
            (fun piece hpiece => hadds piece (hperm.mem_iff.2 hpiece)) hc ho'
          cases ho.symm.trans hr
      | error cause' =>
          obtain ⟨var', p', q', rfl⟩ := conflict_of_accumulate ho'
          exact Or.inr ⟨var, p, q, var', p', q', rfl, rfl⟩

end Evidence

/-! ## The laws of merging -/

section

variable {α : Type}

/-- The laws of the patterns that can lie on the tensors of a function. -/
structure Func.PatternLaws (f : Func α) : Prop where
  /-- References to patterns of one tensor are ordered by their names. -/
  order : ∀ var type,
    IsPartialOrder (InducedRef f var type) fun p q => p.ref.subsetOf q.ref = true
  /-- Of two references in this order, the first resolves where the second does, to a pattern of the
      same size with no other coordinates. -/
  sound : ∀ {var type} (p q : InducedRef f var type), p.ref.subsetOf q.ref = true →
    ∀ (b : Bindings α) (r : Resolution) (before : List PatternRef) (Q : Pattern),
      Resolution.ofBindings f b = .ok r → (r.resolveAll before).1.pattern q.ref = .ok Q →
        ∃ P, (r.resolveAll before).1.pattern p.ref = .ok P ∧ P.rows = Q.rows ∧ P.cols = Q.cols ∧
          P.coordinates ⊆ Q.coordinates
  /-- A pattern merges with itself. -/
  merge_self : ∀ {var type} (p : InducedRef f var type), mergePatterns var p.ref p.ref = .ok p.ref
  /-- Two patterns merge alike in both orders. -/
  merge_comm : ∀ {var type} (p q : InducedRef f var type) (c : PatternRef),
    mergePatterns var p.ref q.ref = .ok c ↔ mergePatterns var q.ref p.ref = .ok c
  /-- Three patterns merge alike from both ends. -/
  merge_assoc : ∀ {var type} (p q s : InducedRef f var type) (c : PatternRef),
    (mergePatterns var p.ref q.ref >>= fun first => mergePatterns var first s.ref) = .ok c ↔
      (mergePatterns var q.ref s.ref >>= fun last => mergePatterns var p.ref last) = .ok c
  /-- What is merged holds both patterns and can lie on the tensor. -/
  merge_holds : ∀ {var type} (p q : InducedRef f var type) (c : PatternRef),
    mergePatterns var p.ref q.ref = .ok c →
      f.checkInduces var c type = .ok () ∧ p.ref.subsetOf c = true ∧ q.ref.subsetOf c = true
  /-- Patterns that a third one holds are merged, and it holds the outcome. -/
  merge_least : ∀ {var type} (p q s : InducedRef f var type), p.ref.subsetOf s.ref = true →
    q.ref.subsetOf s.ref = true →
      ∃ c, mergePatterns var p.ref q.ref = .ok c ∧ c.subsetOf s.ref = true
  /-- Evidence ends alike in every order. -/
  accumulate : ∀ (tensors : Table VarName TensorType) (e : Evidence)
    (pieces pieces' : List (VarName × PatternRef)), e.Checked f tensors →
    (∀ piece ∈ pieces, Evidence.Piece f tensors piece) → pieces.Perm pieces' →
      Evidence.EndAlike (pieces.foldlM (fun e piece => e.merge piece.1 piece.2) e)
        (pieces'.foldlM (fun e piece => e.merge piece.1 piece.2) e)

/-- **Merging joins.** The references that can lie on one tensor are ordered soundly, merging finds
    their least upper bounds, and evidence may come in any order. -/
theorem Func.patternLaws (f : Func α) : f.PatternLaws where
  order var type := inferInstanceAs (IsPartialOrder (InducedRef f var type) (· ≤ ·))
  sound p q hsub b r before Q hr hQ := by
    obtain ⟨_, hfit, hnone, _⟩ := Resolution.ofBindings_spec hr
    have hpatterns : r.PatternsFit := by
      intro ref pattern hget
      rw [hnone] at hget
      cases hget
    obtain ⟨hsizes, harena, hresolved⟩ := Resolution.resolveAll_spec before hpatterns
    -- what has been resolved before changes nothing
    have hbuild : ∀ ref, (r.resolveAll before).1.pattern ref = r.build ref := fun ref =>
      (Resolution.pattern_eq_build hresolved ref).trans (Resolution.build_congr hsizes harena ref)
    rw [hbuild] at hQ ⊢
    exact Resolution.build_of_within hfit (InducedRef.subsetOf_iff_within.1 hsub) hQ
  merge_self p := if_pos p.ref.subsetOf_refl
  merge_comm p q c := InducedRef.merge_comm
  merge_assoc p q s c := InducedRef.merge_assoc
  merge_holds p q c h := by
    obtain ⟨s, rfl, hlub⟩ := InducedRef.isLUB_of_merge h
    exact ⟨s.induces, hlub.1 (Set.mem_insert p _), hlub.1 (Set.mem_insert_of_mem p rfl)⟩
  merge_least p q s hp hq := by
    obtain ⟨c, hc⟩ := InducedRef.exists_merge hp hq
    obtain ⟨m, rfl, hlub⟩ := InducedRef.isLUB_of_merge hc
    refine ⟨m.ref, hc, hlub.2 ?_⟩
    rintro u (rfl | rfl)
    · exact hp
    · exact hq
  accumulate tensors e pieces pieces' hc h hperm := Evidence.accumulate_perm hc h hperm

/-- A function with a matrix between the vertices that edges have for endpoints. -/
def vertexMatrix : Func Float :=
  (Func.named "f").withSet (.plain "V")
    |>.withSet (.relation "E" "V" 2)
    |>.withLocal "a" (.matrix "V" "V" .scalar)

/-- Two edges that meet, and a vertex without any. -/
def twoEdges : Bindings Float :=
  Bindings.empty.withSet "V" (.plain 4)
    |>.withSet "E" (.relation 2 #[0, 1, 1, 2])

/-- What the bindings resolve to. -/
def twoEdgesResolution : Resolution :=
  ⟨⟨[("V", 4), ("E", 2)]⟩, ⟨#[⟨"E", "V", 4, 2, #[0, 1, 1, 2]⟩], ⟨[("E", 0)]⟩⟩, Table.empty⟩

theorem twoEdges_resolved :
    Resolution.ofBindings vertexMatrix twoEdges = .ok twoEdgesResolution := by
  cbv

theorem twoEdges_square : twoEdgesResolution.pattern (.square "E" "V") =
    .ok ⟨4, 4, #[0, 2, 5, 7, 8], #[0, 1, 0, 1, 2, 1, 2, 3]⟩ := by
  decide +kernel

/-- The diagonal of the vertices lies in the pattern of the edges, and is merged into it. -/
theorem vertexMatrix_merges :
    mergePatterns "a" (.square "E" "V") (.diagonal "V") = .ok (.square "E" "V") ∧
      ∃ P Q, twoEdgesResolution.pattern (.diagonal "V") = .ok P ∧
        twoEdgesResolution.pattern (.square "E" "V") = .ok Q ∧ P.coordinates ⊆ Q.coordinates := by
  let diagonal : InducedRef vertexMatrix "a" (.matrix "V" "V" .scalar) := ⟨.diagonal "V", by decide⟩
  let square : InducedRef vertexMatrix "a" (.matrix "V" "V" .scalar) := ⟨.square "E" "V", by decide⟩
  have hlaws := vertexMatrix.patternLaws
  obtain ⟨P, hP, _, _, hinside⟩ := hlaws.sound diagonal square (by decide) twoEdges
    twoEdgesResolution [] _ twoEdges_resolved twoEdges_square
  exact ⟨(hlaws.merge_comm square diagonal _).2 (by decide), P, _, hP, twoEdges_square, hinside⟩

end

end GraphTensor
