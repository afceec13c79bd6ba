import GraphTensor.Proofs.Lowering.Terms
import GraphTensor.Proofs.Storage.Faithful
set_option autoImplicit false

/-! # Masks and inferred patterns

A tensor that no kernel writes (`Func.kernelWrites`) is sparse just if some assignment to it is
masked: every term of its sum has an operand with just the free indices that is stored on a pattern
(`Storages.Mask`). All masked assignments to the tensor have one and the same mask, which is its
pattern and holds the patterns that mask the terms (`Term.MaskedBy`). About an assignment with a
term that nothing masks inference says nothing, whatever other assignments to the tensor have led
to.

One half is an invariant of propagation, `Inference.Masking`: no pattern becomes known without a
masked assignment. The other half is about the end: a statement that settled evidence leaves alone
has no mask, or the one that is known (`Inference.known_of_quiet`). -/

namespace GraphTensor

namespace PatternRef

theorem subsetOf_trans {p q r : PatternRef} (h : p.subsetOf q = true) (h' : q.subsetOf r = true) :
    p.subsetOf r = true := by
  simp only [subsetOf, Bool.or_eq_true, beq_iff_eq, Bool.and_eq_true] at h h' ⊢
  rcases h with rfl | ⟨⟨⟨hdiagonal, hsquare⟩, hrows⟩, hcols⟩
  · exact h'
  · rcases h' with rfl | ⟨⟨⟨_, hsquare'⟩, hrows'⟩, hcols'⟩
    · exact Or.inr ⟨⟨⟨hdiagonal, hsquare⟩, hrows⟩, hcols⟩
    · exact Or.inr ⟨⟨⟨hdiagonal, hsquare'⟩, hrows.trans hrows'⟩, hcols.trans hcols'⟩

theorem subsetOf_of_mergePatterns {var : VarName} {a b c : PatternRef}
    (h : mergePatterns var a b = .ok c) : a.subsetOf c = true ∧ b.subsetOf c = true := by
  unfold mergePatterns at h
  split at h
  · next hsub =>
      obtain rfl := Except.ok.inj h
      exact ⟨hsub, b.subsetOf_refl⟩
  · split at h
    · next hsub =>
        obtain rfl := Except.ok.inj h
        exact ⟨a.subsetOf_refl, hsub⟩
    · cases h

end PatternRef

section

variable {α : Type}

/-! ## Assignments -/

/-- A pattern masks a term: an operand with just the free indices is stored on it. -/
def Term.MaskedBy (t : Term α) (storages : Storages) (free : List IndexVar) (p : PatternRef) :
    Prop :=
  ∃ o ∈ t.maskers free, storages.pattern? o.2.tensor = some p

/-- Every term of a sum is masked. -/
def Storages.Mask (storages : Storages) (free : List IndexVar) (terms : List (Term α)) : Prop :=
  ∀ t ∈ terms, ∃ p, t.MaskedBy storages free p

/-- A kernel of an assembly writes a tensor. -/
def Stmt.kernelWrites (s : Stmt α) (var : VarName) : Bool :=
  match s with
  | .assemble _ _ _ body =>
    ((Stmt.substmtsOfList body).filterMap Stmt.entryWrite?).any fun write => write.1 == var
  | _ => false

/-- The kernel of some assembly writes a tensor. -/
def Func.kernelWrites (f : Func α) (var : VarName) : Bool :=
  f.body.any (·.kernelWrites var)

theorem Func.Writes.kernelWrites {f : Func α} {var : VarName} {p : PatternRef}
    (h : f.Writes var p) : f.kernelWrites var = true := by
  obtain ⟨targets, set, kernel, body, _, indices, hbody, _, hwrite, _⟩ := h
  exact List.any_eq_true.2 ⟨_, hbody, List.any_eq_true.2 ⟨(var, indices), hwrite, beq_self_eq_true var⟩⟩

variable [Scalar α]

/-- A sum of terms over two free indices is assigned to a tensor. -/
def Func.Assigns (f : Func α) (var : VarName) (free : List IndexVar) (terms : List (Term α)) :
    Prop :=
  free.length = 2 ∧ ∃ body, .assign var (.index free body) ∈ f.body ∧ body.terms = .ok terms

end

namespace Inference

variable {α : Type} {inf : Inference α} {e e' : Evidence} {free : List IndexVar}

/-! ## Masks of sums -/

theorem termMask?_isSome_iff {t : Term α} :
    (inf.termMask? e free t).isSome = true ↔
      ∃ o ∈ t.maskers free, ∃ p, inf.patternOf? e o.2.tensor = some p := by
  constructor
  · intro h
    obtain ⟨p, hp⟩ := Option.isSome_iff_exists.1 h
    obtain ⟨place, operand, hoperand, hnames, hpattern⟩ := operand_of_termMask? hp
    exact ⟨(place, operand), List.mem_filter.2 ⟨hoperand, by simpa using hnames⟩, p, hpattern⟩
  · rintro ⟨o, ho, p, hp⟩
    obtain ⟨hoperand, hnames⟩ := List.mem_filter.1 ho
    have hmem : p ∈ t.tensors.filterMap fun operand =>
        if operand.2.names = free.map IndexVar.name then inf.patternOf? e operand.2.tensor else none :=
      List.mem_filterMap.2 ⟨o, hoperand, by simpa [of_decide_eq_true hnames] using hp⟩
    cases hnone : inf.termMask? e free t with
    | some _ => rfl
    | none =>
        have hhead := (Option.or_eq_none_iff.1 hnone).2
        exact absurd (List.head?_eq_none_iff.1 hhead) (List.ne_nil_of_mem hmem)

theorem subsetOf_of_sumMask {var : VarName} {terms : List (Term α)} {start : Option PatternRef}
    {p : PatternRef} (h : inf.sumMask e var free start terms = .ok (some p)) :
    (∀ q, start = some q → q.subsetOf p = true) ∧
      ∀ t ∈ terms, ∃ q, inf.termMask? e free t = some q ∧ q.subsetOf p = true := by
  induction terms generalizing start with
  | nil =>
      obtain rfl := Except.ok.inj h
      exact ⟨fun q hq => Option.some.inj hq ▸ p.subsetOf_refl, fun t ht => absurd ht List.not_mem_nil⟩
  | cons t rest ih =>
      rw [sumMask] at h
      cases hmask : inf.termMask? e free t with
      | none =>
          rw [hmask] at h
          cases h
      | some new =>
          rw [hmask] at h
          cases start with
          | none =>
              obtain ⟨hnew, hrest⟩ := ih h
              refine ⟨fun q hq => ?_, List.forall_mem_cons.2 ⟨⟨new, hmask, hnew new rfl⟩, hrest⟩⟩
              cases hq
          | some current =>
              obtain ⟨merged, hmerged, h⟩ := Except.bind_eq_ok h
              obtain ⟨hsub, hrest⟩ := ih h
              obtain ⟨hcurrent, hnew⟩ := PatternRef.subsetOf_of_mergePatterns hmerged
              have hmerged := hsub merged rfl
              refine ⟨fun q hq => ?_, List.forall_mem_cons.2 ⟨⟨new, hmask, ?_⟩, hrest⟩⟩
              · exact PatternRef.subsetOf_trans (Option.some.inj hq ▸ hcurrent) hmerged
              · exact PatternRef.subsetOf_trans hnew hmerged

/-- A sum all of whose terms are masked has a mask, unless they cannot be merged. -/
theorem sumMask_ne_none {var : VarName} {terms : List (Term α)} {start : Option PatternRef}
    (hsome : start.isSome = true ∨ terms ≠ [])
    (h : ∀ t ∈ terms, (inf.termMask? e free t).isSome = true) :
    inf.sumMask e var free start terms ≠ .ok none := by
  induction terms generalizing start with
  | nil =>
      intro hnone
      obtain rfl := Except.ok.inj hnone
      simp at hsome
  | cons t rest ih =>
      obtain ⟨ht, hrest⟩ := List.forall_mem_cons.1 h
      obtain ⟨new, hnew⟩ := Option.isSome_iff_exists.1 ht
      rw [sumMask, hnew]
      cases start with
      | none => exact ih (Or.inl rfl) hrest
      | some current =>
          intro hnone
          obtain ⟨merged, _, hnone⟩ := Except.bind_eq_ok hnone
          exact ih (Or.inl rfl) hrest hnone

/-! ## Settled evidence -/

theorem termMask?_isSome_of_below (hbelow : e.Below e') {t : Term α}
    (h : (inf.termMask? e free t).isSome = true) : (inf.termMask? e' free t).isSome = true := by
  obtain ⟨o, ho, p, hp⟩ := termMask?_isSome_iff.1 h
  refine termMask?_isSome_iff.2 ⟨o, ho, ?_⟩
  unfold patternOf? at hp ⊢
  split
  · next s hs =>
      rw [hs] at hp
      exact ⟨p, hp⟩
  · next hs =>
      rw [hs] at hp
      obtain ⟨q, hq, _⟩ := hbelow _ p hp
      exact ⟨q, hq⟩

variable [Scalar α] {decided : List VarName} {var : VarName}

/-- A pattern is known for a tensor only if an assignment to it is masked. -/
structure Masking (inf : Inference α) (var : VarName) (e : Evidence) : Prop where
  /-- Patterns can lie on their tensors. -/
  checked : e.Checked inf.func inf.tensors
  /-- The masked assignment. -/
  masked : ∀ p, e.get? var = some p → ∃ free terms, inf.func.Assigns var free terms ∧
    ∀ t ∈ terms, (inf.termMask? e free t).isSome = true

theorem Masking.step {s : Stmt α} {reported : Bool} (he : inf.Masking var e)
    (hs : s ∈ inf.func.body) (h : inf.observeIndex decided e s = .ok (e', reported)) :
    inf.Masking var e' := by
  have hbelow := below_of_observeIndex he.checked h
  refine ⟨(observeIndex_step he.checked h).1, fun p hp => ?_⟩
  rcases observeIndex_cases h with ⟨rfl, _⟩ |
    ⟨target, free, body, type, terms, mask, rfl, hgathers, _, hterms, hmask, _, _, hmerge, _⟩
  · exact he.masked p hp
  · by_cases hvar : target = var
    · subst hvar
      refine ⟨free, terms, ⟨hgathers.2.2, body, hs, hterms⟩, fun t ht => ?_⟩
      obtain ⟨q, hq, _⟩ := (subsetOf_of_sumMask hmask).2 t ht
      exact termMask?_isSome_of_below hbelow (Option.isSome_iff_exists.2 ⟨q, hq⟩)
    · have hsame : e'.get? var = e.get? var := by
        rcases Evidence.merge_cases hmerge with ⟨_, rfl⟩ | ⟨_, _, _, _, rfl⟩
        all_goals rw [Table.get?_insert, if_neg (by simpa using hvar)]
      obtain ⟨free, terms, hassigns, hmasked⟩ := he.masked p (hsame ▸ hp)
      exact ⟨free, terms, hassigns, fun t ht => termMask?_isSome_of_below hbelow (hmasked t ht)⟩

/-- An assignment that settled evidence leaves alone has no mask, or the pattern that is known. -/
theorem known_of_quiet {type : TensorType} {body : Expr α} {terms : List (Term α)}
    (hquiet : inf.observeIndex decided e (.assign var (.index free body)) = .ok (e, false))
    (hgathers : inf.Gathers decided var free) (htype : inf.tensors.get? var = some type)
    (hterms : body.terms = .ok terms) :
    ∃ mask, inf.sumMask e var free none terms = .ok mask ∧
      ∀ p, mask = some p → e.get? var = some p := by
  rw [observeIndex_of_gathers hgathers htype hterms] at hquiet
  obtain ⟨mask, hmask, hquiet⟩ := Except.bind_eq_ok hquiet
  refine ⟨mask, hmask, fun p hp => ?_⟩
  subst hp
  by_contra hne
  simp only [if_neg hne] at hquiet
  obtain ⟨_, _, hquiet⟩ := Except.bind_eq_ok hquiet
  obtain ⟨_, _, hquiet⟩ := Except.bind_eq_ok hquiet
  cases hquiet

end Inference

/-! ## Inferred tables -/

section

variable {α : Type} [Scalar α] {f : Func α} {seed storages : Storages} {var : VarName}

omit [Scalar α] in
theorem Inference.pattern?_table {inf : Inference α} {evidence : Evidence}
    (hchecked : inf.seed.entries.forM inf.checkSeed = .ok ())
    (hc : evidence.Checked inf.func inf.tensors) (var : VarName) :
    (inf.table evidence).pattern? var = inf.patternOf? evidence var := by
  rw [Table.pattern?, get?_table, patternOf?]
  cases hs : inf.seed.get? var with
  | some s =>
      obtain ⟨type, htype, _⟩ := suits_of_checkSeed
        (Except.forM_mem hchecked (Table.find?_eq_some_mem hs))
      simp [htype, storageOf, hs]
  | none =>
      cases hp : evidence.get? var with
      | none =>
          cases htype : inf.tensors.get? var with
          | none => rfl
          | some type =>
              simp only [Option.map_some, Option.bind_some, storageOf, hs, hp]
              split <;> rfl
      | some p =>
          obtain ⟨type, htype, hcheck⟩ := hc var p hp
          have hrank : type.rank = 2 := by
            rw [TensorType.rank, inf.func.dims_of_checkInduces hcheck]
            rfl
          simp [htype, storageOf, hs, hp, hrank, TensorStorage.pattern?]

theorem Func.sparse_or_dense_of_inferStorageWith {type : TensorType}
    (h : f.inferStorageWith seed = .ok storages) (htype : f.tensors.get? var = some type)
    (hrank : type.rank = 2) (hseed : seed.get? var = none) :
    ∃ s, storages.get? var = some s ∧ (s.kind = .dense ∨ ∃ p, s.kind = .sparse p) := by
  obtain ⟨assembled, evidence, _, _, _, rfl⟩ := inferStorageWith_eq_ok_iff.1 h
  refine ⟨(f.inference seed).storageOf evidence var type, ?_, ?_⟩
  · rw [Inference.get?_table, show (f.inference seed).tensors.get? var = some type from htype]
    rfl
  · rw [Inference.storageOf, show (f.inference seed).seed.get? var = none from hseed]
    simp only [hrank]
    split
    · next p _ => exact Or.inr ⟨p, rfl⟩
    · exact Or.inl rfl

/-- **Masked assignments** to a tensor that no kernel writes are masked inside its pattern, and a
    tensor with a pattern has one. -/
theorem Func.mask_of_inferStorageWith {type : TensorType}
    (h : f.inferStorageWith seed = .ok storages) (htype : f.tensors.get? var = some type)
    (hseed : seed.get? var = none) (hunwritten : f.kernelWrites var = false) :
    (∀ free terms, f.Assigns var free terms → storages.Mask free terms →
      ∃ p, storages.pattern? var = some p ∧
        ∀ t ∈ terms, ∃ q, t.MaskedBy storages free q ∧ q.subsetOf p = true) ∧
      ∀ p, storages.pattern? var = some p →
        ∃ free terms, f.Assigns var free terms ∧ storages.Mask free terms := by
  obtain ⟨assembled, evidence, hchecked, hassembled, hevidence, rfl⟩ := inferStorageWith_eq_ok_iff.1 h
  have hnone : assembled.get? var = none := by
    cases hp : assembled.get? var with
    | none => rfl
    | some p =>
        have hwrites := (Inference.written_assemblyEvidence hassembled var p hp).kernelWrites
        cases hwrites.symm.trans hunwritten
  have hmasking : (f.inference seed).Masking var evidence := by
    refine Inference.propagate_invariant (fun s hs e e' reported he => he.step hs) ?_ hevidence
    refine ⟨Inference.checked_assemblyEvidence hassembled, fun p hp => ?_⟩
    cases hnone.symm.trans hp
  have hpattern := Inference.pattern?_table hchecked hmasking.checked
  have hknown : (f.inference seed).patternOf? evidence var = evidence.get? var := by
    rw [Inference.patternOf?, show (f.inference seed).seed.get? var = none from hseed]
  have hmask : ∀ free (terms : List (Term α)),
      ((f.inference seed).table evidence).Mask free terms ↔
        ∀ t ∈ terms, ((f.inference seed).termMask? evidence free t).isSome = true := by
    intro free terms
    refine forall₂_congr fun t _ => ?_
    rw [Inference.termMask?_isSome_iff]
    simp only [Term.MaskedBy, hpattern]
    constructor
    · rintro ⟨p, o, ho, hp⟩
      exact ⟨o, ho, p, hp⟩
    · rintro ⟨o, ho, p, hp⟩
      exact ⟨p, o, ho, hp⟩
  refine ⟨fun free terms hassigns hmasked => ?_, fun p hp => ?_⟩
  · obtain ⟨hlength, body, hbody, hterms⟩ := hassigns
    have hgathers : (f.inference seed).Gathers assembled.keys var free := by
      refine ⟨?_, ?_, hlength⟩
      · rw [Table.contains, show (f.inference seed).seed.get? var = none from hseed]
        rfl
      · exact Bool.eq_false_iff.2 fun hmem =>
          Table.find?_eq_none_iff.1 hnone (List.contains_iff_mem.1 hmem)
    obtain ⟨found, hfound, hheld⟩ := Inference.known_of_quiet
      (Inference.quiet_of_propagate hevidence _ hbody) hgathers htype hterms
    cases found with
    | none =>
        have hne := (body.expands_of_terms hterms).ne_nil
        exact absurd hfound (Inference.sumMask_ne_none (Or.inr hne) ((hmask free terms).1 hmasked))
    | some p =>
        refine ⟨p, by rw [hpattern, hknown, hheld p rfl], fun t ht => ?_⟩
        obtain ⟨q, hq, hsub⟩ := (Inference.subsetOf_of_sumMask hfound).2 t ht
        obtain ⟨place, operand, hoperand, hnames, hq⟩ := Inference.operand_of_termMask? hq
        refine ⟨q, ⟨(place, operand), List.mem_filter.2 ⟨hoperand, by simpa using hnames⟩, ?_⟩, hsub⟩
        rw [hpattern, hq]
  · rw [hpattern, hknown] at hp
    obtain ⟨free, terms, hassigns, hmasked⟩ := hmasking.masked p hp
    exact ⟨free, terms, hassigns, (hmask free terms).2 hmasked⟩

end

end GraphTensor
