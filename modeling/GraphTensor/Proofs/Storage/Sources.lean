import GraphTensor.Proofs.Storage.Order
set_option autoImplicit false

/-! # Where evidence comes from

Every pattern that inference finds for a tensor is one that a kernel write ranges over
(`Func.Writes`), or one that was known before for an operand of an index expression. So whatever
holds of the patterns of kernel writes and of the descriptors given beforehand holds of all evidence
(`Evidence.All`, `Inference.all_propagate`). The reason is that merging two patterns gives one of
them: nothing is ever made up. -/

namespace GraphTensor

/-! ## Merging -/

theorem mergePatterns_eq_or {var : VarName} {a b c : PatternRef}
    (h : mergePatterns var a b = .ok c) : c = a ∨ c = b := by
  unfold mergePatterns at h
  split at h
  · exact Or.inr (Except.ok.inj h).symm
  · split at h
    · exact Or.inl (Except.ok.inj h).symm
    · cases h

/-- Every pattern that is known is one of a kind that may depend on the tensor. -/
def Evidence.All (e : Evidence) (P : VarName → PatternRef → Prop) : Prop :=
  ∀ var p, e.get? var = some p → P var p

namespace Evidence

variable {e e' : Evidence} {P : VarName → PatternRef → Prop} {var : VarName} {p : PatternRef}

theorem All.empty : All Table.empty P :=
  fun _ _ h => nomatch h

theorem All.insert (h : e.All P) (hp : P var p) : All (e.insert var p) P := by
  intro other q hq
  rw [Table.get?_insert] at hq
  by_cases hvar : var = other
  · subst hvar
    obtain rfl : p = q := by simpa using hq
    exact hp
  · rw [if_neg (by simpa using hvar)] at hq
    exact h other q hq

theorem All.merge (h : e.All P) (hp : P var p) (hmerge : e.merge var p = .ok e') : e'.All P := by
  rcases merge_cases hmerge with ⟨_, rfl⟩ | ⟨held, merged, hheld, hmerged, rfl⟩
  · exact h.insert hp
  · rcases mergePatterns_eq_or hmerged with rfl | rfl
    · exact h.insert (h var _ hheld)
    · exact h.insert hp

end Evidence

/-! ## Evidence of assemblies -/

section

variable {α : Type}

/-- A kernel write of an assembly has two indices that range over a pattern. -/
def Func.Writes (f : Func α) (var : VarName) (p : PatternRef) : Prop :=
  ∃ targets set kernel body decl indices,
    .assemble targets set kernel body ∈ f.body ∧ f.set? set = some decl ∧
      (var, indices) ∈ (Stmt.substmtsOfList body).filterMap Stmt.entryWrite? ∧
      decl.writtenPattern? kernel indices = some p

theorem Inference.written_assemblyEvidence {inf : Inference α} {e : Evidence}
    (h : inf.assemblyEvidence = .ok e) : e.All inf.func.Writes := by
  refine Except.foldlM_prefix (P := fun _ e => e.All inf.func.Writes) ?_ .empty h
  intro done e s e' hs he hstep
  unfold observeAssembly at hstep
  split at hstep
  · next targets set kernel body =>
      split at hstep
      · cases hstep
      · next decl hdecl =>
          refine Except.foldlM_prefix (P := fun _ e => e.All inf.func.Writes) ?_ he hstep
          intro done e write e' hwrite he hstep
          obtain ⟨var, indices⟩ := write
          simp only [observeWrite] at hstep
          split at hstep
          · exact Except.ok.inj hstep ▸ he
          · split at hstep
            · next type pattern _ hpattern =>
                obtain ⟨_, _, hmerge⟩ := Except.bind_eq_ok hstep
                exact he.merge ⟨targets, set, kernel, body, decl, indices, hs, hdecl, hwrite,
                  hpattern⟩ hmerge
            · exact Except.ok.inj hstep ▸ he
  · exact Except.ok.inj hstep ▸ he

end

/-! ## Evidence of index expressions -/

namespace Inference

variable {α : Type} [Scalar α] {inf : Inference α} {decided : List VarName} {e e' : Evidence}

omit [Scalar α] in
theorem operand_of_termMask? {free : List IndexVar} {t : Term α} {p : PatternRef}
    (h : inf.termMask? e free t = some p) :
    ∃ place operand, (place, operand) ∈ t.tensors ∧ operand.names = free.map IndexVar.name ∧
      inf.patternOf? e operand.tensor = some p := by
  have hmem : p ∈ t.tensors.filterMap fun operand =>
      if operand.2.names = free.map IndexVar.name then inf.patternOf? e operand.2.tensor else none := by
    rcases Option.or_eq_some_iff.1 h with hfind | ⟨_, hhead⟩
    · exact List.mem_of_find?_eq_some hfind
    · exact List.mem_of_head? hhead
  obtain ⟨⟨place, operand⟩, hoperand, hp⟩ := List.mem_filterMap.1 hmem
  dsimp only at hp
  split at hp
  · next hnames => exact ⟨place, operand, hoperand, hnames, hp⟩
  · cases hp

omit [Scalar α] in
theorem term_of_sumMask {var : VarName} {free : List IndexVar} {terms : List (Term α)}
    {start : Option PatternRef} {p : PatternRef}
    (h : inf.sumMask e var free start terms = .ok (some p)) :
    start = some p ∨ ∃ t ∈ terms, inf.termMask? e free t = some p := by
  induction terms generalizing start with
  | nil => exact Or.inl (Except.ok.inj h)
  | cons t rest ih =>
      rw [sumMask] at h
      cases hmask : inf.termMask? e free t with
      | none =>
          rw [hmask] at h
          cases h
      | some new =>
          rw [hmask] at h
          cases start with
          | none =>
              rcases ih h with hnew | ⟨t', ht', hp⟩
              · exact Or.inr ⟨t, List.mem_cons_self .., hmask.trans hnew⟩
              · exact Or.inr ⟨t', List.mem_cons_of_mem _ ht', hp⟩
          | some current =>
              obtain ⟨merged, hmerged, h⟩ := Except.bind_eq_ok h
              rcases ih h with hnew | ⟨t', ht', hp⟩
              · obtain rfl := Option.some.inj hnew
                rcases mergePatterns_eq_or hmerged with rfl | rfl
                · exact Or.inl rfl
                · exact Or.inr ⟨t, List.mem_cons_self .., hmask⟩
              · exact Or.inr ⟨t', List.mem_cons_of_mem _ ht', hp⟩

/-- Whatever holds of the descriptors given beforehand and of the evidence of assemblies holds of
    all evidence. -/
theorem all_propagate {P : PatternRef → Prop}
    (hseed : ∀ var s p, inf.seed.get? var = some s → s.pattern? = some p → P p)
    (he : e.All fun _ => P) (h : inf.propagate decided e = .ok e') : e'.All fun _ => P := by
  refine propagate_invariant (P := fun e => e.All fun _ => P) ?_ he h
  intro s _ e e' reported he hstep
  rcases observeIndex_cases hstep with
    ⟨rfl, _⟩ | ⟨var, free, _, _, terms, mask, _, _, _, _, hmask, _, _, hmerge, _⟩
  · exact he
  · refine he.merge ?_ hmerge
    rcases term_of_sumMask hmask with hnone | ⟨t, _, hterm⟩
    · cases hnone
    · obtain ⟨_, operand, _, _, hpattern⟩ := operand_of_termMask? hterm
      unfold patternOf? at hpattern
      split at hpattern
      · next storage hstorage => exact hseed _ storage mask hstorage hpattern
      · exact he _ mask hpattern

end Inference

end GraphTensor
