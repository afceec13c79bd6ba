import GraphTensor.Proofs.Storage.Settling
set_option autoImplicit false

/-! # What inferred descriptors say

Every descriptor of the inferred table suits the type of its tensor (`TensorStorage.Suits`): it has
the tensor's block, and the pattern of a sparse one can lie on the tensor's dimensions, whether it
was found or given beforehand. Without descriptors given beforehand, the tensors in registers are
those without dimensions.

A table is the evidence in which propagation ends, together with the types of the tensors
(`Inference.table`). `Func.inferStorageWith_eq_ok_iff` takes inference apart into these two and the
check of the given descriptors, and the later modules start from it. Tensors are looked up by name,
which is what `Func.DistinctNames` is for. -/

namespace GraphTensor

section

variable {α : Type}

/-! ## Types of variables -/

/-- No two variables of a function have one name. -/
def Func.DistinctNames (f : Func α) : Prop :=
  (f.allVars.map Variable.name).Nodup

theorem Func.tensors_get? {f : Func α} (h : f.DistinctNames) (var : VarName) :
    f.tensors.get? var = f.tensorType? var := by
  have hfind : ∀ vars : List Variable, (vars.map Variable.name).Nodup →
      let entries := vars.filterMap fun v => v.type.asTensor?.map fun t => (v.name, t)
      (entries.map Prod.fst).Nodup ∧ (∀ key ∈ entries.map Prod.fst, key ∈ vars.map Variable.name) ∧
        Table.find? var entries =
          ((vars.find? (·.name == var)).map Variable.type).bind ValueType.asTensor? := by
    intro vars
    induction vars with
    | nil => simp [Table.find?]
    | cons v rest ih =>
        intro hnodup
        rw [List.map_cons, List.nodup_cons] at hnodup
        obtain ⟨hkeys, hsub, hrest⟩ := ih hnodup.2
        have hnew : v.name ∉ (rest.filterMap fun v => v.type.asTensor?.map fun t =>
            (v.name, t)).map Prod.fst := fun hmem => hnodup.1 (hsub _ hmem)
        cases htype : v.type.asTensor? with
        | none =>
            simp only [List.filterMap_cons, htype, Option.map_none]
            refine ⟨hkeys, fun key hkey => List.mem_cons_of_mem _ (hsub key hkey), ?_⟩
            by_cases hv : v.name = var
            · simp [hv, htype, Table.find?_eq_none_iff.2 (hv ▸ hnew)]
            · simp [hv, hrest]
        | some type =>
            simp only [List.filterMap_cons, htype, Option.map_some, List.map_cons]
            refine ⟨List.nodup_cons.2 ⟨hnew, hkeys⟩, fun key hkey => ?_, ?_⟩
            · rcases List.mem_cons.1 hkey with rfl | hkey
              · exact List.mem_cons_self ..
              · exact List.mem_cons_of_mem _ (hsub key hkey)
            · by_cases hv : v.name = var
              · simp [Table.find?, hv, htype]
              · simp [Table.find?, hv, hrest]
  obtain ⟨hkeys, _, hall⟩ := hfind f.allVars h
  rw [tensors, Table.get?_ofList hkeys, hall]
  rfl

/-! ## Descriptors -/

/-- A descriptor suits a tensor: it has the tensor's block, and its pattern can lie on the tensor's
    dimensions. -/
structure TensorStorage.Suits (s : TensorStorage) (f : Func α) (var : VarName)
    (type : TensorType) : Prop where
  /-- The blocks agree. -/
  block : s.block = type.block
  /-- The pattern can lie on the dimensions. -/
  pattern : ∀ p, s.kind = .sparse p → f.checkInduces var p type = .ok ()

/-- A descriptor that passes its check beforehand suits its tensor. -/
theorem Inference.suits_of_checkSeed {inf : Inference α} {var : VarName} {s : TensorStorage}
    (h : inf.checkSeed (var, s) = .ok ()) :
    ∃ type, inf.tensors.get? var = some type ∧ s.Suits inf.func var type := by
  simp only [checkSeed] at h
  split at h
  · cases h
  · next type htype =>
      split at h
      · cases h
      · next hblock =>
          refine ⟨type, htype, not_not.1 hblock, fun p hp => ?_⟩
          rwa [hp] at h

/-- The table of descriptors, the evidence being complete. -/
def Inference.table (inf : Inference α) (e : Evidence) : Storages :=
  ⟨inf.tensors.entries.map fun (var, type) => (var, inf.storageOf e var type)⟩

theorem Inference.get?_table (inf : Inference α) (e : Evidence) (var : VarName) :
    (inf.table e).get? var = (inf.tensors.get? var).map (inf.storageOf e var) :=
  Table.find?_map (inf.storageOf e) var inf.tensors.entries

end

variable {α : Type} [Scalar α]

/-- An inferred table is that of the evidence which propagation leaves, after the check of the
    descriptors given beforehand. -/
theorem Func.inferStorageWith_eq_ok_iff {f : Func α} {seed storages : Storages} :
    f.inferStorageWith seed = .ok storages ↔
      ∃ assembled evidence, seed.entries.forM (f.inference seed).checkSeed = .ok () ∧
        (f.inference seed).assemblyEvidence = .ok assembled ∧
        (f.inference seed).propagate assembled.keys assembled = .ok evidence ∧
        storages = (f.inference seed).table evidence := by
  constructor
  · intro h
    obtain ⟨_, hseed, h⟩ := Outcome.bind_eq_ok_iff.1 h
    obtain ⟨assembled, hassembled, h⟩ := Outcome.bind_eq_ok_iff.1 h
    obtain ⟨evidence, hevidence, h⟩ := Outcome.bind_eq_ok_iff.1 h
    exact ⟨assembled, evidence, Outcome.ofExcept_eq_ok_iff.1 hseed,
      Outcome.ofExcept_eq_ok_iff.1 hassembled, hevidence, (Except.ok.inj h).symm⟩
  · rintro ⟨assembled, evidence, hseed, hassembled, hevidence, rfl⟩
    exact Outcome.bind_eq_ok_iff.2 ⟨(), Outcome.ofExcept_eq_ok_iff.2 hseed,
      Outcome.bind_eq_ok_iff.2 ⟨assembled, Outcome.ofExcept_eq_ok_iff.2 hassembled,
        Outcome.bind_eq_ok_iff.2 ⟨evidence, hevidence, rfl⟩⟩⟩

/-- **Inferred descriptors suit their tensors.** -/
theorem Func.suits_of_inferStorageWith {f : Func α} {seed storages : Storages}
    (h : f.inferStorageWith seed = .ok storages) {var : VarName} {s : TensorStorage}
    (hs : storages.get? var = some s) :
    ∃ type, f.tensors.get? var = some type ∧ s.Suits f var type := by
  obtain ⟨assembled, evidence, hseed, hassembled, hevidence, rfl⟩ := inferStorageWith_eq_ok_iff.1 h
  have hchecked := Inference.checked_propagate
    (Inference.checked_assemblyEvidence hassembled) hevidence
  rw [Inference.get?_table] at hs
  obtain ⟨type, htype, rfl⟩ := Option.map_eq_some_iff.1 hs
  simp only [Inference.storageOf]
  split
  · next storage hstorage =>
      have hmem := Table.find?_eq_some_mem hstorage
      obtain ⟨type', htype', hsuits⟩ := Inference.suits_of_checkSeed (Except.forM_mem hseed hmem)
      exact ⟨type', htype', hsuits⟩
  · refine ⟨type, htype, ?_⟩
    split
    · exact ⟨rfl, fun p hp => nomatch hp⟩
    · exact ⟨rfl, fun p hp => nomatch hp⟩
    · split
      · next pattern hpattern =>
          refine ⟨rfl, fun p hp => ?_⟩
          cases hp
          obtain ⟨type', htype', hcheck⟩ := hchecked var _ hpattern
          obtain rfl : type' = type := Option.some.inj (htype'.symm.trans htype)
          exact hcheck
      · exact ⟨rfl, fun p hp => nomatch hp⟩

/-- Without descriptors given beforehand, every tensor has one, and a tensor is in a register just if
    it has no dimensions. -/
theorem Func.register_iff_of_inferStorage {f : Func α} {storages : Storages}
    (h : f.inferStorage = .ok storages) {var : VarName} {type : TensorType}
    (htype : f.tensors.get? var = some type) :
    ∃ s, storages.get? var = some s ∧ (s.kind = .register ↔ type.rank = 0) := by
  obtain ⟨_, evidence, _, _, _, rfl⟩ := inferStorageWith_eq_ok_iff.1 h
  refine ⟨(f.inference Table.empty).storageOf evidence var type, ?_, ?_⟩
  · rw [Inference.get?_table]
    exact Option.map_eq_some_iff.2 ⟨type, htype, rfl⟩
  · simp only [Inference.storageOf, inference, Table.get?, Table.empty, Table.find?]
    split
    · next hrank => simp [hrank]
    · next hrank => simp [hrank]
    · next hzero _ =>
        split
        · simpa using hzero
        · simpa using hzero

end GraphTensor
