import GraphTensor.Proofs.Storage.Sources
import GraphTensor.Proofs.Topology.Room
set_option autoImplicit false

/-! # Faithful tables of descriptors

Passes and runs trust the table of descriptors: each tensor has one, the patterns in it resolve, and
no two entries of a tensor share a slot (`TensorStorage.Faithful`, `Func.FaithfulTable`). Whatever
inference finds out by itself has these properties. A descriptor that is given beforehand has them
too, unless it puts a tensor with dimensions into a register or names the diagonal of a set that is
not declared; its check looks at neither. `TensorStorage.Sound` is what is left to ask for.

A diagonal in the table is either given, or the pattern of a kernel write, and kernel writes range
over declared sets. That `TensorStorage.Sound` is kept by inference (`Inference.sound_storageOf`)
therefore rests on where evidence comes from. -/

namespace GraphTensor

theorem Table.keys_ofList {κ α : Type} [BEq κ] [LawfulBEq κ] {entries : List (κ × α)}
    (h : (entries.map Prod.fst).Nodup) : (ofList entries).keys = entries.map Prod.fst := by
  have hfold : ∀ (entries : List (κ × α)) (t : Table κ α),
      (t.keys ++ entries.map Prod.fst).Nodup →
        (entries.foldl (fun t e => t.insert e.1 e.2) t).keys = t.keys ++ entries.map Prod.fst := by
    intro entries
    induction entries with
    | nil => simp
    | cons e rest ih =>
        intro t hnodup
        have hnew : t.contains e.1 = false := by
          have hnot : e.1 ∉ t.keys := fun hmem =>
            List.disjoint_of_nodup_append hnodup hmem (List.mem_cons_self ..)
          simp [contains, get?, find?_eq_none_iff.2 hnot]
        have hkeys : (t.insert e.1 e.2).keys = t.keys ++ [e.1] := by
          rw [keys_insert, hnew]
          rfl
        rw [List.foldl_cons, ih _ (by simpa [hkeys] using hnodup), hkeys]
        simp
  exact (hfold entries empty h).trans (List.nil_append _)

section

variable {α : Type}

/-- The names of the tensors among the variables, in the order of their declaration. -/
def Func.tensorNames (f : Func α) : List VarName :=
  (f.allVars.filter fun v => v.type.asTensor?.isSome).map Variable.name

theorem Func.keys_tensors {f : Func α} (h : f.DistinctNames) :
    f.tensors.keys = f.tensorNames ∧ f.tensorNames.Nodup := by
  have hnames : ∀ vars : List Variable,
      (vars.filterMap fun v => v.type.asTensor?.map fun t => (v.name, t)).map Prod.fst =
        (vars.filter fun v => v.type.asTensor?.isSome).map Variable.name := by
    intro vars
    induction vars with
    | nil => rfl
    | cons v rest ih =>
        cases htype : v.type.asTensor? with
        | none => simp [htype, ih]
        | some type => simp [htype, ih]
  have hnodup : f.tensorNames.Nodup := h.sublist (List.filter_sublist.map _)
  refine ⟨?_, hnodup⟩
  rw [tensors, Table.keys_ofList (hnames f.allVars ▸ hnodup), hnames]
  rfl

/-- A descriptor that is given beforehand keeps entries apart and refers to sets that exist: only a
    tensor without dimensions is in a register, and a diagonal is that of a declared set. -/
structure TensorStorage.Sound (s : TensorStorage) (f : Func α) (type : TensorType) : Prop where
  /-- A register holds a tensor without dimensions. -/
  register : s.kind = .register → type.dims = []
  /-- A diagonal is over a declared set. -/
  declared : ∀ p, s.pattern? = some p → p.isDiagonal = true → (f.set? p.rows).isSome = true

theorem Func.Writes.declared {f : Func α} {var : VarName} {p : PatternRef} (h : f.Writes var p)
    (hdiagonal : p.isDiagonal = true) : (f.set? p.rows).isSome = true := by
  obtain ⟨_, set, kernel, _, decl, indices, _, hdecl, _, hpattern⟩ := h
  unfold SetDecl.writtenPattern? at hpattern
  split at hpattern
  · obtain ⟨row, _, hpattern⟩ := Option.bind_eq_some_iff.1 hpattern
    obtain ⟨col, _, hpattern⟩ := Option.bind_eq_some_iff.1 hpattern
    unfold SetDecl.inducedPattern? at hpattern
    split at hpattern <;> cases hpattern
    · obtain ⟨hname, _⟩ := Func.name_of_set? hdecl
      rw [PatternRef.diagonal, hname, hdecl]
      rfl
    -- the patterns of a relation are no diagonals
    all_goals cases hdiagonal
  · cases hpattern

end

variable {α : Type} [Scalar α]

/-- A descriptor is faithful to a tensor: it has the tensor's block, only a tensor without dimensions
    is in a register, the pattern of a sparse tensor is one over its dimensions that every bindings
    of the function resolve, and in every buffer that is laid out by the descriptor different index
    tuples have different places. -/
structure TensorStorage.Faithful (s : TensorStorage) (f : Func α) (type : TensorType) : Prop where
  /-- The blocks agree. -/
  block : s.block = type.block
  /-- A register holds a tensor without dimensions. -/
  register : s.kind = .register → type.dims = []
  /-- The dimensions of a sparse tensor are the rows and the columns of its pattern. -/
  dims : ∀ p, s.kind = .sparse p → type.dims = [.set p.rows, .set p.cols]
  /-- The pattern of a sparse tensor resolves. -/
  resolves : ∀ p, s.kind = .sparse p → ∀ (b : Bindings α) (r : Resolution), b.check f = .ok () →
    Resolution.ofBindings f b = .ok r → r.Resolves p
  /-- Different index tuples have different places. -/
  apart : ∀ (m : Machine α) (buffer : Buffer α) (extents indices indices' : List Nat) (place : Nat),
    m.resolution.PatternsFit → m.allocate type.dims s = .ok buffer → m.Extents type.dims extents →
      WithinExtents extents indices → WithinExtents extents indices' →
        buffer.place? extents (indices.map Nat.cast) = some place →
          buffer.place? extents (indices'.map Nat.cast) = some place → indices = indices'

/-- A table is faithful to a function and the descriptors given beforehand: it has one descriptor for
    each tensor, in the order of their declaration, that is faithful to it, and those given
    beforehand are kept. -/
structure Func.FaithfulTable (f : Func α) (seed storages : Storages) : Prop where
  /-- Each tensor has its descriptor, in the order of their declaration. -/
  keys : storages.keys = f.tensorNames
  /-- No tensor has two. -/
  once : storages.keys.Nodup
  /-- Descriptors given beforehand are kept. -/
  kept : ∀ var s, seed.get? var = some s → storages.get? var = some s
  /-- Each descriptor is faithful to the tensor. -/
  faithful : ∀ var s, storages.get? var = some s →
    ∃ type, f.tensorType? var = some type ∧ s.Faithful f type

theorem TensorStorage.Suits.faithful {s : TensorStorage} {f : Func α} {var : VarName}
    {type : TensorType} (h : s.Suits f var type) (hsound : s.Sound f type) : s.Faithful f type where
  block := h.block
  register := hsound.register
  dims := fun p hp => f.dims_of_checkInduces (h.pattern p hp)
  resolves := fun p hp b r hcheck hr =>
    (Resolution.fits_of_ofBindings hr).resolves hcheck (h.pattern p hp)
      (hsound.declared p (by rw [TensorStorage.pattern?, hp]))
  apart := fun m buffer extents indices indices' place hfit hallocate hextents hwithin hwithin'
      hplace hplace' =>
    (Machine.shaped_of_allocate hfit (fun p hp => f.dims_of_checkInduces (h.pattern p hp))
      hsound.register hallocate).place?_inj hextents hwithin hwithin' hplace hplace'

/-- Descriptors that inference finds, from ones given beforehand that are sound, are sound. -/
theorem Inference.sound_storageOf {inf : Inference α} {assembled evidence : Evidence}
    (hseed : ∀ var s, inf.seed.get? var = some s → ∀ type, inf.tensors.get? var = some type →
      s.Sound inf.func type)
    (hchecked : inf.seed.entries.forM inf.checkSeed = .ok ())
    (hassembled : inf.assemblyEvidence = .ok assembled)
    (hevidence : inf.propagate assembled.keys assembled = .ok evidence) {var : VarName}
    {type : TensorType} (htype : inf.tensors.get? var = some type) :
    (inf.storageOf evidence var type).Sound inf.func type := by
  -- diagonals in the evidence come from kernel writes and from the seed
  have hall : evidence.All fun _ p => p.isDiagonal = true → (inf.func.set? p.rows).isSome = true := by
    refine all_propagate (P := fun p => p.isDiagonal = true → (inf.func.set? p.rows).isSome = true)
      (fun other s p hs hp => ?_) (fun other p hp => ?_) hevidence
    · obtain ⟨type', htype', _⟩ := suits_of_checkSeed
        (Except.forM_mem hchecked (Table.find?_eq_some_mem hs))
      exact (hseed other s hs type' htype').declared p hp
    · exact (written_assemblyEvidence hassembled other p hp).declared
  unfold storageOf
  split
  · next s hs => exact hseed var s hs type htype
  · split
    · next hrank =>
        refine ⟨fun _ => List.length_eq_zero_iff.1 hrank, fun p hp => ?_⟩
        cases hp
    · refine ⟨fun h => ?_, fun p hp => ?_⟩
      · cases h
      · cases hp
    · split
      · next pattern hpattern =>
          refine ⟨fun h => ?_, fun p hp => ?_⟩
          · cases h
          · obtain rfl : pattern = p := Option.some.inj hp
            exact hall var _ hpattern
      · refine ⟨fun h => ?_, fun p hp => ?_⟩
        · cases h
        · cases hp

theorem Func.faithful_of_get? {f : Func α} {seed storages : Storages} (hdistinct : f.DistinctNames)
    (hseed : ∀ var s, seed.get? var = some s → ∀ type, f.tensorType? var = some type →
      s.Sound f type)
    (h : f.inferStorageWith seed = .ok storages) {var : VarName} {s : TensorStorage}
    (hs : storages.get? var = some s) :
    ∃ type, f.tensorType? var = some type ∧ s.Faithful f type := by
  obtain ⟨type, htype, hsuits⟩ := suits_of_inferStorageWith h hs
  obtain ⟨assembled, evidence, hchecked, hassembled, hevidence, rfl⟩ := inferStorageWith_eq_ok_iff.1 h
  rw [(f.inference seed).get?_table, show (f.inference seed).tensors.get? var = _ from htype] at hs
  obtain rfl := Option.some.inj hs
  refine ⟨type, (f.tensors_get? hdistinct var).symm.trans htype, hsuits.faithful ?_⟩
  refine (f.inference seed).sound_storageOf ?_ hchecked hassembled hevidence htype
  intro other s hs type' htype'
  exact hseed other s hs type' ((f.tensors_get? hdistinct other).symm.trans htype')

/-- **Inferred tables are faithful**, if the descriptors given beforehand are sound. -/
theorem Func.faithful_of_inferStorageWith {f : Func α} {seed storages : Storages}
    (hdistinct : f.DistinctNames)
    (hseed : ∀ var s, seed.get? var = some s → ∀ type, f.tensorType? var = some type →
      s.Sound f type)
    (h : f.inferStorageWith seed = .ok storages) : f.FaithfulTable seed storages := by
  have hfaithful : ∀ var s, storages.get? var = some s →
      ∃ type, f.tensorType? var = some type ∧ s.Faithful f type :=
    fun _ _ => f.faithful_of_get? hdistinct hseed h
  obtain ⟨assembled, evidence, hchecked, -, -, rfl⟩ := inferStorageWith_eq_ok_iff.1 h
  obtain ⟨hkeys, hnodup⟩ := f.keys_tensors hdistinct
  have hsame : ((f.inference seed).table evidence).keys = f.tensorNames := by
    rw [← hkeys]
    simp [Table.keys, Inference.table, inference]
  refine ⟨hsame, hsame ▸ hnodup, fun var s hs => ?_, hfaithful⟩
  obtain ⟨type, htype, _⟩ := Inference.suits_of_checkSeed
    (Except.forM_mem hchecked (Table.find?_eq_some_mem hs))
  have hseeded : (f.inference seed).storageOf evidence var type = s := by
    rw [Inference.storageOf, show (f.inference seed).seed.get? var = some s from hs]
  rw [(f.inference seed).get?_table, show (f.inference seed).tensors.get? var = some type from htype,
    ← hseeded]
  rfl

/-- A function whose matrix "b" takes the entries of "d", a matrix that no assembly writes, and whose
    matrix "a" is assembled over edges. -/
def copiedDiagonal : Func Float :=
  let i : IndexVar := ⟨"i", .set "V"⟩
  let j : IndexVar := ⟨"j", .set "V"⟩
  (Func.named "f").withSet (.plain "V")
    |>.withSet (.relation "E" "V" 2)
    |>.withLocal "a" (.matrix "V" "V" .scalar)
    |>.withLocal "d" (.matrix "V" "V" .scalar)
    |>.withLocal "b" (.matrix "V" "V" .scalar)
    |>.withLocal "s" ⟨[], .scalar⟩
    |>.withResult "x" (.vector "V" .scalar)
    |>.withAssembly ["a"] "E" (fun k =>
      [.contribute "a" [k.endpointExpr 0, k.endpointExpr 1] (.literal (.float 1))])
    |>.withStmt (.assign "b" (.index [i, j] (.indexed ⟨"d", [i, j]⟩)))

/-- With a diagonal given for "d" and a register for the number "s", the table is faithful. -/
theorem copiedDiagonal_faithful :
    copiedDiagonal.FaithfulTable
      ⟨[("d", ⟨.sparse (.diagonal "V"), .scalar⟩), ("s", ⟨.register, .scalar⟩)]⟩
      ⟨[("a", ⟨.sparse (.square "E" "V"), .scalar⟩), ("d", ⟨.sparse (.diagonal "V"), .scalar⟩),
        ("b", ⟨.sparse (.diagonal "V"), .scalar⟩), ("s", ⟨.register, .scalar⟩),
        ("x", ⟨.dense, .scalar⟩)]⟩ := by
  have hdistinct : copiedDiagonal.DistinctNames := by
    unfold Func.DistinctNames
    decide
  refine Func.faithful_of_inferStorageWith hdistinct (fun var s hs type htype => ?_)
    (by decide +kernel)
  simp only [Table.get?, Table.find?, beq_iff_eq] at hs
  split at hs
  · obtain rfl := Option.some.inj hs
    refine ⟨fun hregister => ?_, fun p hp _ => ?_⟩
    · cases hregister
    · obtain rfl : PatternRef.diagonal "V" = p := Option.some.inj hp
      rfl
  · split at hs
    · next hvar =>
        subst hvar
        obtain rfl := Option.some.inj hs
        obtain rfl : ⟨[], .scalar⟩ = type := Option.some.inj htype
        refine ⟨fun _ => rfl, fun p hp => ?_⟩
        cases hp
    · cases hs

/-- A function with a vector over a set and nothing else. -/
def loneVector : Func Float :=
  (Func.named "f").withSet (.plain "V") |>.withLocal "x" (.vector "V" .scalar)

/-- The check of descriptors lets a vector be put into a register, where all its entries are one. -/
theorem loneVector_unfaithful :
    loneVector.DistinctNames ∧ ∃ seed storages, loneVector.inferStorageWith seed = .ok storages ∧
      ¬ loneVector.FaithfulTable seed storages := by
  let table : Storages := ⟨[("x", ⟨.register, .scalar⟩)]⟩
  refine ⟨List.nodup_singleton _, table, table, by decide +kernel, fun h => ?_⟩
  obtain ⟨type, htype, hfaithful⟩ := h.faithful "x" ⟨.register, .scalar⟩ rfl
  obtain rfl : .vector "V" .scalar = type := Option.some.inj htype
  cases hfaithful.register rfl

end GraphTensor
