import GraphTensor.Proofs.Lowering.Runs
import GraphTensor.Proofs.Pattern.Places
import GraphTensor.Proofs.Scalar
import GraphTensor.Proofs.Storage.Faithful
import Mathlib.Algebra.Order.Ring.Rat
set_option autoImplicit false

/-! # Copies of tensors

A tensor is copied into another one number by number, in the order of their buffers, as long as
these hold equally many numbers. Between tensors of one type this copies every entry
(`Machine.Copies`), in whatever way they are stored, with one exception: two patterns may store
equally many entries at different places, and then an entry comes to the place that has its position
in the other pattern. `Machine.StoresAlike` excludes that.

A sparse buffer with as many numbers as a dense one stores every entry, and then its positions are
the row-major places (`Buffer.place?`); so a copy between different kinds of storage keeps all
places or is refused. -/

namespace GraphTensor

variable {α : Type} [Scalar α]

/-! ## Buffers with the numbers of others -/

namespace Buffer

variable {a b : Buffer α} {extents : List Nat} {xs : List Int}

theorem entryAt?_of_empty (hempty : b.block.length = 0) (extents : List Nat) (xs : List Int) :
    b.entryAt? extents xs = some (.zeros b.block) := by
  unfold entryAt?
  split
  · refine blockAt?_eq_some rfl ?_
    simp [BlockValue.zeros, hempty, Slot.read_zero]
  · rfl

/-- A buffer with the numbers of another one has its entries, where both have them at the same
    places. -/
theorem entryAt?_withValues (hsize : a.values.size = b.values.size) (hblock : a.block = b.block)
    (hplace : b.block.length ≠ 0 → b.place? extents xs = a.place? extents xs) :
    (b.withValues a.values).entryAt? extents xs = a.entryAt? extents xs := by
  have hlayout : b.SameLayout (b.withValues a.values) := ⟨a.values, hsize, rfl⟩
  by_cases hempty : b.block.length = 0
  · rw [entryAt?_of_empty (hlayout.block_eq.symm ▸ hempty), entryAt?_of_empty (hblock ▸ hempty),
      hlayout.block_eq, hblock]
  · simp only [entryAt?, hlayout.place?_eq, hplace hempty, blockAt?, hlayout.block_eq, hblock,
      values_withValues hsize]

end Buffer

namespace Machine

variable {m : Machine α} {mem : Memory α}

/-- A copy replaces the numbers of the target by those of the source if they are as many, and is
    refused otherwise. -/
theorem exec_copy {source target : VarName} {a b : Buffer α}
    (ha : mem.buffers.get? source = some a) (hb : mem.buffers.get? target = some b) :
    m.exec (.assign target (.var source)) mem =
      if b.values.size = a.values.size then .ok (mem.withBuffer target (b.withValues a.values))
      else Outcome.fail (.bindingMismatch (.assignment target) b.values.size a.values.size) := by
  have hfillers : m.fillers mem target (.var source) = .ok a.values := by
    simp only [fillers, ha]
    rfl
  rw [exec, assign, hb]
  show m.fill mem target b (.var source) false = _
  rw [fill, hfillers]
  show (Outcome.failIf _ _ >>= fun _ => _) = _
  split
  · next hsize =>
      rw [Outcome.failIf_eq_ok_iff.2 (by simpa using hsize), Slot.write_over_all hsize.symm]
      rfl
  · next hsize =>
      rw [Outcome.failIf, if_pos (by simpa using hsize)]
      rfl

/-! ## Places in buffers of one size -/

omit [Scalar α] in
theorem place?_of_full {q : Pattern} {values : Array α} {block : BlockShape} {indices : List Nat}
    (hvalid : q.Valid) (hfull : q.stored = q.rows * q.cols)
    (hwithin : WithinExtents [q.rows, q.cols] indices) (extents : List Nat) :
    (Buffer.sparse ⟨q, values, block⟩).place? extents (indices.map Nat.cast) =
      some (flatPlace [q.rows, q.cols] indices) := by
  cases hwithin with
  | @cons i _ rest _ hi hrest =>
      cases hrest with
      | @cons j _ rest _ hj hrest =>
          cases hrest
          have hplace : flatPlace [q.rows, q.cols] [i, j] = i * q.cols + j := by simp [flatPlace]
          rw [hplace]
          exact hvalid.positionAt?_eq_some_iff.2 (hvalid.mem_entries_of_full hfull hi hj)

omit [Scalar α] in
theorem Shaped.size_eq_prod {dims : List IndexDomain} {s : TensorStorage} {b : Buffer α}
    {extents : List Nat} (h : m.Shaped dims s b) (hkind : ∀ p, s.kind ≠ .sparse p)
    (hextents : m.Extents dims extents) : b.values.size = extents.prod * s.block.length := by
  cases h with
  | dense _ hextents' hsize _ =>
      obtain rfl := hextents'.unique hextents
      exact hsize
  | sparse hkind' => exact absurd hkind' (hkind _)
  | @register value _ hdims hshape _ =>
      subst hdims
      cases hextents
      rw [List.prod_nil, Nat.one_mul, ← hshape]
      exact value.size_data

omit [Scalar α] in
/-- A buffer that stores every entry has them in row-major order, however it is laid out. -/
theorem Shaped.place?_of_size {dims : List IndexDomain} {s : TensorStorage} {b : Buffer α}
    {extents indices : List Nat} (h : m.Shaped dims s b) (hnonempty : s.block.length ≠ 0)
    (hsize : b.values.size = extents.prod * s.block.length) (hextents : m.Extents dims extents)
    (hwithin : WithinExtents extents indices)
    (hpattern : ∀ p q, s.kind = .sparse p → m.resolution.pattern p = .ok q →
      extents = [q.rows, q.cols]) :
    b.place? extents (indices.map Nat.cast) = some (flatPlace extents indices) := by
  cases h with
  | dense => rw [Buffer.place?, rowMajorPlace_natCast, Int.toNat_natCast]
  | @sparse p q values hkind hdims hq hvalid hvalues _ =>
      obtain rfl := hpattern p q hkind hq
      have hstored : q.stored = q.rows * q.cols := by
        rw [← List.prod_pair]
        exact Nat.eq_of_mul_eq_mul_right (Nat.pos_of_ne_zero hnonempty) (hvalues.symm.trans hsize)
      exact place?_of_full hvalid hstored hwithin _
  | register hkind hdims =>
      subst hdims
      cases hextents
      cases hwithin
      rfl

omit [Scalar α] in
/-- Two buffers of one type that hold equally many numbers have their entries at the same places,
    unless both are sparse. -/
theorem Shaped.place?_eq_of_size {dims : List IndexDomain} {s t : TensorStorage} {a b : Buffer α}
    {extents indices : List Nat} (ha : m.Shaped dims s a) (hb : m.Shaped dims t b)
    (hblock : s.block = t.block) (hnonempty : s.block.length ≠ 0)
    (hsize : a.values.size = b.values.size) (hextents : m.Extents dims extents)
    (hwithin : WithinExtents extents indices)
    (hpattern : ∀ p q, s.kind = .sparse p ∨ t.kind = .sparse p → m.resolution.pattern p = .ok q →
      extents = [q.rows, q.cols])
    (hsame : ∀ p p' q q', s.kind = .sparse p → t.kind = .sparse p' →
      m.resolution.pattern p = .ok q → m.resolution.pattern p' = .ok q' → q.stored = q'.stored →
        q.coordinates = q'.coordinates) :
    b.place? extents (indices.map Nat.cast) = a.place? extents (indices.map Nat.cast) := by
  by_cases hsparse : (∃ p, s.kind = .sparse p) ∧ ∃ p, t.kind = .sparse p
  · obtain ⟨⟨p, hkind⟩, p', hkind'⟩ := hsparse
    cases ha with
    | dense hdense => rw [hkind] at hdense; cases hdense
    | register hregister => rw [hkind] at hregister; cases hregister
    | @sparse _ q values hkind hdims hq hvalid hvalues _ =>
        cases hb with
        | dense hdense => rw [hkind'] at hdense; cases hdense
        | register hregister => rw [hkind'] at hregister; cases hregister
        | @sparse _ q' values' hkind' _ hq' hvalid' hvalues' _ =>
            have hstored : q.stored = q'.stored := by
              have hsize : values.size = values'.size := hsize
              rw [hvalues, hvalues', ← hblock] at hsize
              exact Nat.eq_of_mul_eq_mul_right (Nat.pos_of_ne_zero hnonempty) hsize
            have hcoordinates := hsame _ _ q q' hkind hkind' hq hq' hstored
            subst hdims
            obtain ⟨i, j, rfl⟩ := Shaped.pair_of_withinExtents hextents hwithin
            refine Option.ext fun k => ?_
            exact hvalid'.positionAt?_eq_some_iff.trans
              ((hvalid'.mem_entries_congr hvalid hcoordinates.symm).trans
                hvalid.positionAt?_eq_some_iff.symm)
  · -- one of the two stores every entry, and the other one as many
    have hfull : a.values.size = extents.prod * s.block.length := by
      rcases not_and_or.1 hsparse with hdense | hdense
      · exact ha.size_eq_prod (fun p hkind => hdense ⟨p, hkind⟩) hextents
      · rw [hsize, hblock]
        exact hb.size_eq_prod (fun p hkind => hdense ⟨p, hkind⟩) hextents
    rw [ha.place?_of_size hnonempty hfull hextents hwithin fun p q hkind => hpattern p q (.inl hkind),
      hb.place?_of_size (hblock ▸ hnonempty) (hblock ▸ hsize.symm.trans hfull) hextents hwithin
        fun p q hkind => hpattern p q (.inr hkind)]

theorem Shaped.entryAt?_withValues {dims : List IndexDomain} {s t : TensorStorage} {a b : Buffer α}
    {extents indices : List Nat} (ha : m.Shaped dims s a) (hb : m.Shaped dims t b)
    (hblock : s.block = t.block) (hsize : a.values.size = b.values.size)
    (hextents : m.Extents dims extents) (hwithin : WithinExtents extents indices)
    (hpattern : ∀ p q, s.kind = .sparse p ∨ t.kind = .sparse p → m.resolution.pattern p = .ok q →
      extents = [q.rows, q.cols])
    (hsame : ∀ p p' q q', s.kind = .sparse p → t.kind = .sparse p' →
      m.resolution.pattern p = .ok q → m.resolution.pattern p' = .ok q' → q.stored = q'.stored →
        q.coordinates = q'.coordinates) :
    (b.withValues a.values).entryAt? extents (indices.map Nat.cast) =
      a.entryAt? extents (indices.map Nat.cast) := by
  refine Buffer.entryAt?_withValues hsize ?_ fun hnonempty => ?_
  · rw [ha.block_eq, hb.block_eq, hblock]
  · refine ha.place?_eq_of_size hb hblock ?_ hsize hextents hwithin hpattern hsame
    rwa [hblock, ← hb.block_eq]

end Machine

/-! ## The dimensions of faithful descriptors -/

section

variable {f : Func α} {storages : Storages} {b : Bindings α} {config : SolverConfig α}
  {m : Machine α} {body : List (Stmt α)} {type : TensorType} {s : TensorStorage}

theorem TensorStorage.Faithful.extents (h : s.Faithful f type)
    (hmachine : LoweredFunc.machine ⟨f.withBody body, storages⟩ b config = .ok m) {p : PatternRef}
    {q : Pattern} (hp : s.kind = .sparse p) (hq : m.resolution.pattern p = .ok q) :
    m.Extents type.dims [q.rows, q.cols] := by
  obtain ⟨_, _, _, _, hfits⟩ := LoweredFunc.machine_spec hmachine
  obtain ⟨r, hcheck, hr, rfl⟩ := LoweredFunc.machine_eq_ok hmachine
  obtain ⟨hsizes, harena, _⟩ := Resolution.resolveAll_spec
    ((f.withBody body).patterns storages) (Resolution.fits_of_ofBindings hr).patterns
  rw [Resolution.pattern_eq_build hfits.patterns] at hq
  have hbuild : r.build p = .ok q := (Resolution.build_congr hsizes harena p).symm.trans hq
  obtain ⟨rows, cols, hrows, hcols, ⟨q', hq', rfl, rfl⟩ | ⟨habort, _⟩⟩ :=
    h.resolves p hp b r hcheck hr
  · obtain rfl := Except.ok.inj (hbuild.symm.trans hq')
    rw [h.dims p hp]
    refine .cons ?_ (.cons ?_ .nil)
    · exact Resolution.size_eq_ok_iff.2 (hsizes ▸ Resolution.size_eq_ok_iff.1 hrows)
    · exact Resolution.size_eq_ok_iff.2 (hsizes ▸ Resolution.size_eq_ok_iff.1 hcols)
  · cases habort.symm.trans hbuild

theorem TensorStorage.Faithful.exists_extents (h : s.Faithful f type)
    (hmachine : LoweredFunc.machine ⟨f.withBody body, storages⟩ b config = .ok m) {buffer : Buffer α}
    (hshaped : m.Shaped type.dims s buffer) : ∃ extents, m.Extents type.dims extents := by
  cases hshaped with
  | dense _ hextents => exact ⟨_, hextents⟩
  | sparse hkind _ hq => exact ⟨_, h.extents hmachine hkind hq⟩
  | register _ hdims => exact ⟨[], hdims ▸ .nil⟩

theorem LoweredFunc.describes_of_faithful
    (hfaithful : ∀ var s, storages.get? var = some s →
      ∃ type, f.tensorType? var = some type ∧ s.Faithful f type)
    (hmachine : LoweredFunc.machine ⟨f.withBody body, storages⟩ b config = .ok m) :
    m.Describes storages := by
  refine describes_of_suiting hmachine fun var type s htype hs => ?_
  obtain ⟨type', htype', h⟩ := hfaithful var s hs
  obtain rfl := ValueType.tensor.inj
    (Option.some.inj ((Func.varType?_of_tensorType? htype').symm.trans htype))
  exact ⟨h.block, h.dims, h.register⟩

end

/-! ## Copies in a run -/

/-- Two sparse tensors with equally many entries have them at the same places. Tensors of which one
    is not sparse do so in any case. -/
def Machine.StoresAlike (m : Machine α) (storages : Storages) (source target : VarName) : Prop :=
  ∀ s t p p' q q', storages.get? source = some s → storages.get? target = some t →
    s.kind = .sparse p → t.kind = .sparse p' → m.resolution.pattern p = .ok q →
      m.resolution.pattern p' = .ok q' → q.stored = q'.stored → q.coordinates = q'.coordinates

omit [Scalar α] in
/-- Tensors over patterns of which one lies in the other store alike. -/
theorem Machine.storesAlike_of_subsetOf {m : Machine α} {f : Func α} {storages : Storages}
    (hfits : m.resolution.Fits f m.bindings) {source target : VarName}
    (hsub : ∀ s t p p', storages.get? source = some s → storages.get? target = some t →
      s.kind = .sparse p → t.kind = .sparse p' →
        p.subsetOf p' = true ∨ p'.subsetOf p = true) : m.StoresAlike storages source target := by
  intro s t p p' q q' hs ht hp hp' hq hq' hstored
  have hvalid := hfits.patterns.valid hq
  have hvalid' := hfits.patterns.valid hq'
  rw [Resolution.pattern_eq_build hfits.patterns] at hq hq'
  rcases hsub s t p p' hs ht hp hp' with hsub | hsub
  · exact hvalid.coordinates_eq_of_subset hvalid' hstored fun _ hmem =>
      Resolution.coordinates_of_subsetOf hfits.topologies hq' hq hsub hmem
  · exact (hvalid'.coordinates_eq_of_subset hvalid hstored.symm fun _ hmem =>
      Resolution.coordinates_of_subsetOf hfits.topologies hq hq' hsub hmem).symm

theorem Func.copy_mem_of_lowerWith {f : Func α} {storages : Storages} {options : LowerOptions}
    {l : LoweredFunc α} (h : f.lowerWith storages options = .ok l) {source target : VarName}
    (hmem : .assign target (.var source) ∈ f.body) :
    .assign target (.var source) ∈ l.func.body := by
  obtain ⟨_, _, groups, hgroups, rfl⟩ := groups_of_lowerWith h
  obtain ⟨before, after, hbody⟩ := List.append_of_mem hmem
  obtain ⟨_, _, _, _, _, hsplit, heq⟩ := Func.Groups.split (f := f) (hbody ▸ hgroups)
  cases hsplit with
  | other _ _ hlowered _ =>
      obtain rfl := Except.ok.inj hlowered
      rw [heq]
      simp [withBody]

/-- What a copy from one tensor to another of the same type comes to in a memory. If the buffers hold
    equally many numbers, the target gets the entries of the source, at every index tuple, and nothing
    else is changed. If they do not, the copy is refused. -/
structure Machine.Copies (m : Machine α) (storages : Storages) (type : TensorType)
    (source target : VarName) (mem : Memory α) (a b : Buffer α) (extents : List Nat) : Prop where
  /-- The buffer of the source. -/
  read : mem.buffers.get? source = some a
  /-- The buffer of the target. -/
  written : mem.buffers.get? target = some b
  /-- The extents of both. -/
  sized : m.Extents type.dims extents
  /-- Buffers of different sizes are reported. -/
  refused : b.values.size ≠ a.values.size → m.exec (.assign target (.var source)) mem =
    Outcome.fail (.bindingMismatch (.assignment target) b.values.size a.values.size)
  /-- Buffers of one size are copied, entry by entry. -/
  copied : b.values.size = a.values.size → ∃ mem', m.exec (.assign target (.var source)) mem = .ok mem' ∧
    m.Laid storages mem' ∧ mem'.locals = mem.locals ∧
      (∀ var, var ≠ target → mem'.buffers.get? var = mem.buffers.get? var) ∧
        ∀ indices, WithinExtents extents indices →
          ∃ value, m.entryAt? mem source (indices.map Nat.cast) = some value ∧
            m.entryAt? mem' target (indices.map Nat.cast) = some value

/-- **Copies of tensors.** A copy in a function stays in the lowered function. In every memory of a
    run it copies all entries or is refused, if the two tensors store alike.

    Declared names are distinct (`Func.DistinctNames`): of two variables with one name `Func.tensorType?`
    gives the type of the first, and the descriptor and the buffer are those of the last. Descriptors
    that are given beforehand are `TensorStorage.Sound`, which their own check does not see to. -/
theorem Func.copies_of_lowerWith {f : Func α} {seed storages : Storages} {options : LowerOptions}
    {l : LoweredFunc α} {bindings : Bindings α} {config : SolverConfig α} {m : Machine α}
    (hdistinct : f.DistinctNames)
    (hseed : ∀ var s, seed.get? var = some s → ∀ type, f.tensorType? var = some type →
      s.Sound f type)
    (hstorages : f.inferStorageWith seed = .ok storages)
    (hlower : f.lowerWith storages options = .ok l) (hmachine : l.machine bindings config = .ok m)
    {source target : VarName} {type : TensorType} (hsource : f.tensorType? source = some type)
    (htarget : f.tensorType? target = some type) (halike : m.StoresAlike storages source target) :
    (.assign target (.var source) ∈ f.body → .assign target (.var source) ∈ l.func.body) ∧
      ∀ mem, m.Laid storages mem → ∃ a b extents, m.Copies storages type source target mem a b extents := by
  refine ⟨copy_mem_of_lowerWith hlower, fun mem hlaid => ?_⟩
  obtain ⟨_, _, _, _, rfl⟩ := groups_of_lowerWith hlower
  have hfaithful : ∀ var s, storages.get? var = some s →
      ∃ type, f.tensorType? var = some type ∧ s.Faithful f type :=
    fun _ _ => faithful_of_get? hdistinct hseed hstorages
  have hvars := LoweredFunc.varType?_machine hmachine
  have hdescribes := LoweredFunc.describes_of_faithful hfaithful hmachine
  have hsource' := (hvars source).trans (varType?_of_tensorType? hsource)
  have htarget' := (hvars target).trans (varType?_of_tensorType? htarget)
  obtain ⟨s, a, hs, hblock, ha, hshaped⟩ := hlaid.shaped hdescribes hsource'
  obtain ⟨t, b, ht, hblock', hb, hshaped'⟩ := hlaid.shaped hdescribes htarget'
  obtain ⟨_, htype, hs'⟩ := hfaithful source s hs
  obtain rfl := Option.some.inj (hsource.symm.trans htype)
  obtain ⟨_, htype, ht'⟩ := hfaithful target t ht
  obtain rfl := Option.some.inj (htarget.symm.trans htype)
  obtain ⟨extents, hextents⟩ := hs'.exists_extents hmachine hshaped
  have hexec := m.exec_copy ha hb
  refine ⟨a, b, extents, ha, hb, hextents, fun hsize => ?_, fun hsize => ?_⟩
  · rw [hexec, if_neg hsize]
  · rw [if_pos hsize] at hexec
    refine ⟨_, hexec, hlaid.changes (Machine.changes_exec _ hexec), rfl, fun var hvar => ?_,
      fun indices hwithin => ?_⟩
    · simp [Memory.withBuffer, Table.get?_insert, hvar.symm]
    · obtain ⟨value, hvalue, _⟩ := hshaped.exists_entryAt? hextents hwithin
      have hpattern : ∀ p q, s.kind = .sparse p ∨ t.kind = .sparse p →
          m.resolution.pattern p = .ok q → extents = [q.rows, q.cols] := by
        rintro p q (hp | hp) hq
        · exact hextents.unique (hs'.extents hmachine hp hq)
        · exact hextents.unique (ht'.extents hmachine hp hq)
      have hcopied := hshaped.entryAt?_withValues hshaped' (hblock.trans hblock'.symm) hsize.symm
        hextents hwithin hpattern fun p p' q q' => halike s t p p' q q' hs ht
      refine ⟨value, ?_, ?_⟩
      · rw [Machine.entryAt?_eq hsource' ha, hextents.extents?_eq]
        exact hvalue
      · rw [Machine.entryAt?_eq (b := b.withValues a.values) htarget'
          (by simp [Memory.withBuffer, Table.get?_insert]), hextents.extents?_eq]
        exact hcopied.trans hvalue

/-! ### Matrices over edges -/

namespace EdgeCopy

/-- A matrix "A" over the edges "E", with a one at their second endpoints, is copied into a matrix "B"
    over the edges of a relation. -/
def func (relation : SetName) : Func ℚ :=
  (Func.named "f").withSet (.plain "V")
    |>.withSet (.relation "E" "V" 2)
    |>.withSet (.relation "F" "V" 2)
    |>.withLocal "A" (.matrix "V" "V" .scalar)
    |>.withResult "B" (.matrix "V" "V" .scalar)
    |>.withAssembly ["A"] "E" (fun k =>
      [.contribute "A" [k.endpointExpr 1, k.endpointExpr 1] (.literal (.float 1))])
    |>.withAssembly ["B"] relation (fun k =>
      [.contribute "B" [k.endpointExpr 0, k.endpointExpr 1] (.literal (.float 0))])
    |>.withStmt (.assign "B" (.var "A"))

/-- Over the same edges, both matrices are sparse over them. -/
def storages : Storages :=
  ⟨[("A", ⟨.sparse (.square "E" "V"), .scalar⟩), ("B", ⟨.sparse (.square "E" "V"), .scalar⟩)]⟩

/-- Three vertices with an edge from the first to the second, and another relation that has one from
    the second to the third. -/
def bindings : Bindings ℚ :=
  ((Bindings.empty.withSet "V" (SetData.plain 3)).withSet "E" (SetData.relation 2 #[0, 1])).withSet "F"
    (SetData.relation 2 #[1, 2])

end EdgeCopy

open EdgeCopy in
/-- Over the same edges, every entry is copied. -/
theorem edgeCopy_copies :
    ∃ l m start mem a b, (func "E").lower .standard = .ok l ∧ l.machine bindings ⟨.lu, 0⟩ = .ok m ∧
      m.start l.storages = .ok start ∧ m.execAll l.func.body.dropLast start = .ok mem ∧
      m.entryAt? mem "A" [1, 1] = some (.scalar 1) ∧ m.entryAt? mem "B" [1, 1] = some (.scalar 0) ∧
      .assign "B" (.var "A") ∈ l.func.body ∧ b.values.size = a.values.size ∧
      m.Copies l.storages (.matrix "V" "V" .scalar) "A" "B" mem a b [3, 3] := by
  have hstorages : (func "E").inferStorage = .ok storages := by decide +kernel
  obtain ⟨l, hlower, hsame, m, hmachine, start, hstart, mem, hexec, hone, hzero, n, hn, rfl, a, ha, b,
      hb, hsize⟩ :
      ∃ l, (func "E").lowerWith storages .standard = .ok l ∧ l.storages = storages ∧
        ∃ m, l.machine bindings ⟨.lu, 0⟩ = .ok m ∧ ∃ start, m.start l.storages = .ok start ∧
          ∃ mem, m.execAll l.func.body.dropLast start = .ok mem ∧
            m.entryAt? mem "A" [1, 1] = some (.scalar 1) ∧
            m.entryAt? mem "B" [1, 1] = some (.scalar 0) ∧
            ∃ n, m.resolution.extent (.set "V") = .ok n ∧ n = 3 ∧
              ∃ a, mem.buffers.get? "A" = some a ∧ ∃ b, mem.buffers.get? "B" = some b ∧
                b.values.size = a.values.size := by
    decide +kernel
  have hlowered : (func "E").lower .standard = .ok l := by
    rw [Func.lower, hstorages]
    exact hlower
  have hdistinct : (func "E").DistinctNames := by
    unfold Func.DistinctNames
    decide
  obtain ⟨hfunc, hbindings, _, _, hfits⟩ := LoweredFunc.machine_spec hmachine
  have hlaid : m.Laid storages mem := by
    rw [← hsame]
    refine (Machine.start_spec ?_ hstart).1.changes (Machine.changes_execAll _ hexec)
    rw [hfunc, Func.func_of_lower hlowered]
    exact hdistinct
  have halike : m.StoresAlike storages "A" "B" := by
    refine Machine.storesAlike_of_subsetOf (hbindings ▸ hfits) fun s t p p' hs ht hp hp' => Or.inl ?_
    obtain rfl := Option.some.inj hs
    obtain rfl := Option.some.inj ht
    obtain rfl := StorageKind.sparse.inj hp
    obtain rfl := StorageKind.sparse.inj hp'
    rfl
  obtain ⟨hmem, hcopies⟩ := Func.copies_of_lowerWith hdistinct (fun _ _ hs => by cases hs)
    (show (func "E").inferStorageWith Table.empty = .ok storages from hstorages)
    hlower hmachine (show (func "E").tensorType? "A" = some (.matrix "V" "V" .scalar) by rfl)
    (show (func "E").tensorType? "B" = some (.matrix "V" "V" .scalar) by rfl) halike
  obtain ⟨a', b', extents, h⟩ := hcopies mem hlaid
  obtain rfl := Option.some.inj (ha.symm.trans h.read)
  obtain rfl := Option.some.inj (hb.symm.trans h.written)
  obtain rfl := h.sized.unique (.cons hn (.cons hn .nil))
  exact ⟨l, m, start, mem, a, b, hlowered, hmachine, hstart, hexec, hone, hzero,
    hmem (List.mem_of_getLast? rfl), hsize, hsame ▸ h⟩

open EdgeCopy in
/-- Over other edges that have equally many entries, the entry of the first edge's end comes to the
    place that has the same position, in the row below. -/
theorem edgeCopy_moves :
    (func "F").tensorType? "A" = (func "F").tensorType? "B" ∧
    ∃ l, (func "F").lower .standard = .ok l ∧ ∃ m, l.machine bindings ⟨.lu, 0⟩ = .ok m ∧
      ∃ start, m.start l.storages = .ok start ∧ ∃ mem, m.execAll l.func.body start = .ok mem ∧
        m.entryAt? mem "A" [1, 1] = some (.scalar 1) ∧
        m.entryAt? mem "B" [1, 1] = some (.scalar 0) ∧
        m.entryAt? mem "A" [2, 1] = some (.scalar 0) ∧
        m.entryAt? mem "B" [2, 1] = some (.scalar 1) := by
  decide +kernel

end GraphTensor
