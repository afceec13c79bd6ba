import GraphTensor.Proofs.Lowering.Elements
import GraphTensor.Proofs.Machine.Accesses
set_option autoImplicit false

/-! # What a run of a lowered function works with

The machine of a lowered function has the variables of the function before it was lowered, and its
patterns are those of the inferred descriptors. A pattern is as large as the sets it lies on. So
descriptors that suit their tensors describe the buffers of a run (`Machine.Describes`), which is
what the modules on accesses ask for. -/

namespace GraphTensor

variable {α : Type}

namespace Resolution

theorem Fits.size_set {r : Resolution} {f : Func α} {b : Bindings α} (h : r.Fits f b)
    {decl : SetDecl} (hdecl : decl ∈ f.sets.decls) {data : SetData α}
    (hdata : b.set decl.name = .ok data) : r.size decl.name = .ok data.size := by
  obtain ⟨n, hn⟩ := Option.isSome_iff_exists.1 (h.declared decl hdecl)
  obtain ⟨found, hfound, rfl⟩ := h.sizes decl.name n hn
  obtain rfl := Except.ok.inj (hdata.symm.trans hfound)
  exact size_eq_ok_iff.2 hn

/-- A relation has as many elements as its topology has tuples. -/
theorem Fits.size_eq {r : Resolution} {f : Func α} {b : Bindings α} (h : r.Fits f b)
    (hcheck : b.check f = .ok ()) {decl : SetDecl} {ep : EndpointDecl} {t : Topology}
    (hdecl : decl ∈ f.sets.decls) (hep : decl.endpoints = some ep)
    (ht : r.topology decl.name = .ok t) : r.size decl.name = .ok t.size := by
  obtain ⟨t', ht', _, harity, data, hdata, htuples⟩ := h.made decl hdecl ep hep
  obtain rfl := Option.some.inj ((topology_eq_ok_iff.1 ht).symm.trans ht')
  obtain ⟨_, hsets, _⟩ := Outcome.bind_eq_ok_iff.1 hcheck
  obtain ⟨found, hfound, hset⟩ := Outcome.bind_eq_ok_iff.1 (Except.forM_mem hsets hdecl)
  obtain rfl := Except.ok.inj (hdata.symm.trans hfound)
  obtain ⟨_, hendpoints, _⟩ := Outcome.bind_eq_ok_iff.1 hset
  rw [Bindings.checkEndpoints, hep] at hendpoints
  cases hbound : data.endpoints with
  | none => simp [hbound, Outcome.failIf] at hendpoints
  | some bound =>
      have hsame : bound.arity = ep.arity := by
        simpa [hbound] using Outcome.failIf_eq_ok_iff.1 hendpoints
      rw [hbound] at htuples
      rw [h.size_set hdecl hdata, data.whole bound hbound, Topology.size, harity, ← hsame, htuples]
      rfl

theorem Fits.size_pattern {r : Resolution} {f f' : Func α} {b : Bindings α} (h : r.Fits f b)
    (hcheck : b.check f = .ok ()) (hsets : f'.sets = f.sets) {var : VarName} {p : PatternRef}
    {type : TensorType} (hinduces : f'.checkInduces var p type = .ok ()) {q : Pattern}
    (hq : r.build p = .ok q) : r.size p.rows = .ok q.rows ∧ r.size p.cols = .ok q.cols := by
  rcases build_cases hq with ⟨set, n, rfl, hn, hdiagonal⟩ | ⟨relation, t, hsource, ht, hcase⟩
  · obtain ⟨_, hrows, hcols, _⟩ := Pattern.diagonal?_spec hdiagonal
    rw [hrows, hcols]
    exact ⟨hn, hn⟩
  · obtain ⟨_, hcount, _⟩ := h.topologies relation t (topology_eq_ok_iff.1 ht)
    have hendpoints : r.size t.endpointSet = .ok t.endpointCount := size_eq_ok_iff.2 hcount
    -- only a declared relation induces a pattern
    obtain ⟨decl, ep, hdecl, hep, _⟩ := f'.relation_of_checkInduces hinduces hsource
    obtain ⟨hname, hmem⟩ := Func.name_of_set? hdecl
    rw [hsets] at hmem
    have helements : r.size relation = .ok t.size :=
      hname ▸ h.size_eq hcheck hmem hep (hname.symm ▸ ht)
    rcases hcase with ⟨hrows, hcols, hpattern⟩ | ⟨_, hrows, hcols, hpattern⟩ | ⟨_, hrows, hcols, hpattern⟩
    · obtain ⟨_, hqrows, hqcols, _⟩ := Topology.squarePattern?_spec hpattern
      rw [hrows, hcols, hqrows, hqcols]
      exact ⟨hendpoints, hendpoints⟩
    · obtain ⟨_, hqrows, hqcols, _⟩ := Topology.incidencePattern?_spec hpattern
      rw [hrows, hcols, hqrows, hqcols]
      exact ⟨helements, hendpoints⟩
    · obtain ⟨_, hqrows, hqcols, _⟩ := Topology.coincidencePattern?_spec hpattern
      rw [hrows, hcols, hqrows, hqcols]
      exact ⟨hendpoints, helements⟩

end Resolution

variable [Scalar α] {f : Func α} {storages : Storages} {b : Bindings α} {config : SolverConfig α}
  {m : Machine α} {body : List (Stmt α)}

theorem LoweredFunc.varType?_machine
    (h : LoweredFunc.machine ⟨f.withBody body, storages⟩ b config = .ok m) (var : VarName) :
    m.func.varType? var = f.varType? var := by
  rw [(LoweredFunc.machine_spec h).1]
  rfl

theorem LoweredFunc.suits_machine (hdistinct : f.DistinctNames)
    (hstorages : f.inferStorage = .ok storages)
    (h : LoweredFunc.machine ⟨f.withBody body, storages⟩ b config = .ok m) {var : VarName}
    {type : TensorType} {s : TensorStorage} (htype : m.func.varType? var = some (.tensor type))
    (hs : storages.get? var = some s) : s.Suits f var type ∧ f.tensors.get? var = some type := by
  obtain ⟨type', htype', hsuits⟩ := Func.suits_of_inferStorageWith hstorages hs
  have htensor : f.tensors.get? var = some type := by
    rw [Func.tensors_get? hdistinct, Func.tensorType?, ← varType?_machine h, htype]
    rfl
  obtain rfl : type' = type := Option.some.inj (htype'.symm.trans htensor)
  exact ⟨hsuits, htensor⟩

/-- Descriptors with the blocks and the dimensions of their tensors describe the buffers of a run. -/
theorem LoweredFunc.describes_of_suiting
    (h : LoweredFunc.machine ⟨f.withBody body, storages⟩ b config = .ok m)
    (hsuits : ∀ var type s, f.varType? var = some (.tensor type) → storages.get? var = some s →
      s.block = type.block ∧ (∀ p, s.kind = .sparse p → type.dims = [.set p.rows, .set p.cols]) ∧
        (s.kind = .register → type.dims = [])) : m.Describes storages := by
  obtain ⟨_, _, _, _, hfits⟩ := LoweredFunc.machine_spec h
  refine ⟨hfits.patterns, ?_, ?_, ?_⟩
  · exact fun var type s htype hs => (hsuits var type s (varType?_machine h var ▸ htype) hs).1
  · exact fun var type s p htype hs =>
      (hsuits var type s (varType?_machine h var ▸ htype) hs).2.1 p
  · exact fun var type s htype hs => (hsuits var type s (varType?_machine h var ▸ htype) hs).2.2

theorem LoweredFunc.describes_machine (hdistinct : f.DistinctNames)
    (hstorages : f.inferStorage = .ok storages)
    (h : LoweredFunc.machine ⟨f.withBody body, storages⟩ b config = .ok m) :
    m.Describes storages := by
  refine describes_of_suiting h fun var type s htype hs => ?_
  obtain ⟨hsuits, htensor⟩ :=
    suits_machine hdistinct hstorages h ((varType?_machine h var).trans htype) hs
  refine ⟨hsuits.block, fun p hp => f.dims_of_checkInduces (hsuits.pattern p hp), fun hregister => ?_⟩
  obtain ⟨s', hs', hrank⟩ := Func.register_iff_of_inferStorage hstorages htensor
  obtain rfl : s = s' := Option.some.inj (hs.symm.trans hs')
  exact List.length_eq_zero_iff.1 (hrank.1 hregister)

end GraphTensor
