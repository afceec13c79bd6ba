import GraphTensor.Proofs.Lowering.Checks
import GraphTensor.Proofs.Lowering.Loops
import GraphTensor.Proofs.Lowering.Runs
import GraphTensor.Proofs.Scalar
import Mathlib.Algebra.Order.Ring.Rat
set_option autoImplicit false

/-! # Index expressions compute contractions

The lowered form of an assignment clears the target and runs one nest for each term of the expanded
body. What the nests add up to is the contraction that the expression stands for, computed in the
memory from before the statement (`Machine.Contracts`): an operand that is not the target is the
same throughout.

Two things can go wrong. A search takes its column as a signed word, so the values of all indices
have to be signed words (`Machine.Counts`). And a body may read its own target, which has been
cleared by then. -/

namespace GraphTensor

variable {α : Type} [Scalar α]

namespace Contraction

variable {c : Contraction} {a : AccessContext α} {m : Machine α} {before mem mem' : Memory α}
  [Scalar.ZeroLaws α]

theorem adds_of_lowerTerms (hr : c.Runs a m before) {names names' : Nat}
    {checked : List (Term α × List IndexVar)} {nests outs : List (Stmt α)}
    (hf : ∀ e ∈ checked, c.Fits m e.1 ∧ e.2 = e.1.summed c.free)
    (h : c.lowerTerms names checked = .ok (names', nests)) (hlower : a.lowerBody nests = .ok outs)
    (hkept : before.KeptBelow 0 c.target mem) (hlaid : m.Laid c.storages mem)
    (hexec : m.execAll outs mem = .ok mem') :
    c.Adds m 0 mem mem'
      (checked.flatMap fun e => m.termContributions before c.type.block c.free e.1) := by
  induction checked generalizing names names' nests outs mem with
  | nil =>
      obtain ⟨_, rfl⟩ := Prod.mk.inj (Except.ok.inj h)
      obtain rfl := Except.ok.inj hlower
      obtain rfl := Except.ok.inj hexec
      exact Adds.nil 0 mem
  | cons e rest ih =>
      obtain ⟨t, bound⟩ := e
      obtain ⟨middle, s, nests', hterm, hrest, rfl⟩ := lowerTerms_cons_eq_ok h
      obtain ⟨out, outs', hout, houts, rfl⟩ := AccessContext.lowerBody_cons_eq_ok.1 hlower
      obtain ⟨mem₁, hmem₁, hexec⟩ := Machine.execAll_cons_eq_ok_iff.1 hexec
      obtain ⟨hfits, hbound⟩ := hf (t, bound) (List.mem_cons_self ..)
      obtain rfl : bound = t.summed c.free := hbound
      have hfirst := (adds_of_lowerTerm hr hfits hterm hout hkept hlaid hmem₁).mono
        (Nat.zero_le names)
      exact hfirst.trans (ih (fun e he => hf e (List.mem_cons_of_mem _ he)) hrest houts
        (hkept.trans hfirst.kept) (hlaid.changes (Machine.changes_exec out hmem₁)) hexec)

omit [Scalar α] [Scalar.ZeroLaws α] in
theorem mem_checkTerms {scope : TypeScope α} {terms : List (Term α)}
    {checked : List (Term α × List IndexVar)} (h : c.checkTerms scope terms = .ok checked) :
    checked.map Prod.fst = terms ∧ ∀ e ∈ checked, c.checkTerm scope e.1 = .ok e.2 := by
  induction terms generalizing checked with
  | nil =>
      obtain rfl := Except.ok.inj h
      exact ⟨rfl, by simp⟩
  | cons t rest ih =>
      obtain ⟨bound, hbound, h⟩ := Outcome.bind_eq_ok_iff.1 h
      obtain ⟨later, hlater, h⟩ := Outcome.bind_eq_ok_iff.1 h
      obtain rfl := Except.ok.inj h
      obtain ⟨hterms, hchecked⟩ := ih hlater
      exact ⟨by rw [List.map_cons, hterms], List.forall_mem_cons.2 ⟨hbound, hchecked⟩⟩

end Contraction

variable {f : Func α} {storages : Storages} {search : Search} {b : Bindings α}
  {config : SolverConfig α} {m : Machine α} {before mem : Memory α}

namespace Contraction

/-- What a contraction of a lowered function runs on. -/
theorem runs_of_machine {c : Contraction} {contracted final : List (Stmt α)}
    (hdistinct : f.DistinctNames) (hplain : f.PlainNames) (hstorages : f.inferStorage = .ok storages)
    (hmachine : LoweredFunc.machine ⟨f.withBody final, storages⟩ b config = .ok m)
    (hc : c.storages = storages) (htarget : f.varType? c.target = some (.tensor c.type))
    (hkind : ∃ s, storages.get? c.target = some s ∧ s.kind = c.kind)
    (hlaid : m.Laid storages before) (hapart : before.Apart) :
    c.Runs ⟨f.withBody contracted, storages, search⟩ m before := by
  obtain ⟨hfunc, _, _, hcheck, hfits⟩ := LoweredFunc.machine_spec hmachine
  have htypes := LoweredFunc.varType?_machine hmachine
  have hdescribes := LoweredFunc.describes_machine hdistinct hstorages hmachine
  have hdeclared : ∀ var s, storages.get? var = some s →
      ∃ type, m.func.varType? var = some (.tensor type) ∧ s.Suits f var type := by
    intro var s hs
    obtain ⟨type, htype, hsuits⟩ := Func.suits_of_inferStorageWith hstorages hs
    rw [Func.tensors_get? hdistinct] at htype
    exact ⟨type, (htypes var).trans (Func.varType?_of_tensorType? htype), hsuits⟩
  refine ⟨⟨hdescribes, fun var s hs => ?_, fun var => ?_⟩, hc.symm, hfits.topologies, ?_, ?_, hc ▸ hkind,
    hc ▸ hlaid, hapart, ?_⟩
  · obtain ⟨type, htype, _⟩ := hdeclared var s hs
    exact ⟨type, htype⟩
  · exact (htypes var).symm
  · intro var p q hp hq
    obtain ⟨s, hs, hsparse⟩ := Table.pattern?_eq_some_iff.1 hp
    obtain ⟨type, _, hsuits⟩ := hdeclared var s (hc ▸ hs)
    rw [Resolution.pattern_eq_build hfits.patterns] at hq
    exact hfits.size_pattern hcheck rfl (hsuits.pattern p hsparse) hq
  · exact (htypes _).trans htarget
  · intro var type htype
    obtain ⟨v, hv, rfl, _⟩ := (Func.varType?_eq_some_iff hdistinct).1 ((htypes var).symm.trans htype)
    exact hplain v hv

end Contraction

omit [Scalar α] in
/-- Signed words count the values of every index of a contraction. -/
def Machine.Counts (m : Machine α) (free : List IndexVar) (terms : List (Term α)) : Prop :=
  ∀ i ∈ free ++ terms.flatMap fun t => t.summed free, m.count i.domain ≤ 2 ^ 63

/-- What an assignment of an index expression makes of a memory: the target holds the contraction,
    which is zero where the target stores nothing, and no other tensor has changed. -/
structure Machine.Contracts (m : Machine α) (before mem : Memory α) (target : VarName)
    (type : TensorType) (free : List IndexVar) (terms : List (Term α)) : Prop where
  /-- The target holds the contraction. -/
  holds : m.HoldsContraction before mem target type free terms
  /-- Nothing is lost outside the pattern of a sparse target. -/
  outside : ∀ extents indices, m.Extents type.dims extents → WithinExtents extents indices →
    m.stores mem target (indices.map Nat.cast) = false →
    m.contractionAt? before type.block free terms indices = some (.zeros type.block)
  /-- Other tensors are as they were. -/
  others : ∀ tensor ≠ target, mem.buffers.get? tensor = before.buffers.get? tensor

theorem Func.Groups.of_contraction {assembled contracted : List (Stmt α)} {zeroed : List VarName}
    {names : Nat} {body : List (Stmt α)} {groups : List (List (Stmt α))}
    (h : f.Groups storages search assembled contracted zeroed names body groups) {target : VarName}
    {free : List IndexVar} {e : Expr α} {lowered : List (Stmt α)}
    (hmem : (.assign target (.index free e), lowered) ∈ body.zip groups) :
    ∃ names names' nests,
      (f.withBody assembled).lowerContraction storages names target free e = .ok (names', nests) ∧
        (AccessContext.mk (f.withBody contracted) storages search).lowerBody nests = .ok lowered := by
  induction h with
  | nil => cases hmem
  | assembly _ _ _ ih =>
      rcases List.mem_cons.1 hmem with heq | hmem
      · cases (Prod.mk.inj heq).1
      · exact ih hmem
  | contraction hnests hlowered _ ih =>
      rcases List.mem_cons.1 hmem with heq | hmem
      · obtain ⟨hs, rfl⟩ := Prod.mk.inj heq
        obtain ⟨rfl, he⟩ := Stmt.assign.inj hs
        obtain ⟨rfl, rfl⟩ := Expr.index.inj he
        exact ⟨_, _, _, hnests, hlowered⟩
      · exact ih hmem
  | other _ hcontraction _ _ ih =>
      rcases List.mem_cons.1 hmem with heq | hmem
      · obtain ⟨rfl, _⟩ := Prod.mk.inj heq
        cases hcontraction
      · exact ih hmem

namespace Contraction

variable {c : Contraction} {a : AccessContext α} {terms : List (Term α)}
  {checked : List (Term α × List IndexVar)}

/-- The terms of a body that pass the checks can be lowered over their summed indices, if the body
    reads neither the target nor a loop variable. -/
theorem fits_of_checkTerms {body : Expr α}
    (htypes : ∀ var, m.func.varType? var = f.varType? var) (hlength : c.free.length = c.type.rank)
    (hdestination : c.checkDestination [] c.free c.type.dims = .ok ()) (hterms : body.terms = .ok terms)
    (hchecked : c.checkTerms (TypeScope.ofFunc f) terms = .ok checked)
    (hcounts : m.Counts c.free terms)
    (hreads : ∀ name ∈ body.reads, name ≠ c.target ∧ '%' ∉ name.toList) :
    ∀ e ∈ checked, c.Fits m e.1 ∧ e.2 = e.1.summed c.free := by
  obtain ⟨rfl, hall⟩ := mem_checkTerms hchecked
  intro e he
  have ht : e.1 ∈ checked.map Prod.fst := List.mem_map_of_mem he
  refine fits_of_checkTerm htypes hlength hdestination (hall e he) (fun i hi => hcounts i ?_)
    fun factor hfactor name hname => ?_
  · exact (List.mem_append.1 hi).elim (List.mem_append_left _)
      fun hi => List.mem_append_right _ (List.mem_flatMap.2 ⟨e.1, ht, hi⟩)
  · exact hreads name ((Expr.expands_of_terms body hterms).reads e.1 ht factor hfactor hname)

/-- A target that has been cleared holds the sum of nothing, and everything else is as it was. -/
theorem holdsSum_of_cleared (hr : c.Runs a m before)
    (h : m.exec (.zero c.target) before = .ok mem) :
    before.KeptBelow 0 c.target mem ∧ m.HoldsSum mem c.target c.type [] := by
  obtain ⟨buffer, hbuffer, h⟩ := Outcome.bind_eq_ok_iff.1 h
  obtain rfl := Except.ok.inj h
  obtain ⟨s, b, _, hblock, hb, hshaped⟩ := hr.laid.shaped (hr.storages ▸ hr.accesses.describes) hr.target
  obtain rfl : buffer = b := Option.some.inj ((Outcome.orFail_eq_ok_iff.1 hbuffer).symm.trans hb)
  refine ⟨⟨fun _ _ => rfl, fun name hname => ?_⟩, .cleared hr.target hshaped hblock⟩
  simp [Memory.withBuffer, Table.get?_insert, hname.symm]

variable [Scalar.ZeroLaws α]

/-- **Clearing the target and running the nests** of all terms computes the contraction. -/
theorem contracts_of_lowerTerms {names names' : Nat} {nests outs : List (Stmt α)}
    (hr : c.Runs a m before) (hlength : c.free.length = c.type.rank)
    (hdestination : c.checkDestination [] c.free c.type.dims = .ok ())
    (hf : ∀ e ∈ checked, c.Fits m e.1 ∧ e.2 = e.1.summed c.free)
    (hcounts : m.Counts c.free (checked.map Prod.fst))
    (hnests : c.lowerTerms names checked = .ok (names', nests)) (houts : a.lowerBody nests = .ok outs)
    (hexec : m.execAll (.zero c.target :: outs) before = .ok mem) :
    m.Contracts before mem c.target c.type c.free (checked.map Prod.fst) := by
  obtain ⟨cleared, hcleared, hexec⟩ := Outcome.bind_eq_ok_iff.1 hexec
  have hlaid := hr.laid.changes (Machine.changes_exec (.zero c.target) hcleared)
  obtain ⟨hkept, hstart⟩ := holdsSum_of_cleared hr hcleared
  have hadds := adds_of_lowerTerms hr hf hnests houts hkept hlaid hexec
  obtain ⟨hdomains, hnodup, _⟩ := checkDestination_spec hlength hdestination
  have hholds : m.HoldsContraction before mem c.target c.type c.free (checked.map Prod.fst) := by
    refine Machine.HoldsSum.holdsContraction ?_ hdomains hnodup fun i hi =>
      (hcounts i (List.mem_append_left _ hi)).trans (Nat.pow_le_pow_right (by decide) (by decide))
    rw [List.flatMap_map]
    exact hadds.sum [] hstart
  refine ⟨hholds, fun extents indices hextents hwithin hstores => ?_, fun tensor htensor => ?_⟩
  · -- what the target does not store reads as zero there
    obtain ⟨value, hvalue, hcontraction⟩ := hholds extents indices hextents hwithin
    have hlaid' := hlaid.changes (Machine.changes_execAll outs hexec)
    obtain ⟨s, b, _, hblock, hb, hshaped⟩ :=
      hlaid'.shaped (hr.storages ▸ hr.accesses.describes) hr.target
    have hzero := Machine.entryAt?_of_not_stores hr.target hb hstores
    rw [hcontraction, ← hvalue, hzero, hshaped.block_eq, hblock]
  · exact (hkept.trans hadds.kept).buffers tensor htensor

end Contraction

variable [Scalar.ZeroLaws α]

/-- **The lowered form of one assignment** computes its contraction. -/
theorem Func.contracts_of_lowerContraction
    {assembled contracted final nests lowered : List (Stmt α)} {names names' : Nat}
    {target : VarName} {free : List IndexVar} {body : Expr α} (hdistinct : f.DistinctNames)
    (hplain : f.PlainNames) (hstorages : f.inferStorage = .ok storages)
    (hmachine : LoweredFunc.machine ⟨f.withBody final, storages⟩ b config = .ok m)
    (hnests : (f.withBody assembled).lowerContraction storages names target free body =
      .ok (names', nests))
    (hlowered : (AccessContext.mk (f.withBody contracted) storages search).lowerBody nests =
      .ok lowered)
    (hreads : ∀ name ∈ body.reads, name ≠ target ∧ '%' ∉ name.toList) :
    ∃ type terms, f.varType? target = some (.tensor type) ∧ body.terms = .ok terms ∧
      (m.Counts free terms → ∀ before mem, m.Laid storages before → before.Apart →
        m.execAll lowered before = .ok mem → m.Contracts before mem target type free terms) := by
  obtain ⟨type, s, terms, checked, inner, htype, hs, hlength, hterms, hdestination, hchecked, hinner,
    rfl⟩ := lowerContraction_eq_ok hnests
  have htarget : f.varType? target = some (.tensor type) := Contraction.tensor_of_ofFunc htype
  refine ⟨type, terms, htarget, hterms, fun hcounts before mem hlaid hapart hexec => ?_⟩
  have hr : (Contraction.mk storages target type s.kind free).Runs
      ⟨f.withBody contracted, storages, search⟩ m before :=
    Contraction.runs_of_machine hdistinct hplain hstorages hmachine rfl htarget ⟨s, hs, rfl⟩ hlaid
      hapart
  have hf := Contraction.fits_of_checkTerms (f := f.withBody assembled)
    (LoweredFunc.varType?_machine hmachine) hlength hdestination hterms hchecked hcounts hreads
  obtain ⟨zero, outs, hzero, houts, rfl⟩ := AccessContext.lowerBody_cons_eq_ok.1 hlowered
  obtain ⟨_, _, hzero⟩ := Outcome.bind_eq_ok_iff.1 hzero
  obtain rfl := Except.ok.inj hzero
  obtain ⟨rfl, _⟩ := Contraction.mem_checkTerms hchecked
  exact Contraction.contracts_of_lowerTerms hr hlength hdestination hf hcounts hinner houts hexec

/-- **Index expressions compute contractions.** In a lowered function the statements for an
    assignment whose body does not read its target bring every tensor, from whatever is in the
    buffers, to the contraction of the body in the memory before them. -/
theorem Func.contraction_contracts {options : LowerOptions} {l : LoweredFunc α}
    (hdistinct : f.DistinctNames) (hplain : f.PlainNames) (hlower : f.lower options = .ok l)
    (hmachine : l.machine b config = .ok m) :
    ∃ assembled contracted groups,
      f.Groups l.storages options.search assembled contracted [] 0 f.body groups ∧
        l.func.body = groups.flatten ∧
        ∀ target free body lowered,
          (.assign target (.index free body), lowered) ∈ f.body.zip groups →
          (∀ name ∈ body.reads, name ≠ target ∧ '%' ∉ name.toList) →
          ∃ type terms, f.varType? target = some (.tensor type) ∧ body.terms = .ok terms ∧
            (m.Counts free terms → ∀ before mem, m.Laid l.storages before → before.Apart →
              m.execAll lowered before = .ok mem →
                m.Contracts before mem target type free terms) := by
  obtain ⟨storages, hstorages, hlower⟩ := Outcome.bind_eq_ok_iff.1 hlower
  obtain ⟨assembled, contracted, groups, hgroups, rfl⟩ := groups_of_lowerWith hlower
  refine ⟨assembled, contracted, groups, hgroups, rfl, ?_⟩
  intro target free body lowered hmem hreads
  obtain ⟨names, names', nests, hnests, hlowered⟩ := hgroups.of_contraction hmem
  exact contracts_of_lowerContraction hdistinct hplain hstorages hmachine hnests hlowered hreads

/-! ### Weights of columns -/

namespace ColumnWeights

/-- The indices of the entries. -/
def free : List IndexVar :=
  [⟨"e", .set "E"⟩, ⟨"k", .set "V"⟩]

/-- Each entry times the sum of the squares in its column. -/
def body : Expr ℚ :=
  let entry (row : String) : Expr ℚ := .indexed ⟨"a", [⟨row, .set "E"⟩, ⟨"k", .set "V"⟩]⟩
  .binary .mul (.binary .mul (entry "e") (entry "b")) (entry "b")

/-- A matrix with a row for each edge gets its entries from a field and is weighted. -/
def func : Func ℚ :=
  (Func.named "f").withSet (.plain "V")
    |>.withSet ((SetDecl.plain "W").withField "x" (.float .scalar))
    |>.withSet (.relation "E" "V" 2)
    |>.withLocal "a" (.matrix "E" "V" .scalar)
    |>.withLocal "x" (.vector "W" .scalar)
    |>.withResult "y" (.matrix "E" "V" .scalar)
    |>.withAssembly ["a"] "E" (fun k =>
      [.contribute "a" [k.elementExpr, k.endpointExpr 0] (.literal (.float 1))])
    |>.withStmt (.assign "x" (.field "W" "x"))
    |>.withStmt (.assign "a" (.var "x"))
    |>.withStmt (.assign "y" (.index free body))

/-- One edge from the first vertex to the last, and ones for its two entries. -/
def edgeTo (last : Nat) : Bindings ℚ :=
  Bindings.empty.withSet "V" (.plain (last + 1))
    |>.withSet "W" ((SetData.plain 2).withScalars "x" #[1, 1])
    |>.withSet "E" (.relation 2 #[0, last])

end ColumnWeights

open ColumnWeights in
/-- The entries of an edge between two vertices are weighted as they stand in the formula. -/
theorem columnWeights_contracts :
    ∃ l m before mem group terms, ColumnWeights.func.lower .standard = .ok l ∧
      l.machine (edgeTo 1) ⟨.lu, 0⟩ = .ok m ∧ m.execAll group before = .ok mem ∧
      ColumnWeights.body.terms = .ok terms ∧
      m.Contracts before mem "y" (.matrix "E" "V" .scalar) free terms := by
  obtain ⟨l, hlower, m, hmachine, start, hstart, final, hexec, terms', hterms', hcounts⟩ :
      ∃ l, ColumnWeights.func.lower .standard = .ok l ∧
        ∃ m, l.machine (edgeTo 1) ⟨.lu, 0⟩ = .ok m ∧
          ∃ start, m.start l.storages = .ok start ∧
            ∃ final, m.execAll l.func.body start = .ok final ∧
              ∃ terms, ColumnWeights.body.terms = .ok terms ∧
                ∀ i ∈ free ++ terms.flatMap fun t => t.summed free, m.count i.domain ≤ 2 ^ 63 := by
    decide +kernel
  have hdistinct : ColumnWeights.func.DistinctNames := by
    unfold Func.DistinctNames
    decide
  have hplain : ColumnWeights.func.PlainNames := by
    unfold Func.PlainNames
    decide
  have hbinders : ColumnWeights.func.BindersApart := by
    intro name hname type htype
    obtain rfl : name = "E.e" := List.mem_singleton.1 hname
    cases htype
  obtain ⟨assembled, contracted, groups, hgroups, hbody, hcontracts⟩ :=
    Func.contraction_contracts hdistinct hplain hlower hmachine
  obtain ⟨group, hgroup⟩ : ∃ group, groups[3]? = some group :=
    ⟨_, List.getElem?_eq_getElem (by rw [hgroups.length_eq]; decide)⟩
  obtain ⟨before, mem, _, hmem, _, hlaid, hapart⟩ := hgroups.reaches hdistinct hplain hbinders
    (hbody ▸ Func.func_of_lower hlower) hmachine hstart (hbody ▸ hexec) hgroup
  have hzip : (Stmt.assign "y" (.index free ColumnWeights.body), group) ∈
      ColumnWeights.func.body.zip groups :=
    List.mem_of_getElem? (List.getElem?_zip_eq_some.2 ⟨rfl, hgroup⟩)
  obtain ⟨type, terms, htype, hterms, hcontracts⟩ := hcontracts _ _ _ _ hzip (by decide)
  obtain rfl := Except.ok.inj (hterms'.symm.trans hterms)
  obtain rfl := ValueType.tensor.inj (Option.some.inj htype)
  exact ⟨l, m, before, mem, group, terms', hlower, hmachine, hmem, hterms',
    hcontracts hcounts before mem hlaid hapart hmem⟩

set_option synthInstance.maxSize 512 in
open ColumnWeights in
/-- The search for a column beyond the signed words misses, and what is stored there counts as zero:
    the weight of the last vertex is lost. -/
theorem columnWeights_loses_far_column :
    ∃ l m start before mem terms, ColumnWeights.func.lower .standard = .ok l ∧
      l.machine (edgeTo (2 ^ 63 + 1)) ⟨.lu, 0⟩ = .ok m ∧ m.start l.storages = .ok start ∧
      m.execAll (l.func.body.take 4) start = .ok before ∧
      m.execAll (l.func.body.drop 4) before = .ok mem ∧ ColumnWeights.body.terms = .ok terms ∧
      ¬ m.HoldsContraction before mem "y" (.matrix "E" "V" .scalar) free terms := by
  let far : List Nat := [0, 2 ^ 63 + 1]
  obtain ⟨l, hlower, m, hmachine, start, hstart, before, hbefore, mem, hmem, terms, hterms,
      ⟨_, hrows, rfl⟩, ⟨_, hcols, rfl⟩, hlost, hweight⟩ :
      ∃ l, ColumnWeights.func.lower .standard = .ok l ∧
        ∃ m, l.machine (edgeTo (2 ^ 63 + 1)) ⟨.lu, 0⟩ = .ok m ∧
          ∃ start, m.start l.storages = .ok start ∧
            ∃ before, m.execAll (l.func.body.take 4) start = .ok before ∧
              ∃ mem, m.execAll (l.func.body.drop 4) before = .ok mem ∧
                ∃ terms, ColumnWeights.body.terms = .ok terms ∧
                  (∃ rows, m.resolution.extent (.set "E") = .ok rows ∧ rows = 1) ∧
                  (∃ cols, m.resolution.extent (.set "V") = .ok cols ∧ cols = 2 ^ 63 + 2) ∧
                  m.entryAt? mem "y" (far.map Nat.cast) = some (.scalar 0) ∧
                  m.contractionAt? before .scalar free terms far = some (.scalar 1) := by
    decide +kernel
  refine ⟨l, m, start, before, mem, terms, hlower, hmachine, hstart, hbefore, hmem, hterms, ?_⟩
  intro h
  obtain ⟨value, hvalue, hcontraction⟩ := h [1, 2 ^ 63 + 2] far (.cons hrows (.cons hcols .nil))
    (.cons (by decide) (.cons (by decide) .nil))
  have hblocks : (BlockValue.scalar 0 : BlockValue ℚ) = .scalar 1 :=
    Option.some.inj (((hlost.symm.trans hvalue).trans hcontraction.symm).trans hweight)
  exact absurd hblocks (by decide +kernel)

/-- **Assignments read the state before them.** A run that succeeds goes through each assignment of an
    index expression: what the other statements have left there is what the contraction is computed
    from, whichever tensors the body reads, as long as the target is not among them. -/
theorem Func.assigned_contracts {options : LowerOptions} {l : LoweredFunc α} {results : Results α}
    (hdistinct : f.DistinctNames) (hplain : f.PlainNames) (hbinders : f.BindersApart)
    (hlower : f.lower options = .ok l) (hexecute : (l.execute b config).2 = .ok results) :
    ∃ m start final assembled contracted groups,
      l.machine b config = .ok m ∧ m.start l.storages = .ok start ∧
        f.Groups l.storages options.search assembled contracted [] 0 f.body groups ∧
        l.func.body = groups.flatten ∧ m.execAll groups.flatten start = .ok final ∧
        ∀ k target free body, f.body[k]? = some (.assign target (.index free body)) →
          (∀ name ∈ body.reads, name ≠ target ∧ '%' ∉ name.toList) →
          ∃ group before mem type terms, groups[k]? = some group ∧
            m.execAll (groups.take k).flatten start = .ok before ∧
            m.execAll group before = .ok mem ∧
            m.execAll (groups.drop (k + 1)).flatten mem = .ok final ∧
            f.varType? target = some (.tensor type) ∧ body.terms = .ok terms ∧
            (m.Counts free terms → m.Contracts before mem target type free terms) := by
  obtain ⟨storages, hstorages, hlower⟩ := Outcome.bind_eq_ok_iff.1 hlower
  obtain ⟨assembled, contracted, groups, hgroups, rfl⟩ := groups_of_lowerWith hlower
  obtain ⟨m, start, final, hmachine, hstart, hexec, _⟩ := LoweredFunc.execute_eq_ok hexecute
  refine ⟨m, start, final, assembled, contracted, groups, hmachine, hstart, hgroups, rfl, hexec, ?_⟩
  intro k target free body hs hreads
  have hk : k < groups.length := by
    rw [hgroups.length_eq]
    exact (List.getElem?_eq_some_iff.1 hs).1
  have hgroup : groups[k]? = some groups[k] := List.getElem?_eq_getElem hk
  obtain ⟨before, mem, hbefore, hmem, hlater, hlaid, hapart⟩ :=
    hgroups.reaches hdistinct hplain hbinders rfl hmachine hstart hexec hgroup
  have hzip : (Stmt.assign target (.index free body), groups[k]) ∈ f.body.zip groups :=
    List.mem_of_getElem? (List.getElem?_zip_eq_some.2 ⟨hs, hgroup⟩)
  obtain ⟨names, names', nests, hnests, hlowered⟩ := hgroups.of_contraction hzip
  obtain ⟨type, terms, htype, hterms, hcontracts⟩ := contracts_of_lowerContraction hdistinct hplain
    hstorages hmachine hnests hlowered hreads
  exact ⟨groups[k], before, mem, type, terms, hgroup, hbefore, hmem, hlater, htype, hterms,
    fun hcounts => hcontracts hcounts before mem hlaid hapart hmem⟩

/-! ### Updates of a vector -/

namespace VectorUpdate

/-- The index of a vertex. -/
def free : List IndexVar :=
  [⟨"i", .set "V"⟩]

/-- A vector and what is added to it. -/
def body : Expr ℚ :=
  .binary .add (.indexed ⟨"x", free⟩) (.indexed ⟨"r", free⟩)

/-- Two vectors are read from fields, and their sum is assigned to a target. -/
def func (target : VarName) : Func ℚ :=
  let vector := TensorType.vector "V" .scalar
  (Func.named "f").withSet (((SetDecl.plain "V").withField "x" (.float .scalar)).withField "r"
      (.float .scalar))
    |>.withLocal "r" vector
    |>.withResult "x" vector
    |>.withResult "y" vector
    |>.withStmt (.assign "x" (.field "V" "x"))
    |>.withStmt (.assign "r" (.field "V" "r"))
    |>.withStmt (.assign target (.index free body))

/-- One vertex with ones in its fields. -/
def ones : Bindings ℚ :=
  Bindings.empty.withSet "V" (((SetData.plain 1).withScalars "x" #[1]).withScalars "r" #[1])

end VectorUpdate

open VectorUpdate in
/-- A sum that goes to a third vector is that of the two vectors before. -/
theorem vectorUpdate_contracts :
    ∃ l m start final before mem group terms, (VectorUpdate.func "y").lower .standard = .ok l ∧
      l.machine ones ⟨.lu, 0⟩ = .ok m ∧ m.start l.storages = .ok start ∧
      m.execAll l.func.body start = .ok final ∧ m.execAll group before = .ok mem ∧
      VectorUpdate.body.terms = .ok terms ∧
      m.Contracts before mem "y" (.vector "V" .scalar) VectorUpdate.free terms := by
  obtain ⟨l, hlower, results, hexecute, m, hmachine, terms', hterms', hcounts⟩ :
      ∃ l, (VectorUpdate.func "y").lower .standard = .ok l ∧
        ∃ results, (l.execute ones ⟨.lu, 0⟩).2 = .ok results ∧
          ∃ m, l.machine ones ⟨.lu, 0⟩ = .ok m ∧
            ∃ terms, VectorUpdate.body.terms = .ok terms ∧
              ∀ i ∈ VectorUpdate.free ++ terms.flatMap fun t => t.summed VectorUpdate.free,
                m.count i.domain ≤ 2 ^ 63 := by
    decide +kernel
  have hdistinct : (VectorUpdate.func "y").DistinctNames := by
    unfold Func.DistinctNames
    decide
  have hplain : (VectorUpdate.func "y").PlainNames := by
    unfold Func.PlainNames
    decide
  have hbinders : (VectorUpdate.func "y").BindersApart := by
    intro name hname
    cases hname
  obtain ⟨m', start, final, _, _, groups, hmachine', hstart, _, hbody, hexec, hassigned⟩ :=
    Func.assigned_contracts hdistinct hplain hbinders hlower hexecute
  obtain rfl := Except.ok.inj (hmachine'.symm.trans hmachine)
  obtain ⟨group, before, mem, type, terms, _, _, hmem, _, htype, hterms, hcontracts⟩ :=
    hassigned 2 "y" VectorUpdate.free VectorUpdate.body rfl (by decide)
  obtain rfl := Except.ok.inj (hterms'.symm.trans hterms)
  obtain rfl := ValueType.tensor.inj (Option.some.inj htype)
  exact ⟨l, m', start, final, before, mem, group, terms', hlower, hmachine, hstart, hbody ▸ hexec,
    hmem, hterms', hcontracts hcounts⟩

set_option synthInstance.maxSize 512 in
open VectorUpdate in
/-- A sum that goes to one of its vectors is lowered all the same, and finds that vector cleared. -/
theorem vectorUpdate_forgets_target :
    ∃ l m start before mem terms, (VectorUpdate.func "x").lower .standard = .ok l ∧
      l.machine ones ⟨.lu, 0⟩ = .ok m ∧ m.start l.storages = .ok start ∧
      m.execAll (l.func.body.take 2) start = .ok before ∧
      m.execAll (l.func.body.drop 2) before = .ok mem ∧ VectorUpdate.body.terms = .ok terms ∧
      ¬ m.HoldsContraction before mem "x" (.vector "V" .scalar) VectorUpdate.free terms := by
  obtain ⟨l, hlower, m, hmachine, start, hstart, before, hbefore, mem, hmem, terms, hterms,
      ⟨_, hsize, rfl⟩, hforgot, hsum⟩ :
      ∃ l, (VectorUpdate.func "x").lower .standard = .ok l ∧
        ∃ m, l.machine ones ⟨.lu, 0⟩ = .ok m ∧
          ∃ start, m.start l.storages = .ok start ∧
            ∃ before, m.execAll (l.func.body.take 2) start = .ok before ∧
              ∃ mem, m.execAll (l.func.body.drop 2) before = .ok mem ∧
                ∃ terms, VectorUpdate.body.terms = .ok terms ∧
                  (∃ n, m.resolution.extent (.set "V") = .ok n ∧ n = 1) ∧
                  m.entryAt? mem "x" [0] = some (.scalar 1) ∧
                  m.contractionAt? before .scalar VectorUpdate.free terms [0] =
                    some (.scalar 2) := by
    decide +kernel
  refine ⟨l, m, start, before, mem, terms, hlower, hmachine, hstart, hbefore, hmem, hterms, ?_⟩
  intro h
  obtain ⟨value, hvalue, hcontraction⟩ := h [1] [0] (.cons hsize .nil) (.cons (by decide) .nil)
  have hblocks : (BlockValue.scalar 1 : BlockValue ℚ) = .scalar 2 :=
    Option.some.inj (((hforgot.symm.trans hvalue).trans hcontraction.symm).trans hsum)
  exact absurd hblocks (by decide +kernel)

end GraphTensor
