import GraphTensor.Proofs.Lowering.Nests
import GraphTensor.Proofs.Lowering.NormalForm
import GraphTensor.Proofs.Storage.Descriptors
import GraphTensor.Warning
set_option autoImplicit false

/-! # Warnings before and after lowering

Lowering keeps the solves of a function in their order, and with them the warnings about boundary
conditions. The warning about a dense matrix rests on descriptors that are inferred anew each time.
Before lowering they are those that the function is lowered with; afterwards nothing is left to find
a pattern in, so that every matrix over sets is taken to be dense (`Storages.Dense`).

Warnings are told from one another by what they are about (`Warning.aboutSolve`,
`Warning.aboutBoundary`), and each solve gives its own (`Func.taskWarnings`). So the two lists are
compared solve by solve. -/

namespace GraphTensor

variable {α : Type}

/-! ## Solves -/

/-- The task of a statement that is a solve. -/
def Stmt.solve? : Stmt α → Option SolveTask
  | .solve task => some task
  | _ => none

theorem Stmt.mem_solves_iff {body : List (Stmt α)} {task : SolveTask} :
    task ∈ body.filterMap Stmt.solve? ↔ .solve task ∈ body := by
  rw [List.mem_filterMap]
  constructor
  · rintro ⟨s, hs, htask⟩
    cases s with
    | solve found =>
        obtain rfl := Option.some.inj htask
        exact hs
    | _ => cases htask
  · exact fun hs => ⟨_, hs, rfl⟩

namespace AccessContext

variable {c : AccessContext α}

theorem solve?_of_lowerStmt {s s' : Stmt α} (h : c.lowerStmt s = .ok s') :
    s'.solve? = s.solve? := by
  cases s with
  | assign | accumulate | zero | fieldWrite | solve =>
      rw [lowerStmt] at h
      obtain ⟨_, _, h⟩ := Outcome.bind_eq_ok_iff.1 h
      obtain rfl := Except.ok.inj h
      rfl
  | tensorWrite =>
      obtain ⟨_, address, _, _, rfl⟩ := lowerStmt_tensorWrite_eq_ok_iff.1 h
      cases address with
      | dense | sparse => rfl
      | register =>
          rw [Address.write]
          split <;> rfl
  | loop =>
      obtain ⟨_, _, _, _, rfl⟩ := lowerStmt_loop_eq_ok_iff.1 h
      rfl
  | store | sparseStore =>
      rw [lowerStmt] at h
      obtain rfl := Except.ok.inj h
      rfl
  | assemble => cases h

theorem solves_of_lowerBody {body body' : List (Stmt α)} (h : c.lowerBody body = .ok body') :
    body'.filterMap Stmt.solve? = body.filterMap Stmt.solve? := by
  induction body generalizing body' with
  | nil =>
      obtain rfl := Except.ok.inj h
      rfl
  | cons s rest ih =>
      obtain ⟨s', rest', hs, hrest, rfl⟩ := lowerBody_cons_eq_ok.1 h
      rw [List.filterMap_cons, List.filterMap_cons, solve?_of_lowerStmt hs, ih hrest]

theorem lowerStmt_of_mem {body body' : List (Stmt α)} (h : c.lowerBody body = .ok body')
    {s : Stmt α} (hs : s ∈ body) : ∃ s', c.lowerStmt s = .ok s' := by
  induction body generalizing body' with
  | nil => cases hs
  | cons first rest ih =>
      obtain ⟨first', rest', hfirst, hrest, rfl⟩ := lowerBody_cons_eq_ok.1 h
      rcases List.mem_cons.1 hs with rfl | hs
      · exact ⟨first', hfirst⟩
      · exact ih hrest hs

/-- The matrices of a solve that is lowered have descriptors, and none is a register. -/
theorem matrix_of_checkSolve {task : SolveTask} (h : c.checkSolve task = .ok ()) {m : VarName}
    (hm : m ∈ task.matrices) : ∃ s, c.storages.get? m = some s ∧ s.kind ≠ .register := by
  obtain ⟨_, _, hmatrices⟩ := Outcome.bind_eq_ok_iff.1 h
  obtain ⟨s, hs, hkind⟩ := Outcome.bind_eq_ok_iff.1 (Except.forM_mem hmatrices hm)
  exact ⟨s, Outcome.orFail_eq_ok_iff.1 hs, by simpa using Outcome.failIf_eq_ok_iff.1 hkind⟩

end AccessContext

theorem Nest.solve?_wrap (n : Nest α) {s : Stmt α} (h : s.solve? = none) :
    (n.wrap s).solve? = none := by
  rw [Nest.wrap]
  cases n.loops with
  | nil => exact h
  | cons header rest => rfl

theorem Contraction.solves_of_lowerTerms {c : Contraction} {names names' : Nat}
    {checked : List (Term α × List IndexVar)} {nests : List (Stmt α)}
    (h : c.lowerTerms names checked = .ok (names', nests)) :
    nests.filterMap Stmt.solve? = [] := by
  induction checked generalizing names nests with
  | nil =>
      obtain ⟨_, rfl⟩ := Prod.mk.inj (Except.ok.inj h)
      rfl
  | cons entry rest ih =>
      obtain ⟨middle, s, nests', hs, hnests, rfl⟩ := lowerTerms_cons_eq_ok h
      obtain ⟨_, _, n, _, _, _, _, _, _, _, rfl⟩ := lowerTerm_eq_ok hs
      rw [List.filterMap_cons, n.solve?_wrap rfl, ih hnests]

namespace Func

variable [Scalar α] {f : Func α} {storages : Storages}

theorem solves_of_lowerContraction {names names' : Nat} {target : VarName} {free : List IndexVar}
    {body : Expr α} {nests : List (Stmt α)}
    (h : f.lowerContraction storages names target free body = .ok (names', nests)) :
    nests.filterMap Stmt.solve? = [] := by
  obtain ⟨type, s, terms, checked, rest, _, _, _, _, _, _, hrest, rfl⟩ := lowerContraction_eq_ok h
  rw [List.filterMap_cons]
  exact Contraction.solves_of_lowerTerms hrest

/-- **Solves** stay what they are, and in their order. -/
theorem Groups.solves {search : Search} {assembled contracted : List (Stmt α)}
    {zeroed : List VarName} {names : Nat} {body : List (Stmt α)} {groups : List (List (Stmt α))}
    (h : f.Groups storages search assembled contracted zeroed names body groups) :
    groups.flatten.filterMap Stmt.solve? = body.filterMap Stmt.solve? := by
  induction h with
  | nil => rfl
  | assembly hloop hlowered _ ih =>
      obtain ⟨decl, kernelBody, _, _, _, _, rfl⟩ := lowerAssembly_eq_loop hloop
      have hzeros : ∀ targets : List VarName,
          (targets.map (Stmt.zero (α := α))).filterMap Stmt.solve? = [] := by
        intro targets
        rw [List.filterMap_eq_nil_iff]
        intro s hs
        obtain ⟨target, _, rfl⟩ := List.mem_map.1 hs
        rfl
      rw [List.flatten_cons, List.filterMap_append, List.filterMap_append, hzeros, ih]
      rw [List.filterMap_cons, AccessContext.solve?_of_lowerStmt hlowered]
      rfl
  | contraction hnests hlowered _ ih =>
      rw [List.flatten_cons, List.filterMap_append, AccessContext.solves_of_lowerBody hlowered,
        solves_of_lowerContraction hnests, ih]
      rfl
  | other _ _ hlowered _ ih =>
      rw [List.flatten_cons, List.filterMap_append, ih, List.filterMap_cons, List.filterMap_cons,
        AccessContext.solve?_of_lowerStmt hlowered]
      cases Stmt.solve? _ <;> rfl

end Func

/-! ## Descriptors inferred anew -/

/-- A tensor is dense in a table of descriptors. -/
def Storages.Dense (storages : Storages) (var : VarName) : Prop :=
  ∃ s, storages.get? var = some s ∧ s.kind = .dense

namespace Inference

variable {inf : Inference α}

theorem assemblyEvidence_of_plain (h : ∀ s ∈ inf.func.body, s.Plain) :
    inf.assemblyEvidence = .ok Table.empty := by
  have hall : ∀ (body : List (Stmt α)) (e : Evidence), (∀ s ∈ body, s.Plain) →
      body.foldlM inf.observeAssembly e = .ok e := by
    intro body e hbody
    induction body with
    | nil => rfl
    | cons s rest ih =>
        obtain ⟨hs, hrest⟩ := List.forall_mem_cons.1 hbody
        have hnone : inf.observeAssembly e s = .ok e := by cases hs <;> rfl
        rw [List.foldlM_cons, hnone]
        exact ih hrest
  exact hall _ _ h

variable [Scalar α]

theorem round_of_plain {decided : List VarName} {body : List (Stmt α)} {e : Evidence}
    (h : ∀ s ∈ body, s.Plain) : inf.round decided body e = .ok (e, false) := by
  induction body with
  | nil => rfl
  | cons s rest ih =>
      obtain ⟨hs, hrest⟩ := List.forall_mem_cons.1 h
      have hnone : inf.observeIndex decided e s = .ok (e, false) := by
        cases hs with
        | assign hvalue => cases hvalue <;> rfl
        | _ => rfl
      rw [round, hnone]
      show (inf.round decided rest e >>= fun _ => _) = _
      rw [ih hrest]
      rfl

theorem propagate_of_plain {decided : List VarName} {e : Evidence}
    (h : ∀ s ∈ inf.func.body, s.Plain) : inf.propagate decided e = .ok e := by
  rw [propagate, round_of_plain h]

omit [Scalar α] in
/-- Without evidence every tensor outside the registers is dense. -/
theorem kind_of_no_evidence {inf inf' : Inference α} {e : Evidence} {var : VarName}
    {type : TensorType} (hseed : inf.seed.get? var = none) (hseed' : inf'.seed.get? var = none)
    (h : (inf.storageOf e var type).kind ≠ .register) :
    (inf'.storageOf Table.empty var type).kind = .dense := by
  simp only [storageOf, hseed] at h
  simp only [storageOf, hseed']
  split at h
  · exact absurd rfl h
  · rfl
  · split
    · next hsome => cases hsome
    · rfl

end Inference

namespace Func

variable [Scalar α] {f : Func α} {storages : Storages}

theorem inferStorage_of_plain (h : ∀ s ∈ f.body, s.Plain) :
    f.inferStorage = .ok ((f.inference Table.empty).table Table.empty) :=
  inferStorageWith_eq_ok_iff.2 ⟨Table.empty, Table.empty, rfl,
    Inference.assemblyEvidence_of_plain h, Inference.propagate_of_plain h, rfl⟩

/-- A tensor outside the registers is dense once the evidence is gone. -/
theorem dense_of_inferStorage {body : List (Stmt α)} (h : f.inferStorage = .ok storages)
    {var : VarName} {s : TensorStorage} (hs : storages.get? var = some s)
    (hkind : s.kind ≠ .register) :
    Storages.Dense (((f.withBody body).inference Table.empty).table Table.empty) var := by
  obtain ⟨_, evidence, _, _, _, rfl⟩ := inferStorageWith_eq_ok_iff.1 h
  rw [Inference.get?_table] at hs
  obtain ⟨type, htype, rfl⟩ := Option.map_eq_some_iff.1 hs
  have hseed : (f.inference Table.empty).seed.get? var = none := rfl
  refine ⟨((f.withBody body).inference Table.empty).storageOf Table.empty var type, ?_,
    Inference.kind_of_no_evidence hseed rfl hkind⟩
  rw [Inference.get?_table]
  exact Option.map_eq_some_iff.2 ⟨type, htype, rfl⟩

end Func

/-! ## Warnings -/

/-- The warning is about a solve. -/
def Warning.aboutSolve : Warning → Bool
  | unusedTarget _ _ => false
  | _ => true

/-- The warning is about a boundary condition. -/
def Warning.aboutBoundary : Warning → Bool
  | markerMismatch _ _ _ => true
  | missingMarker _ _ => true
  | _ => false

/-- The warnings about boundary conditions are among those about solves. -/
theorem Warning.filter_aboutBoundary (ws : List Warning) :
    ws.filter aboutBoundary = (ws.filter aboutSolve).filter aboutBoundary := by
  rw [List.filter_filter]
  refine List.filter_congr fun w _ => ?_
  cases w <;> rfl

/-- A dense matrix is reported where it is among the warnings about solves. -/
theorem mem_iff_of_filter {ws solves : List Warning} (h : ws.filter Warning.aboutSolve = solves)
    {m : VarName} : .denseMatrix m ∈ ws ↔ .denseMatrix m ∈ solves := by
  rw [← h, List.mem_filter]
  exact (and_iff_left rfl).symm

namespace Func

/-- A variable is a tensor that ranges over a set. -/
def OverSets (f : Func α) (var : VarName) : Prop :=
  ∃ type set, f.tensorType? var = some type ∧ .set set ∈ type.dims

/-- The warnings about the boundary condition of a solve, if it has one. -/
def fixedWarnings (f : Func α) : SolveTask → List Warning
  | .direct ⟨matrix, _, _, some b⟩ => f.boundaryWarnings matrix b
  | _ => []

/-- The warnings about one solve. -/
def taskWarnings (f : Func α) (storages : Storages) (task : SolveTask) : List Warning :=
  f.fixedWarnings task ++ task.matrices.flatMap (f.matrixWarnings storages)

variable {f : Func α} {storages storages' : Storages}

theorem solveWarnings_eq : f.solveWarnings storages =
    (f.body.filterMap Stmt.solve?).flatMap (f.taskWarnings storages) := by
  rw [solveWarnings]
  induction f.body with
  | nil => rfl
  | cons s rest ih =>
      rw [List.flatMap_cons, ih]
      cases s with
      | solve task => rfl
      | _ => rfl

theorem matrixWarnings_of_dense {m : VarName} (hsets : f.OverSets m) (hdense : storages.Dense m) :
    f.matrixWarnings storages m = [.denseMatrix m] := by
  obtain ⟨type, set, htype, hset⟩ := hsets
  obtain ⟨s, hs, hkind⟩ := hdense
  have hany : type.dims.any IndexDomain.isSet = true := List.any_eq_true.2 ⟨_, hset, rfl⟩
  simp [matrixWarnings, htype, hs, hkind, hany]

theorem matrixWarnings_of_not {m : VarName} (h : ¬ (f.OverSets m ∧ storages.Dense m)) :
    f.matrixWarnings storages m = [] := by
  rw [matrixWarnings]
  refine if_neg fun hboth => h ?_
  obtain ⟨hsets, hdense⟩ := Bool.and_eq_true_iff.1 hboth
  obtain ⟨type, htype, hany⟩ := (Option.any_eq_true _ _).1 hsets
  obtain ⟨dim, hdim, hset⟩ := List.any_eq_true.1 hany
  obtain ⟨s, hs, hkind⟩ := (Option.any_eq_true _ _).1 hdense
  cases dim with
  | set set => exact ⟨⟨type, set, htype, hdim⟩, s, hs, by simpa using hkind⟩
  | dense extent => cases hset

/-- The matrices that the warnings about a solve name. -/
theorem mem_taskWarnings_iff {task : SolveTask} {m : VarName} :
    .denseMatrix m ∈ f.taskWarnings storages task ↔
      m ∈ task.matrices ∧ f.OverSets m ∧ storages.Dense m := by
  have hfixed : .denseMatrix m ∉ f.fixedWarnings task := by
    intro hmem
    unfold fixedWarnings at hmem
    split at hmem
    · rcases List.mem_append.1 hmem with hmem | hmem
      · split at hmem
        · cases hmem
        · cases List.mem_singleton.1 hmem
      · split at hmem
        · cases hmem
        · cases List.mem_singleton.1 hmem
    · cases hmem
  rw [taskWarnings, List.mem_append, List.mem_flatMap]
  constructor
  · rintro (hmem | ⟨matrix, hmatrix, hmem⟩)
    · exact absurd hmem hfixed
    · by_cases hboth : f.OverSets matrix ∧ storages.Dense matrix
      · rw [matrixWarnings_of_dense hboth.1 hboth.2] at hmem
        obtain rfl := Warning.denseMatrix.inj (List.mem_singleton.1 hmem)
        exact ⟨hmatrix, hboth⟩
      · rw [matrixWarnings_of_not hboth] at hmem
        cases hmem
  · rintro ⟨hm, hsets, hdense⟩
    refine Or.inr ⟨m, hm, ?_⟩
    rw [matrixWarnings_of_dense hsets hdense]
    exact List.mem_singleton_self _

theorem solve_of_mem_taskWarnings {task : SolveTask} {w : Warning}
    (h : w ∈ f.taskWarnings storages task) : w.aboutSolve = true := by
  cases w with
  | unusedTarget target set =>
      rcases List.mem_append.1 h with h | h
      · unfold fixedWarnings at h
        split at h
        · simp [boundaryWarnings] at h
        · cases h
      · obtain ⟨m, _, h⟩ := List.mem_flatMap.1 h
        rw [matrixWarnings] at h
        split at h
        · cases List.mem_singleton.1 h
        · cases h
  | _ => rfl

/-- The warnings about solves in a list are those about each of the solves, under a table. -/
def Reports (f : Func α) (storages : Storages) (ws : List Warning) : Prop :=
  ws.filter Warning.aboutSolve =
    (f.body.filterMap Stmt.solve?).flatMap (f.taskWarnings storages)

theorem reports_warnings : f.Reports storages (f.unusedTargets ++ f.solveWarnings storages) := by
  have hunused : f.unusedTargets.filter Warning.aboutSolve = [] := by
    rw [List.filter_eq_nil_iff]
    intro w hw
    obtain ⟨s, _, hw⟩ := List.mem_flatMap.1 hw
    split at hw
    · obtain ⟨target, _, rfl⟩ := List.mem_map.1 hw
      simp [Warning.aboutSolve]
    · cases hw
  rw [Reports, List.filter_append, hunused, List.nil_append, solveWarnings_eq,
    List.filter_eq_self]
  intro w hw
  obtain ⟨task, _, hw⟩ := List.mem_flatMap.1 hw
  exact solve_of_mem_taskWarnings hw

theorem boundary_taskWarnings (task : SolveTask) :
    (f.taskWarnings storages task).filter Warning.aboutBoundary =
      (f.taskWarnings storages' task).filter Warning.aboutBoundary := by
  have hmatrices : ∀ storages : Storages,
      (task.matrices.flatMap (f.matrixWarnings storages)).filter Warning.aboutBoundary = [] := by
    intro storages
    rw [List.filter_eq_nil_iff]
    intro w hw
    obtain ⟨m, _, hw⟩ := List.mem_flatMap.1 hw
    rw [matrixWarnings] at hw
    split at hw
    · obtain rfl := List.mem_singleton.1 hw
      simp [Warning.aboutBoundary]
    · cases hw
  rw [taskWarnings, taskWarnings, List.filter_append, List.filter_append, hmatrices, hmatrices]

namespace Reports

variable {ws ws' : List Warning}

theorem denseMatrix_mem_iff (h : f.Reports storages ws) (m : VarName) :
    .denseMatrix m ∈ ws ↔ ∃ task, .solve task ∈ f.body ∧ m ∈ task.matrices ∧ f.OverSets m ∧
      storages.Dense m := by
  rw [mem_iff_of_filter h]
  simp only [List.mem_flatMap, Stmt.mem_solves_iff, mem_taskWarnings_iff]

theorem boundary_eq (h : f.Reports storages ws) (h' : f.Reports storages' ws') :
    ws.filter Warning.aboutBoundary = ws'.filter Warning.aboutBoundary := by
  rw [Warning.filter_aboutBoundary ws, Warning.filter_aboutBoundary ws', h, h',
    List.filter_flatMap, List.filter_flatMap]
  exact congrArg List.flatten (List.map_congr_left fun task _ => boundary_taskWarnings task)

theorem solve_eq (h : f.Reports storages ws) (h' : f.Reports storages' ws')
    (hdense : ∀ task, .solve task ∈ f.body → ∀ m ∈ task.matrices, f.OverSets m →
      storages.Dense m ∧ storages'.Dense m) :
    ws.filter Warning.aboutSolve = ws'.filter Warning.aboutSolve := by
  rw [h, h']
  refine congrArg List.flatten (List.map_congr_left fun task htask => ?_)
  have htask := Stmt.mem_solves_iff.1 htask
  refine congrArg (fun ws => f.fixedWarnings task ++ ws.flatten)
    (List.map_congr_left fun m hm => ?_)
  by_cases hsets : f.OverSets m
  · obtain ⟨hbefore, hafter⟩ := hdense task htask m hm hsets
    rw [matrixWarnings_of_dense hsets hbefore, matrixWarnings_of_dense hsets hafter]
  · rw [matrixWarnings_of_not (hsets ·.1), matrixWarnings_of_not (hsets ·.1)]

end Reports

variable [Scalar α]

theorem warnings_eq {ε : Type} (h : f.inferStorage = .ok storages) :
    (f.warnings : Outcome ε (List Warning)) =
      .ok (f.unusedTargets ++ f.solveWarnings storages) := by
  rw [warnings, h]

/-- Every matrix of a solve has passed the last pass and so is no register; without its evidence it
    is dense. -/
theorem dense_of_lowerWith {options : LowerOptions} {l : LoweredFunc α}
    (hstorages : f.inferStorage = .ok storages) (hlower : f.lowerWith storages options = .ok l)
    {task : SolveTask} (htask : .solve task ∈ f.body) {m : VarName} (hm : m ∈ task.matrices) :
    Storages.Dense ((l.func.inference Table.empty).table Table.empty) m := by
  obtain ⟨_, _, c, contracted, hc, hbody⟩ := plain_of_lowerWith hlower
  obtain ⟨_, _, groups, hgroups, rfl⟩ := groups_of_lowerWith hlower
  have hkept := (AccessContext.solves_of_lowerBody hbody).symm.trans hgroups.solves
  have hmem : .solve task ∈ contracted := by
    rwa [← Stmt.mem_solves_iff, hkept, Stmt.mem_solves_iff]
  obtain ⟨_, hsolve⟩ := AccessContext.lowerStmt_of_mem hbody hmem
  obtain ⟨_, hcheck, _⟩ := Outcome.bind_eq_ok_iff.1 hsolve
  obtain ⟨s, hs, hkind⟩ := AccessContext.matrix_of_checkSolve hcheck hm
  exact dense_of_inferStorage hstorages (hc ▸ hs) hkind

/-- A lowered function has the solves of the function, under its own table. -/
theorem reports_of_lowerWith {options : LowerOptions} {l : LoweredFunc α} {inferred : Storages}
    (hlower : f.lowerWith storages options = .ok l) :
    f.Reports inferred (l.func.unusedTargets ++ l.func.solveWarnings inferred) := by
  obtain ⟨_, _, groups, hgroups, rfl⟩ := groups_of_lowerWith hlower
  rw [Reports, reports_warnings, ← hgroups.solves]
  rfl

/-- **Warnings before and after lowering.** The warnings about boundary conditions are the same. A
    dense matrix is reported before lowering just if it is over sets and dense in the table that the
    function is lowered with, and afterwards just if it is over sets. So the warnings about solves
    are the same just if all system matrices over sets are dense. -/
theorem warnings_of_lower {ε : Type} {options : LowerOptions} {l : LoweredFunc α}
    (h : f.lower options = .ok l) :
    ∃ before after : List Warning,
      (f.warnings : Outcome ε (List Warning)) = .ok before ∧
      (l.func.warnings : Outcome ε (List Warning)) = .ok after ∧
      before.filter Warning.aboutBoundary = after.filter Warning.aboutBoundary ∧
      (∀ m, .denseMatrix m ∈ before ↔ ∃ task, .solve task ∈ f.body ∧ m ∈ task.matrices ∧
        f.OverSets m ∧ l.storages.Dense m) ∧
      (∀ m, .denseMatrix m ∈ after ↔ ∃ task, .solve task ∈ f.body ∧ m ∈ task.matrices ∧
        f.OverSets m) ∧
      (before.filter Warning.aboutSolve = after.filter Warning.aboutSolve ↔
        ∀ task, .solve task ∈ f.body → ∀ m ∈ task.matrices, f.OverSets m →
          l.storages.Dense m) := by
  obtain ⟨storages, hstorages, hlower⟩ := Outcome.bind_eq_ok_iff.1 h
  obtain ⟨hplain, rfl, _⟩ := plain_of_lowerWith hlower
  let inferred := (l.func.inference Table.empty).table Table.empty
  obtain ⟨before, hbefore, hreports⟩ :
      ∃ before, (f.warnings : Outcome ε _) = .ok before ∧ f.Reports l.storages before :=
    ⟨_, warnings_eq hstorages, reports_warnings⟩
  obtain ⟨after, hafter, hreports'⟩ :
      ∃ after, (l.func.warnings : Outcome ε _) = .ok after ∧ f.Reports inferred after :=
    ⟨_, warnings_eq (inferStorage_of_plain hplain), reports_of_lowerWith hlower⟩
  have hdense : ∀ {task}, .solve task ∈ f.body → ∀ {m}, m ∈ task.matrices → inferred.Dense m :=
    dense_of_lowerWith hstorages hlower
  have hafterwards : ∀ m, .denseMatrix m ∈ after ↔ ∃ task, .solve task ∈ f.body ∧
      m ∈ task.matrices ∧ f.OverSets m := fun m => by
    rw [hreports'.denseMatrix_mem_iff]
    exact exists_congr fun task => and_congr_right fun htask => and_congr_right fun hm =>
      and_iff_left (hdense htask hm)
  refine ⟨before, after, hbefore, hafter, hreports.boundary_eq hreports',
    hreports.denseMatrix_mem_iff, hafterwards, fun hsame task htask m hm hsets => ?_,
    fun hall => ?_⟩
  · have hmem : .denseMatrix m ∈ after := (hafterwards m).2 ⟨task, htask, hm, hsets⟩
    rw [mem_iff_of_filter hsame.symm] at hmem
    obtain ⟨_, _, _, _, hdense⟩ :=
      (hreports.denseMatrix_mem_iff m).1 (List.mem_filter.1 hmem).1
    exact hdense
  · exact hreports.solve_eq hreports' fun task htask m hm hsets =>
      ⟨hall task htask m hm hsets, hdense htask hm⟩

end Func

/-- A function over vertices and edges that solves for a matrix "A" after another statement. -/
def solveAfter (fill solve : Stmt Float) : Func Float :=
  (Func.named "f").withSet (.plain "V")
    |>.withSet (.relation "E" "V" 2)
    |>.withLocal "A" (.matrix "V" "V" .scalar)
    |>.withLocal "b" (.vector "V" .scalar)
    |>.withResult "x" (.vector "V" .scalar)
    |>.withStmt fill
    |>.withStmt solve

/-- A matrix that nothing ties to edges is reported as dense, and a marker as missing, before and
    after lowering. -/
theorem emptyMatrix_warnings :
    let f := solveAfter (.zero "A") (.solve (.direct ⟨"A", "b", "x", some ⟨"V", "fixed", "b"⟩⟩))
    ∃ l, f.lower .standard = .ok l ∧ ∃ before after : List Warning,
      (f.warnings : Lowered (List Warning)) = .ok before ∧
      (l.func.warnings : Lowered (List Warning)) = .ok after ∧ .denseMatrix "A" ∈ before ∧
      .missingMarker "V" "fixed" ∈ before ∧
      before.filter Warning.aboutSolve = after.filter Warning.aboutSolve := by
  intro f
  obtain ⟨l, hlower, hkind, found, hfound, hmarker⟩ :
      ∃ l, f.lower .standard = .ok l ∧ l.storages.get? "A" = some ⟨.dense, .scalar⟩ ∧
        ∃ ws, (f.warnings : Lowered (List Warning)) = .ok ws ∧ .missingMarker "V" "fixed" ∈ ws := by
    decide +kernel
  have hdense : l.storages.Dense "A" := ⟨_, hkind, rfl⟩
  obtain ⟨before, after, hbefore, hafter, _, hreported, _, hsame⟩ :
      ∃ before after : List Warning, (f.warnings : Lowered (List Warning)) = .ok before ∧ _ :=
    Func.warnings_of_lower hlower
  obtain rfl := Except.ok.inj (hfound.symm.trans hbefore)
  refine ⟨l, hlower, found, after, hbefore, hafter, ?_, hmarker, hsame.2 ?_⟩
  · exact (hreported "A").2 ⟨_, List.mem_cons_of_mem _ (List.mem_singleton_self _),
      List.mem_singleton_self _, ⟨_, "V", rfl, List.mem_cons_self ..⟩, hdense⟩
  · intro task htask m hm _
    rcases List.mem_cons.1 htask with htask | htask
    · cases htask
    · obtain rfl := Stmt.solve.inj (List.mem_singleton.1 htask)
      obtain rfl := List.mem_singleton.1 hm
      exact hdense

/-- A matrix over edges is sparse, and nothing is reported until the function is lowered; then the
    matrix is said to be dense. A solve that stands in a loop is not looked at. -/
theorem edgeMatrix_reported :
    let solve : Stmt Float := .solve (.direct ⟨"A", "b", "x", none⟩)
    let edges : Stmt Float := .assemble ["A"] "E"
      ⟨⟨"E.e", .element "E"⟩, some ⟨"E.ep", .endpoints "E"⟩⟩
      [.contribute "A" [.endpoint "E.ep" 0, .endpoint "E.ep" 1] (.literal (.float 1))]
    (∃ l, (solveAfter edges solve).lower .standard = .ok l ∧
      l.storages.pattern? "A" = some (.square "E" "V") ∧
      (∃ ws, ((solveAfter edges solve).warnings : Lowered (List Warning)) = .ok ws ∧ ws = []) ∧
      ∃ ws, (l.func.warnings : Lowered (List Warning)) = .ok ws ∧ ws = [.denseMatrix "A"]) ∧
    ∃ l, (solveAfter (.zero "A") (.loop (.range "i" (.dense 2)) [solve])).lower .standard = .ok l ∧
      l.storages.get? "A" = some ⟨.dense, .scalar⟩ ∧
      ∃ ws, ((solveAfter (.zero "A") (.loop (.range "i" (.dense 2)) [solve])).warnings :
        Lowered (List Warning)) = .ok ws ∧ ws = [] := by
  decide +kernel

end GraphTensor
