import GraphTensor.Machine.Run
import GraphTensor.Proofs.Outcome
import GraphTensor.Proofs.Table
set_option autoImplicit false

/-! # Effects of single statements

A statement that succeeds does one of a few things. Stores, assignments to tensors and the solutions
of a solve refill buffers (`Memory.Refills`): the numbers change, the layout, the locals and the
noted updates do not. An assignment to a name without a buffer binds a local, and a write of a field
notes an update.

For each kind of statement there is one lemma that says when it succeeds and with which memory, its
guards included, and later modules take runs apart with these alone. A loop folds its body over its
visits, and for each kind of loop the visits are told by another lemma. -/

namespace GraphTensor

variable {α : Type}

namespace Memory

variable {mem mem' : Memory α} {var : VarName}

theorem buffer_eq_ok_iff {b : Buffer α} : mem.buffer var = .ok b ↔ mem.buffers.get? var = some b :=
  Outcome.orFail_eq_ok_iff

/-- A solution takes the place of the numbers of a dense tensor that has as many. -/
theorem withSolution_eq_ok_iff {solution : Array α} :
    mem.withSolution var solution = .ok mem' ↔
      ∃ block values, mem.buffers.get? var = some (.dense block values) ∧
        values.size = solution.size ∧ mem' = mem.withBuffer var (.dense block solution) := by
  constructor
  · intro h
    obtain ⟨b, hb, h⟩ := Outcome.bind_eq_ok_iff.1 h
    cases b with
    | dense block values =>
        obtain ⟨hsize, h⟩ := Outcome.check_bind_eq_ok_iff.1 h
        exact ⟨block, values, buffer_eq_ok_iff.1 hb, by simpa using Outcome.failIf_eq_ok_iff.1 hsize,
          Except.pure_eq_ok_iff.1 h⟩
    | sparse matrix => cases h
    | register value => cases h
  · rintro ⟨block, values, hb, hsize, rfl⟩
    refine Outcome.bind_eq_ok_iff.2 ⟨_, buffer_eq_ok_iff.2 hb, ?_⟩
    refine Outcome.check_bind_eq_ok_iff.2 ⟨?_, rfl⟩
    exact Outcome.failIf_eq_ok_iff.2 (by simpa using hsize)

/-- The buffer of a variable gets other numbers in the same layout. -/
def Refills (var : VarName) (mem mem' : Memory α) : Prop :=
  ∃ b values, mem.buffers.get? var = some b ∧ values.size = b.values.size ∧
    mem' = mem.withBuffer var (b.withValues values)

theorem Refills.locals_eq (h : mem.Refills var mem') : mem'.locals = mem.locals := by
  obtain ⟨_, _, _, _, rfl⟩ := h
  rfl

theorem Refills.updates_eq (h : mem.Refills var mem') : mem'.updates = mem.updates := by
  obtain ⟨_, _, _, _, rfl⟩ := h
  rfl

theorem refills_withSolution {solution : Array α} (h : mem.withSolution var solution = .ok mem') :
    mem.Refills var mem' := by
  obtain ⟨block, values, hb, hsize, rfl⟩ := withSolution_eq_ok_iff.1 h
  exact ⟨_, solution, hb, hsize.symm, rfl⟩

end Memory

/-- The variables that take the solutions of a solve. -/
def SolveTask.solutions : SolveTask → List VarName
  | direct t => [t.result]
  | schur t => [t.resultPrimary, t.resultDerived]

namespace Machine

open Memory

variable {m : Machine α} {mem mem' : Memory α} {var : VarName}

/-! ## Writes of fields -/

/-- A write of a field notes the numbers of a dense buffer, which are a block for each element of a
    set whose field is not declared to hold truth values. -/
theorem noteUpdate_spec {set : SetName} {field : FieldName}
    (h : m.noteUpdate mem set field var = .ok mem') :
    m.isBoolField set field = false ∧ ∃ n length block values,
      m.resolution.size set = .ok n ∧ mem.buffers.get? var = some (.dense block values) ∧
        block.length? = some length ∧ Word.mul? n length = some values.size ∧
          mem' = mem.withUpdate ⟨set, field, .float block values⟩ := by
  obtain ⟨_, hbool, h⟩ := Outcome.bind_eq_ok_iff.1 h
  obtain ⟨n, hn, h⟩ := Outcome.bind_eq_ok_iff.1 h
  obtain ⟨b, hb, h⟩ := Outcome.bind_eq_ok_iff.1 h
  cases b with
  | dense block values =>
      obtain ⟨length, hlength, h⟩ := Outcome.bind_eq_ok_iff.1 h
      obtain ⟨expected, hexpected, h⟩ := Outcome.bind_eq_ok_iff.1 h
      obtain ⟨_, hsize, h⟩ := Outcome.bind_eq_ok_iff.1 h
      obtain rfl := Except.ok.inj h
      have hsize : values.size = expected := by simpa using Outcome.failIf_eq_ok_iff.1 hsize
      exact ⟨Outcome.failIf_eq_ok_iff.1 hbool, n, length, block, values, hn, buffer_eq_ok_iff.1 hb,
        Outcome.orAbort_eq_ok_iff.1 hlength, hsize ▸ Outcome.orAbort_eq_ok_iff.1 hexpected, rfl⟩
  | sparse matrix => cases h
  | register value => cases h

/-! ## Stores -/

theorem checkBlock_eq_ok_iff {block : BlockShape} {value : BlockValue α} :
    checkBlock var block value = .ok () ↔ value.shape = block := by
  simp [checkBlock, Outcome.failIf_eq_ok_iff]

variable [Scalar α]

theorem store_eq_ok_iff {offset : Int} {value : BlockValue α} {accumulate : Bool} :
    store mem var offset value accumulate = .ok mem' ↔
      ∃ values b, mem.buffers.get? var = some (.dense value.shape values) ∧
        (Buffer.dense value.shape values).store var offset value accumulate = .ok b ∧
          mem' = mem.withBuffer var b := by
  constructor
  · intro h
    obtain ⟨b, hb, h⟩ := Outcome.bind_eq_ok_iff.1 h
    cases b with
    | dense block values =>
        obtain ⟨hshape, hstore⟩ := Outcome.check_bind_eq_ok_iff.1 h
        obtain ⟨b', hb', hmem⟩ := Outcome.bind_eq_ok_iff.1 hstore
        obtain rfl := checkBlock_eq_ok_iff.1 hshape
        exact ⟨values, b', buffer_eq_ok_iff.1 hb, hb', Except.pure_eq_ok_iff.1 hmem⟩
    | sparse matrix => cases h
    | register value => cases h
  · rintro ⟨values, b, hb, hb', rfl⟩
    exact Outcome.bind_eq_ok_iff.2 ⟨_, buffer_eq_ok_iff.2 hb, Outcome.check_bind_eq_ok_iff.2
      ⟨checkBlock_eq_ok_iff.2 rfl, Outcome.bind_eq_ok_iff.2 ⟨b, hb', rfl⟩⟩⟩

theorem sparseStore_eq_ok_iff {position : Int} {value : BlockValue α} {accumulate : Bool} :
    sparseStore mem var position value accumulate = .ok mem' ↔
      ∃ matrix b, mem.buffers.get? var = some (.sparse matrix) ∧
        (Buffer.sparse matrix).storeAt var position value accumulate = .ok b ∧
          mem' = mem.withBuffer var b := by
  constructor
  · intro h
    obtain ⟨b, hb, h⟩ := Outcome.bind_eq_ok_iff.1 h
    cases b with
    | sparse matrix =>
        obtain ⟨b', hb', h⟩ := Outcome.bind_eq_ok_iff.1 h
        exact ⟨matrix, b', buffer_eq_ok_iff.1 hb, hb', Except.pure_eq_ok_iff.1 h⟩
    | dense block values => cases h
    | register value => cases h
  · rintro ⟨matrix, b, hb, hb', rfl⟩
    exact Outcome.bind_eq_ok_iff.2 ⟨_, buffer_eq_ok_iff.2 hb, Outcome.bind_eq_ok_iff.2 ⟨b, hb', rfl⟩⟩

/-- What a store is given: an offset and a block. -/
theorem exec_store_eq_ok_iff {offset value : Expr α} {accumulate : Bool} :
    m.exec (.store var offset value accumulate) mem = .ok mem' ↔
      ∃ o place v block, m.eval mem offset = .ok o ∧ o.asInt .storeOffset = .ok place ∧
        m.eval mem value = .ok v ∧ v.asBlock .storeValue = .ok block ∧
          store mem var place block accumulate = .ok mem' := by
  simp only [exec, Outcome.bind_eq_ok_iff, exists_and_left]

/-- What a sparse store is given: a position of the pattern and a block of the tensor's shape. -/
theorem exec_sparseStore_eq_ok_iff {position value : Expr α} {accumulate : Bool}
    {shape : BlockShape} :
    m.exec (.sparseStore var position value accumulate shape) mem = .ok mem' ↔
      ∃ p place v block, m.eval mem position = .ok p ∧ storePosition var p = .ok place ∧
        m.eval mem value = .ok v ∧ v.asBlock .sparseStoreValue = .ok block ∧
          block.shape = shape ∧ sparseStore mem var place block accumulate = .ok mem' := by
  simp only [exec, ↓Outcome.check_bind_eq_ok_iff, Outcome.bind_eq_ok_iff, exists_and_left,
    checkBlock_eq_ok_iff]

theorem refills_of_buffer_store {b b' : Buffer α} {offset : Int} {value : BlockValue α}
    {accumulate : Bool} (hb : mem.buffers.get? var = some b)
    (h : b.store var offset value accumulate = .ok b') :
    mem.Refills var (mem.withBuffer var b') := by
  obtain ⟨start, _, h⟩ := Outcome.bind_eq_ok_iff.1 h
  obtain rfl := Except.ok.inj h
  exact ⟨b, _, hb, Slot.size_write .., rfl⟩

theorem refills_execStore {offset value : Expr α} {accumulate : Bool}
    (h : m.exec (.store var offset value accumulate) mem = .ok mem') : mem.Refills var mem' := by
  obtain ⟨_, _, _, _, _, _, _, _, h⟩ := exec_store_eq_ok_iff.1 h
  obtain ⟨values, b, hb, hb', rfl⟩ := store_eq_ok_iff.1 h
  exact refills_of_buffer_store hb hb'

theorem refills_execSparseStore {position value : Expr α} {accumulate : Bool} {block : BlockShape}
    (h : m.exec (.sparseStore var position value accumulate block) mem = .ok mem') :
    mem.Refills var mem' := by
  obtain ⟨_, _, _, _, _, _, _, _, _, h⟩ := exec_sparseStore_eq_ok_iff.1 h
  obtain ⟨matrix, b, hb, hb', rfl⟩ := sparseStore_eq_ok_iff.1 h
  exact refills_of_buffer_store hb hb'

theorem exec_zero_eq_ok_iff :
    m.exec (.zero var) mem = .ok mem' ↔
      ∃ b, mem.buffers.get? var = some b ∧ mem' = mem.withBuffer var b.cleared := by
  simp only [exec, Outcome.bind_eq_ok_iff, Except.pure_eq_ok_iff, buffer_eq_ok_iff]

theorem refills_execZero (h : m.exec (.zero var) mem = .ok mem') : mem.Refills var mem' := by
  obtain ⟨b, hb, rfl⟩ := exec_zero_eq_ok_iff.1 h
  exact ⟨b, _, hb, Array.size_replicate, rfl⟩

/-! ## Assignments -/

theorem fill_eq_ok_iff {b : Buffer α} {value : Expr α} {accumulate : Bool} :
    m.fill mem var b value accumulate = .ok mem' ↔
      ∃ data, m.fillers mem var value = .ok data ∧ b.values.size = data.size ∧
        mem' = mem.withBuffer var (b.withValues (Slot.write b.values 0 data accumulate)) := by
  simp only [fill, ↓Outcome.check_bind_eq_ok_iff, Outcome.bind_eq_ok_iff, Outcome.failIf_eq_ok_iff,
    Except.pure_eq_ok_iff, bne_eq_false_iff_eq]

/-- A local is bound to the value of an expression, or to the sum with what it is bound to. -/
theorem bindLocal_eq_ok_iff {value : Expr α} {accumulate : Bool} :
    m.bind mem var value accumulate = .ok mem' ↔
      ∃ v w, m.eval mem value = .ok v ∧ mem' = mem.withLocal var w ∧
        (accumulate = false ∧ w = v ∨ accumulate = true ∧
          ∃ current, mem.locals.get? var = some current ∧
            Value.operate .add current v = .ok w) := by
  cases accumulate with
  | false =>
      simp only [Machine.bind, Outcome.bind_eq_ok_iff, Bool.false_eq_true, if_false,
        Except.pure_eq_ok_iff, true_and, false_and, or_false]
      exact ⟨fun ⟨v, hv, h⟩ => ⟨v, v, hv, h, rfl⟩, fun ⟨v, _, hv, h, hw⟩ => ⟨v, hv, hw ▸ h⟩⟩
  | true =>
      simp only [Machine.bind, Outcome.bind_eq_ok_iff, if_true, Outcome.orFail_eq_ok_iff,
        Except.pure_eq_ok_iff, Bool.true_eq_false, true_and, false_and, false_or]
      exact ⟨fun ⟨v, hv, current, hcurrent, w, hw, h⟩ => ⟨v, w, hv, h, current, hcurrent, hw⟩,
        fun ⟨v, w, hv, h, current, hcurrent, hw⟩ => ⟨v, hv, current, hcurrent, w, hw, h⟩⟩

theorem refills_assign {b : Buffer α} {value : Expr α} {accumulate : Bool}
    (hb : mem.buffers.get? var = some b) (h : m.assign mem var value accumulate = .ok mem') :
    mem.Refills var mem' := by
  rw [assign, hb] at h
  obtain ⟨data, _, _, rfl⟩ := fill_eq_ok_iff.1 h
  exact ⟨b, _, hb, Slot.size_write .., rfl⟩

/-- An assignment to a name without a buffer binds a local: to the value, or to the sum of what it
    is bound to and the value. -/
theorem local_of_assign {value : Expr α} {accumulate : Bool} (hnone : mem.buffers.get? var = none)
    (h : m.assign mem var value accumulate = .ok mem') :
    ∃ v w, m.eval mem value = .ok v ∧ mem' = mem.withLocal var w ∧
      (w = v ∨ ∃ current, Value.operate .add current v = .ok w) := by
  rw [assign, hnone] at h
  obtain ⟨v, w, hv, hmem, hw⟩ := bindLocal_eq_ok_iff.1 h
  exact ⟨v, w, hv, hmem, hw.imp And.right fun ⟨_, current, _, hsum⟩ => ⟨current, hsum⟩⟩

/-! ## Solves -/

/-- A direct solve puts the solution of the system into its result. -/
theorem solve_direct_eq_ok_iff {task : DirectSolve} :
    m.solve mem (.direct task) = .ok mem' ↔
      ∃ matrix rhs boundary solution, m.systemMatrix mem task.matrix = .ok matrix ∧
        mem.vector task.rhs = .ok rhs ∧
        task.boundary.elim (.ok none) (m.boundary mem) = .ok boundary ∧
        matrix.solveDirect rhs boundary m.config = .ok solution ∧
        mem.withSolution task.result solution = .ok mem' := by
  -- the boundary is looked up only if there is a condition
  cases hboundary : task.boundary <;>
    simp [solve, solveDirect, hboundary, Outcome.bind_eq_ok_iff, ofSolved,
      Outcome.mapError_eq_ok_iff]

/-- A solve of two blocks puts both parts of the solution into their results. -/
theorem solve_schur_eq_ok_iff {task : SchurSolve} :
    m.solve mem (.schur task) = .ok mem' ↔
      ∃ primary coupling derived rhsPrimary rhsDerived solution middle,
        m.expandedMatrix mem task.primary = .ok primary ∧
        m.expandedMatrix mem task.coupling = .ok coupling ∧
        task.derived.mapM (m.expandedMatrix mem) = .ok derived ∧
        mem.vector task.rhsPrimary = .ok rhsPrimary ∧ mem.vector task.rhsDerived = .ok rhsDerived ∧
        (SchurSystem.mk primary coupling derived rhsPrimary rhsDerived).solve m.config =
          .ok solution ∧
        mem.withSolution task.resultPrimary solution.primary = .ok middle ∧
        middle.withSolution task.resultDerived solution.derived = .ok mem' := by
  simp only [solve, solveSchur, ofSolved, Outcome.mapError_eq_ok_iff, Outcome.bind_eq_ok_iff,
    exists_and_left]

/-- A solve puts its solutions into the variables that take them, one after another. -/
theorem withSolutions_of_solve {task : SolveTask} (h : m.solve mem task = .ok mem') :
    ∃ solutions : List (VarName × Array α), solutions.map Prod.fst = task.solutions ∧
      solutions.foldlM (fun mem (var, solution) => mem.withSolution var solution) mem =
        .ok mem' := by
  cases task with
  | direct task =>
      obtain ⟨_, _, _, x, _, _, _, _, h⟩ := solve_direct_eq_ok_iff.1 h
      exact ⟨[(task.result, x)], rfl, Outcome.bind_eq_ok_iff.2 ⟨mem', h, rfl⟩⟩
  | schur task =>
      obtain ⟨_, _, _, _, _, x, middle, _, _, _, _, _, _, hmiddle, h⟩ := solve_schur_eq_ok_iff.1 h
      exact ⟨[(task.resultPrimary, x.primary), (task.resultDerived, x.derived)], rfl,
        Outcome.bind_eq_ok_iff.2 ⟨middle, hmiddle, Outcome.bind_eq_ok_iff.2 ⟨mem', h, rfl⟩⟩⟩

theorem solve_invariant {P : Memory α → Prop} {task : SolveTask}
    (hstep : ∀ var ∈ task.solutions, ∀ mem mem', P mem → mem.Refills var mem' → P mem') (hP : P mem)
    (h : m.solve mem task = .ok mem') : P mem' := by
  obtain ⟨solutions, hvars, h⟩ := withSolutions_of_solve h
  refine Except.foldlM_prefix (P := fun _ => P) (fun _ mem entry next hentry hmem hnext => ?_) hP h
  have hvar : entry.1 ∈ task.solutions := hvars ▸ List.mem_map.2 ⟨entry, hentry, rfl⟩
  exact hstep entry.1 hvar mem next hmem (refills_withSolution hnext)

/-! ## Bodies and loops -/

variable {v : Visits}

theorem execAll_cons_eq_ok_iff {s : Stmt α} {rest : List (Stmt α)} :
    m.execAll (s :: rest) mem = .ok mem' ↔
      ∃ next, m.exec s mem = .ok next ∧ m.execAll rest next = .ok mem' := by
  simp only [execAll, Outcome.bind_eq_ok_iff]

theorem exec_loop_eq_ok_iff {header : Loop α} {body : List (Stmt α)} :
    m.exec (.loop header body) mem = .ok mem' ↔ ∃ visits, m.visits mem header = .ok visits ∧
      visits.toList.foldlM (fun mem indices => m.execAll body (mem.withIndices indices)) mem =
        .ok mem' := by
  rw [exec, Outcome.bind_eq_ok_iff]
  simp only [Visits.run_eq_foldlM]

theorem visits_elements_eq_ok_iff {set : SetName} {element : VarName} :
    m.visits mem (.elements set element) = .ok v ↔
      ∃ n, m.resolution.size set = .ok n ∧ v = .below element n := by
  simp only [visits, Outcome.bind_eq_ok_iff, Except.pure_eq_ok_iff]

theorem visits_range_eq_ok_iff {var : VarName} {extent : IndexDomain} :
    m.visits mem (.range var extent) = .ok v ↔
      ∃ n, m.resolution.extent extent = .ok n ∧ v = .below var n := by
  simp only [visits, Outcome.bind_eq_ok_iff, Except.pure_eq_ok_iff]

theorem visits_pattern_eq_ok_iff {ref : PatternRef} {row col position : VarName} :
    m.visits mem (.pattern ref row col position) = .ok v ↔
      ∃ p, m.resolution.pattern ref = .ok p ∧
        v = .ofList (p.entries.map fun (i, j, k) => [(row, i), (col, j), (position, k)]) := by
  simp only [visits, Outcome.bind_eq_ok_iff, Except.pure_eq_ok_iff]

theorem visits_row_eq_ok_iff {ref : PatternRef} {row : Expr α} {col position : VarName} :
    m.visits mem (.row ref row col position) = .ok v ↔
      ∃ p i, m.resolution.pattern ref = .ok p ∧ m.rowOf mem ref p row = .ok i ∧
        v = .ofList ((p.rowEntries i).map fun (_, j, k) => [(col, j), (position, k)]) := by
  simp only [visits, Outcome.bind_eq_ok_iff, Except.pure_eq_ok_iff, exists_and_left]

theorem visits_intersect_eq_ok_iff {left right : PatternRef} {leftRow rightRow : Expr α}
    {col leftPosition rightPosition : VarName} :
    m.visits mem (.intersect left right leftRow rightRow col leftPosition rightPosition) = .ok v ↔
      ∃ l r i j, m.resolution.pattern left = .ok l ∧ m.resolution.pattern right = .ok r ∧
        m.rowOf mem left l leftRow = .ok i ∧ m.rowOf mem right r rightRow = .ok j ∧
        v = .ofList ((intersect (l.row i) (r.row j)).map fun shared =>
          [(col, shared.col), (leftPosition, l.start i + shared.left),
            (rightPosition, r.start j + shared.right)]) := by
  simp only [visits, Outcome.bind_eq_ok_iff, Except.pure_eq_ok_iff, exists_and_left]

end Machine

end GraphTensor
