import GraphTensor.Proofs.Machine.Frames
import GraphTensor.Proofs.Machine.Updates
set_option autoImplicit false

/-! # Reads during a run

Nothing that a run reads depends on the updates of fields that it has noted: expressions, loop
headers, whole fields and markers are those at entry. For each function of the machine there is a
lemma that lets other notes (`Memory.withNotes`) pass through it. A body therefore comes to the same
buffers and locals with its writes of fields left out (`Stmt.withoutFieldWrites`). -/

namespace GraphTensor

variable {α : Type}

/-! ## Bodies without writes of fields -/

namespace Stmt

mutual

/-- A statement without the writes of fields in it: nothing at all if it is one. -/
def withoutFieldWrites (s : Stmt α) : List (Stmt α) :=
  match s with
  | .assign var value => [.assign var value]
  | .accumulate var value => [.accumulate var value]
  | .tensorWrite tensor indices position value adds =>
    [.tensorWrite tensor indices position value adds]
  | .assemble targets set kernel body =>
    [.assemble targets set kernel (withoutFieldWritesOfList body)]
  | .loop header body => [.loop header (withoutFieldWritesOfList body)]
  | .zero var => [.zero var]
  | .fieldWrite _ _ _ => []
  | .solve task => [.solve task]
  | .store buffer offset value adds => [.store buffer offset value adds]
  | .sparseStore buffer position value adds block =>
    [.sparseStore buffer position value adds block]
termination_by structural s

/-- Statements without the writes of fields among them and in them. -/
def withoutFieldWritesOfList (body : List (Stmt α)) : List (Stmt α) :=
  match body with
  | [] => []
  | s :: rest => s.withoutFieldWrites ++ withoutFieldWritesOfList rest
termination_by structural body

end

end Stmt

/-! ## Memories that differ in their notes -/

namespace Memory

/-- The memory with other updates noted. -/
def withNotes (mem : Memory α) (notes : List (FieldUpdate α)) : Memory α :=
  { mem with updates := notes }

variable {mem mem' : Memory α}

theorem withIndices_withNotes (mem : Memory α) (indices : List (VarName × Nat))
    (notes : List (FieldUpdate α)) :
    (mem.withNotes notes).withIndices indices = (mem.withIndices indices).withNotes notes := by
  unfold withIndices
  induction indices generalizing mem with
  | nil => rfl
  | cons entry rest ih => exact ih (mem.withLocal entry.1 (.ofCount entry.2))

theorem withSolution_withNotes {var : VarName} {solution : Array α}
    (h : mem.withSolution var solution = .ok mem') (notes : List (FieldUpdate α)) :
    (mem.withNotes notes).withSolution var solution = .ok (mem'.withNotes notes) := by
  obtain ⟨block, values, hb, hsize, rfl⟩ := withSolution_eq_ok_iff.1 h
  exact withSolution_eq_ok_iff.2 ⟨block, values, hb, hsize, rfl⟩

end Memory

namespace Machine

variable [Scalar α] {m : Machine α} {mem mem' : Memory α}

theorem eval_withNotes (m : Machine α) (mem : Memory α) (notes : List (FieldUpdate α))
    (e : Expr α) : m.eval (mem.withNotes notes) e = m.eval mem e :=
  eval_congr e fun _ _ => ⟨rfl, rfl⟩

theorem visits_withNotes (m : Machine α) (mem : Memory α) (notes : List (FieldUpdate α))
    (header : Loop α) : m.visits (mem.withNotes notes) header = m.visits mem header := by
  cases header <;> simp only [visits, rowOf, eval_withNotes]

theorem fillers_withNotes (m : Machine α) (mem : Memory α) (notes : List (FieldUpdate α))
    (var : VarName) (value : Expr α) :
    m.fillers (mem.withNotes notes) var value = m.fillers mem var value := by
  simp only [fillers, eval_withNotes]
  rfl

theorem store_withNotes {var : VarName} {offset : Int} {value : BlockValue α} {accumulate : Bool}
    (h : store mem var offset value accumulate = .ok mem') (notes : List (FieldUpdate α)) :
    store (mem.withNotes notes) var offset value accumulate = .ok (mem'.withNotes notes) := by
  obtain ⟨values, b, hb, hstore, rfl⟩ := store_eq_ok_iff.1 h
  exact store_eq_ok_iff.2 ⟨values, b, hb, hstore, rfl⟩

theorem sparseStore_withNotes {var : VarName} {position : Int} {value : BlockValue α}
    {accumulate : Bool} (h : sparseStore mem var position value accumulate = .ok mem')
    (notes : List (FieldUpdate α)) :
    sparseStore (mem.withNotes notes) var position value accumulate =
      .ok (mem'.withNotes notes) := by
  obtain ⟨matrix, b, hb, hstore, rfl⟩ := sparseStore_eq_ok_iff.1 h
  exact sparseStore_eq_ok_iff.2 ⟨matrix, b, hb, hstore, rfl⟩

theorem assign_withNotes {var : VarName} {value : Expr α} {accumulate : Bool}
    (h : m.assign mem var value accumulate = .ok mem') (notes : List (FieldUpdate α)) :
    m.assign (mem.withNotes notes) var value accumulate = .ok (mem'.withNotes notes) := by
  unfold assign at h ⊢
  rw [show (mem.withNotes notes).buffers.get? var = mem.buffers.get? var from rfl]
  cases hbuffer : mem.buffers.get? var with
  | some buffer =>
      rw [hbuffer] at h
      obtain ⟨data, hdata, hsize, rfl⟩ := fill_eq_ok_iff.1 h
      exact fill_eq_ok_iff.2 ⟨data, (fillers_withNotes ..).trans hdata, hsize, rfl⟩
  | none =>
      rw [hbuffer] at h
      obtain ⟨v, w, hv, rfl, hw⟩ := bindLocal_eq_ok_iff.1 h
      exact bindLocal_eq_ok_iff.2 ⟨v, w, (eval_withNotes ..).trans hv, rfl, hw⟩

theorem solve_withNotes {task : SolveTask} (h : m.solve mem task = .ok mem')
    (notes : List (FieldUpdate α)) :
    m.solve (mem.withNotes notes) task = .ok (mem'.withNotes notes) := by
  cases task with
  | direct task =>
      obtain ⟨matrix, rhs, boundary, solution, hmatrix, hrhs, hboundary, hsolution, h⟩ :=
        solve_direct_eq_ok_iff.1 h
      exact solve_direct_eq_ok_iff.2 ⟨matrix, rhs, boundary, solution, hmatrix, hrhs, hboundary,
        hsolution, Memory.withSolution_withNotes h notes⟩
  | schur task =>
      obtain ⟨primary, coupling, derived, rhsPrimary, rhsDerived, solution, middle, hprimary,
        hcoupling, hderived, hrhsPrimary, hrhsDerived, hsolution, hmiddle, h⟩ :=
        solve_schur_eq_ok_iff.1 h
      exact solve_schur_eq_ok_iff.2 ⟨primary, coupling, derived, rhsPrimary, rhsDerived, solution,
        middle.withNotes notes, hprimary, hcoupling, hderived, hrhsPrimary, hrhsDerived, hsolution,
        Memory.withSolution_withNotes hmiddle notes, Memory.withSolution_withNotes h notes⟩

/-- A statement that is no loop does the same whatever is noted, or it writes a field and leaves
    all but the notes as they are. -/
theorem exec_leaf_withNotes {s : Stmt α} (hs : ∀ header body, s ≠ .loop header body)
    (h : m.exec s mem = .ok mem') (notes : List (FieldUpdate α)) :
    m.execAll s.withoutFieldWrites (mem.withNotes notes) = .ok (mem'.withNotes notes) := by
  cases s with
  | loop header body => exact absurd rfl (hs header body)
  | assign var value =>
      rw [exec] at h
      rw [Stmt.withoutFieldWrites, execAll_singleton, exec]
      exact assign_withNotes h notes
  | accumulate var value =>
      rw [exec] at h
      rw [Stmt.withoutFieldWrites, execAll_singleton, exec]
      exact assign_withNotes h notes
  | zero var =>
      rw [Stmt.withoutFieldWrites, execAll_singleton]
      obtain ⟨b, hb, rfl⟩ := exec_zero_eq_ok_iff.1 h
      exact exec_zero_eq_ok_iff.2 ⟨b, hb, rfl⟩
  | store buffer offset value adds =>
      rw [Stmt.withoutFieldWrites, execAll_singleton]
      obtain ⟨o, place, v, block, ho, hplace, hv, hblock, h⟩ := exec_store_eq_ok_iff.1 h
      exact exec_store_eq_ok_iff.2 ⟨o, place, v, block, (eval_withNotes ..).trans ho, hplace,
        (eval_withNotes ..).trans hv, hblock, store_withNotes h notes⟩
  | sparseStore buffer position value adds shape =>
      rw [Stmt.withoutFieldWrites, execAll_singleton]
      obtain ⟨p, place, v, block, hp, hplace, hv, hblock, hshape, h⟩ :=
        exec_sparseStore_eq_ok_iff.1 h
      exact exec_sparseStore_eq_ok_iff.2 ⟨p, place, v, block, (eval_withNotes ..).trans hp, hplace,
        (eval_withNotes ..).trans hv, hblock, hshape, sparseStore_withNotes h notes⟩
  | fieldWrite set field value =>
      rw [exec] at h
      obtain ⟨_, _, _, _, _, _, _, _, _, rfl⟩ := noteUpdate_spec h
      rw [Stmt.withoutFieldWrites, execAll]
      rfl
  | solve task =>
      rw [exec] at h
      rw [Stmt.withoutFieldWrites, execAll_singleton, exec]
      exact solve_withNotes h notes
  | tensorWrite tensor indices position value adds =>
      rw [exec] at h
      cases h
  | assemble targets set kernel body =>
      rw [exec] at h
      cases h

/-- **Writes of fields change nothing that a run reads.** Without them, and whatever is noted, a
    body that succeeds comes to the same buffers and locals. -/
theorem execAll_withoutFieldWrites (body : List (Stmt α)) {mem mem' : Memory α}
    (h : m.execAll body mem = .ok mem') (notes : List (FieldUpdate α)) :
    m.execAll (Stmt.withoutFieldWritesOfList body) (mem.withNotes notes) =
      .ok (mem'.withNotes notes) := by
  refine (Stmt.induction
    (P := fun s => ∀ mem mem', m.exec s mem = .ok mem' →
      m.execAll s.withoutFieldWrites (mem.withNotes notes) = .ok (mem'.withNotes notes))
    (Q := fun body => ∀ mem mem', m.execAll body mem = .ok mem' →
      m.execAll (Stmt.withoutFieldWritesOfList body) (mem.withNotes notes) =
        .ok (mem'.withNotes notes))
    ?leaf ?loop ?nil ?cons).2 body mem mem' h
  case leaf =>
    intro s hs mem mem' h
    exact exec_leaf_withNotes hs h notes
  case loop =>
    intro header body ih mem mem' h
    obtain ⟨visits, hvisits, h⟩ := exec_loop_eq_ok_iff.1 h
    rw [Stmt.withoutFieldWrites, execAll_singleton, exec_loop_eq_ok_iff]
    -- visit by visit, the two runs differ in their notes alone
    suffices hfold : ∀ (list : List (List (VarName × Nat))) (mem : Memory α),
        list.foldlM (fun mem indices => m.execAll body (mem.withIndices indices)) mem =
          .ok mem' →
        list.foldlM (fun mem indices => m.execAll (Stmt.withoutFieldWritesOfList body)
          (mem.withIndices indices)) (mem.withNotes notes) = .ok (mem'.withNotes notes) from
      ⟨visits, (visits_withNotes ..).trans hvisits, hfold _ mem h⟩
    intro list
    induction list with
    | nil =>
        intro mem h
        obtain rfl := Except.ok.inj h
        rfl
    | cons indices rest ihrest =>
        intro mem h
        rw [List.foldlM_cons] at h ⊢
        obtain ⟨next, hnext, h⟩ := Outcome.bind_eq_ok_iff.1 h
        rw [Memory.withIndices_withNotes, ih _ next hnext]
        exact ihrest next h
  case nil =>
    intro mem mem' h
    rw [execAll] at h
    obtain rfl := Except.ok.inj h
    rw [Stmt.withoutFieldWritesOfList, execAll]
  case cons =>
    intro s rest ihs ihrest mem mem' h
    rw [execAll] at h
    obtain ⟨next, hs, h⟩ := Outcome.bind_eq_ok_iff.1 h
    rw [Stmt.withoutFieldWritesOfList, execAll_append_eq_ok]
    exact ⟨next.withNotes notes, ihs mem next hs, ihrest next mem' h⟩

theorem updates_of_withoutFieldWrites {body : List (Stmt α)}
    (hbody : Stmt.withoutFieldWritesOfList body = body) {mem mem' : Memory α}
    (h : m.execAll body mem = .ok mem') : mem'.updates = mem.updates := by
  have hsame := execAll_withoutFieldWrites body h mem.updates
  rw [hbody] at hsame
  have hnotes : mem' = mem'.withNotes mem.updates := Except.ok.inj (h.symm.trans hsame)
  rw [hnotes]
  rfl

end Machine

end GraphTensor
