import GraphTensor.Proofs.Machine.Start
import GraphTensor.Proofs.Machine.Traces
set_option autoImplicit false

/-! # Noted updates

Only a write of a field notes an update: the numbers that the tensor has when the run comes to it
(`Step.noted?`). What a run notes are the updates of the writes in its trace, one after another. -/

namespace GraphTensor

variable {α : Type}

/-- The update that a step notes, if it writes a field. -/
def Step.noted? (step : Step α) : Option (FieldUpdate α) :=
  match step.stmt with
  | .fieldWrite set field var =>
    match step.memory.buffers.get? var with
    | some (.dense block values) => some ⟨set, field, .float block values⟩
    | _ => none
  | _ => none

theorem Memory.updates_withIndices (mem : Memory α) (indices : List (VarName × Nat)) :
    (mem.withIndices indices).updates = mem.updates := by
  unfold Memory.withIndices
  induction indices generalizing mem with
  | nil => rfl
  | cons entry rest ih => exact ih _

namespace Machine

variable [Scalar α] {m : Machine α} {mem mem' : Memory α}

theorem updates_assign {var : VarName} {value : Expr α} {accumulate : Bool}
    (h : m.assign mem var value accumulate = .ok mem') : mem'.updates = mem.updates := by
  cases hbuffer : mem.buffers.get? var with
  | some b => exact (refills_assign hbuffer h).updates_eq
  | none =>
      obtain ⟨v, w, _, rfl, _⟩ := local_of_assign hbuffer h
      rfl

theorem updates_solve {task : SolveTask} (h : m.solve mem task = .ok mem') :
    mem'.updates = mem.updates :=
  solve_invariant (P := fun next => next.updates = mem.updates)
    (fun _ _ _ _ hnext hrefills => hrefills.updates_eq.trans hnext) rfl h

theorem updates_exec_leaf {s : Stmt α} (hs : ∀ header body, s ≠ .loop header body)
    (h : m.exec s mem = .ok mem') :
    mem'.updates = mem.updates ++ [Step.mk s mem].filterMap Step.noted? := by
  cases s with
  | loop header body => exact absurd rfl (hs header body)
  | assign var value =>
      rw [exec] at h
      exact (updates_assign h).trans (List.append_nil _).symm
  | accumulate var value =>
      rw [exec] at h
      exact (updates_assign h).trans (List.append_nil _).symm
  | zero var => exact (refills_execZero h).updates_eq.trans (List.append_nil _).symm
  | store buffer offset value accumulate =>
      exact (refills_execStore h).updates_eq.trans (List.append_nil _).symm
  | sparseStore buffer position value accumulate block =>
      exact (refills_execSparseStore h).updates_eq.trans (List.append_nil _).symm
  | fieldWrite set field value =>
      rw [exec] at h
      obtain ⟨_, n, length, block, values, _, hbuffer, _, _, rfl⟩ := noteUpdate_spec h
      have hnoted : Step.noted? ⟨.fieldWrite set field value, mem⟩ =
          some ⟨set, field, .float block values⟩ := by
        simp only [Step.noted?, hbuffer]
      rw [List.filterMap_cons_some hnoted]
      rfl
  | solve task =>
      rw [exec] at h
      exact (updates_solve h).trans (List.append_nil _).symm
  | tensorWrite tensor indices position value accumulate =>
      rw [exec] at h
      cases h
  | assemble targets set kernel body =>
      rw [exec] at h
      cases h

/-- **What a run notes** are the updates of the field writes that it comes to, in their order. -/
theorem updates_execAll (body : List (Stmt α)) {mem mem' : Memory α}
    (h : m.execAll body mem = .ok mem') :
    mem'.updates = mem.updates ++ (m.traceAll body mem).filterMap Step.noted? := by
  refine (Stmt.induction
    (P := fun s => ∀ mem mem', m.exec s mem = .ok mem' →
      mem'.updates = mem.updates ++ (m.trace s mem).filterMap Step.noted?)
    (Q := fun body => ∀ mem mem', m.execAll body mem = .ok mem' →
      mem'.updates = mem.updates ++ (m.traceAll body mem).filterMap Step.noted?)
    ?leaf ?loop ?nil ?cons).2 body mem mem' h
  case leaf =>
    intro s hs mem mem' h
    rw [trace_of_leaf hs]
    exact updates_exec_leaf hs h
  case loop =>
    intro header body ih mem mem' h
    obtain ⟨visits, hvisits, h⟩ := exec_loop_eq_ok_iff.1 h
    rw [trace, hvisits]
    refine notes_listSteps (f := Memory.updates) (fun indices _ s s' hs => ?_) h
    rw [ih _ s' hs, Memory.updates_withIndices]
  case nil =>
    intro mem mem' h
    rw [execAll] at h
    obtain rfl := Except.ok.inj h
    rw [traceAll]
    exact (List.append_nil _).symm
  case cons =>
    intro s rest ihs ihrest mem mem' h
    rw [execAll] at h
    obtain ⟨next, hs, h⟩ := Outcome.bind_eq_ok_iff.1 h
    rw [ihrest next mem' h, ihs mem next hs, traceAll, hs, List.filterMap_append,
      List.append_assoc]

theorem updates_start {storages : Storages} (h : m.start storages = .ok mem) : mem.updates = [] := by
  obtain ⟨params, hparams, h⟩ := Outcome.bind_eq_ok_iff.1 h
  have hparams : params.updates = [] := by
    refine Except.foldlM_invariant (P := fun mem : Memory α => mem.updates = [])
      (fun mem param next hmem hnext => ?_) rfl hparams
    obtain ⟨_, _, _, rfl⟩ := addParam_spec hnext
    exact hmem
  refine Except.foldlM_invariant (P := fun mem : Memory α => mem.updates = [])
    (fun mem var next hmem hnext => ?_) hparams h
  rcases addBuffer_spec hnext with ⟨_, rfl⟩ | ⟨_, _, _, _, _, _, rfl⟩
  · exact hmem
  · exact hmem

end Machine

end GraphTensor
