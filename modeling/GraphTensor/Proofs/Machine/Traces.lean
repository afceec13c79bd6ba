import GraphTensor.Proofs.Machine.Changes
set_option autoImplicit false

/-! # Traces

A run comes to one statement after another. Its trace (`Machine.traceAll`) lists them, each with the
memory in which the run comes to it: a loop stands before what its body comes to, visit after visit,
and nothing stands after a statement that fails. Every statement of a trace is one of the statements
that are run, and its memory is one that these can lead to.

Listing while stepping is one scheme for bodies and for the visits of a loop (`listSteps`), and what
is known of it is shown once for both. -/

namespace GraphTensor

variable {α : Type}

/-- Induction over statements and lists of statements in which only loops have parts. -/
theorem Stmt.induction {P : Stmt α → Prop} {Q : List (Stmt α) → Prop}
    (leaf : ∀ s, (∀ header body, s ≠ .loop header body) → P s)
    (loop : ∀ header body, Q body → P (.loop header body))
    (nil : Q []) (cons : ∀ s rest, P s → Q rest → Q (s :: rest)) :
    (∀ s, P s) ∧ ∀ body, Q body := by
  have hstmt : ∀ s, P s := fun s =>
    @Stmt.rec α P Q (fun _ _ => leaf _ nofun) (fun _ _ => leaf _ nofun)
      (fun _ _ _ _ _ => leaf _ nofun) (fun _ _ _ _ _ => leaf _ nofun) loop (fun _ => leaf _ nofun)
      (fun _ _ _ => leaf _ nofun) (fun _ => leaf _ nofun) (fun _ _ _ _ => leaf _ nofun)
      (fun _ _ _ _ _ => leaf _ nofun) nil cons s
  refine ⟨hstmt, fun body => ?_⟩
  induction body with
  | nil => exact nil
  | cons s rest ih => exact cons s rest (hstmt s) ih

/-! ## Listing while stepping -/

section

variable {ε ι σ τ : Type} {step : ι → σ → Outcome ε σ} {list : ι → σ → List τ}

/-- What is listed while a step is taken for one item after another, up to the first that fails. -/
def listSteps (step : ι → σ → Outcome ε σ) (list : ι → σ → List τ) : List ι → σ → List τ
  | [], _ => []
  | i :: rest, state =>
    list i state ++
      match step i state with
      | .ok next => listSteps step list rest next
      | .error _ => []

theorem exists_of_mem_listSteps {P : σ → Prop} {items : List ι} {state : σ}
    (hstep : ∀ i ∈ items, ∀ s s', P s → step i s = .ok s' → P s') (hP : P state) {t : τ}
    (ht : t ∈ listSteps step list items state) : ∃ i ∈ items, ∃ s, P s ∧ t ∈ list i s := by
  induction items generalizing state with
  | nil => cases ht
  | cons i rest ih =>
      rcases List.mem_append.1 ht with hfirst | hrest
      · exact ⟨i, List.mem_cons_self .., state, hP, hfirst⟩
      · cases hi : step i state with
        | error fault =>
            rw [hi] at hrest
            cases hrest
        | ok next =>
            rw [hi] at hrest
            have hnext := hstep i (List.mem_cons_self ..) state next hP hi
            obtain ⟨j, hj, s, hs⟩ :=
              ih (fun j hj => hstep j (List.mem_cons_of_mem _ hj)) hnext hrest
            exact ⟨j, List.mem_cons_of_mem _ hj, s, hs⟩

theorem exists_ok_of_mem_listSteps {items : List ι} {state final : σ}
    (h : items.foldlM (fun s i => step i s) state = .ok final) {t : τ}
    (ht : t ∈ listSteps step list items state) :
    ∃ i s s', step i s = .ok s' ∧ t ∈ list i s := by
  induction items generalizing state with
  | nil => cases ht
  | cons i rest ih =>
      rw [List.foldlM_cons] at h
      obtain ⟨next, hi, h⟩ := Outcome.bind_eq_ok_iff.1 h
      rcases List.mem_append.1 ht with hfirst | hrest
      · exact ⟨i, state, next, hi, hfirst⟩
      · rw [hi] at hrest
        exact ih h hrest

/-- Notes that each step appends by what it lists are appended by all steps by what they list. -/
theorem notes_listSteps {υ : Type} {f : σ → List υ} {note? : τ → Option υ} {items : List ι}
    (hstep : ∀ i ∈ items, ∀ s s', step i s = .ok s' →
      f s' = f s ++ (list i s).filterMap note?) {state final : σ}
    (h : items.foldlM (fun s i => step i s) state = .ok final) :
    f final = f state ++ (listSteps step list items state).filterMap note? := by
  induction items generalizing state with
  | nil =>
      obtain rfl := Except.ok.inj h
      exact (List.append_nil _).symm
  | cons i rest ih =>
      rw [List.foldlM_cons] at h
      obtain ⟨next, hi, h⟩ := Outcome.bind_eq_ok_iff.1 h
      rw [ih (fun j hj => hstep j (List.mem_cons_of_mem _ hj)) h,
        hstep i (List.mem_cons_self ..) state next hi, listSteps, hi, List.filterMap_append,
        List.append_assoc]

end

/-! ## The trace of a run -/

/-- A statement that a run comes to, and the memory in which it does. -/
structure Step (α : Type) where
  /-- The statement. -/
  stmt : Stmt α
  /-- The memory before it. -/
  memory : Memory α

namespace Machine

variable [Scalar α]

mutual

/-- What a run comes to in a statement. -/
def trace (m : Machine α) (s : Stmt α) (mem : Memory α) : List (Step α) :=
  ⟨s, mem⟩ ::
    match s with
    | .loop header body =>
      match m.visits mem header with
      | .ok visits =>
        listSteps (fun indices mem => m.execAll body (mem.withIndices indices))
          (fun indices mem => m.traceAll body (mem.withIndices indices)) visits.toList mem
      | .error _ => []
    | .assign _ _ => []
    | .accumulate _ _ => []
    | .tensorWrite _ _ _ _ _ => []
    | .assemble _ _ _ _ => []
    | .zero _ => []
    | .fieldWrite _ _ _ => []
    | .solve _ => []
    | .store _ _ _ _ => []
    | .sparseStore _ _ _ _ _ => []
termination_by structural s

/-- What a run comes to in statements that are run one after another. -/
def traceAll (m : Machine α) (body : List (Stmt α)) (mem : Memory α) : List (Step α) :=
  match body with
  | [] => []
  | s :: rest =>
    m.trace s mem ++
      match m.exec s mem with
      | .ok next => m.traceAll rest next
      | .error _ => []
termination_by structural body

end

variable {m : Machine α} {mem mem' : Memory α}

theorem trace_of_leaf {s : Stmt α} (hs : ∀ header body, s ≠ .loop header body) (mem : Memory α) :
    m.trace s mem = [⟨s, mem⟩] := by
  cases s with
  | loop header body => exact absurd rfl (hs header body)
  | _ => rw [trace]

theorem mem_trace_loop {header : Loop α} {body : List (Stmt α)} {step : Step α} :
    step ∈ m.trace (.loop header body) mem ↔ step = ⟨.loop header body, mem⟩ ∨
      ∃ visits, m.visits mem header = .ok visits ∧
        step ∈ listSteps (fun indices mem => m.execAll body (mem.withIndices indices))
          (fun indices mem => m.traceAll body (mem.withIndices indices)) visits.toList mem := by
  rw [trace, List.mem_cons]
  cases m.visits mem header with
  | error fault => simp
  | ok visits => simp

/-- **The steps of a run** run statements of what is run, in memories that it can lead to. -/
theorem mem_traceAll (body : List (Stmt α)) {mem : Memory α} {step : Step α}
    (h : step ∈ m.traceAll body mem) :
    step.stmt ∈ Stmt.substmtsOfList body ∧
      mem.Changes (Stmt.writesOfList body) (Stmt.bindsOfList body) step.memory := by
  refine (Stmt.induction
    (P := fun s => ∀ mem, step ∈ m.trace s mem →
      step.stmt ∈ s.substmts ∧ mem.Changes s.writes s.binds step.memory)
    (Q := fun body => ∀ mem, step ∈ m.traceAll body mem →
      step.stmt ∈ Stmt.substmtsOfList body ∧
        mem.Changes (Stmt.writesOfList body) (Stmt.bindsOfList body) step.memory)
    ?leaf ?loop ?nil ?cons).2 body mem h
  case leaf =>
    intro s hs mem h
    rw [trace_of_leaf hs, List.mem_singleton] at h
    subst h
    exact ⟨by cases s <;> exact List.mem_cons_self .., .refl⟩
  case loop =>
    intro header body ih mem h
    rcases mem_trace_loop.1 h with rfl | ⟨visits, hvisits, h⟩
    · exact ⟨List.mem_cons_self .., .refl⟩
    -- the visits before this one change what the loop may change
    · have hbind : ∀ indices ∈ visits.toList, ∀ s : Memory α,
          s.Changes (Stmt.writesOfList body) (header.binders ++ Stmt.bindsOfList body)
            (s.withIndices indices) := fun indices hindices s =>
        (changes_withIndices indices (binders_of_visits hvisits hindices)).mono
          (List.nil_subset _) (List.subset_append_left ..)
      obtain ⟨indices, hindices, s, hs, hstep⟩ := exists_of_mem_listSteps
        (P := fun s => mem.Changes (Stmt.loop header body).writes (Stmt.loop header body).binds s)
        (fun indices hindices s s' hs hstep => hs.trans ((hbind indices hindices s).trans
          ((changes_execAll body hstep).mono (List.Subset.refl _)
            (List.subset_append_right ..)))) .refl h
      obtain ⟨hmem, hchanges⟩ := ih _ hstep
      exact ⟨List.mem_cons_of_mem _ hmem, hs.trans ((hbind indices hindices s).trans
        (hchanges.mono (List.Subset.refl _) (List.subset_append_right ..)))⟩
  case nil =>
    intro mem h
    rw [traceAll] at h
    cases h
  case cons =>
    intro s rest ihs ihrest mem h
    rw [traceAll] at h
    rw [Stmt.substmtsOfList, Stmt.writesOfList, Stmt.bindsOfList]
    rcases List.mem_append.1 h with h | h
    · obtain ⟨hmem, hchanges⟩ := ihs mem h
      exact ⟨List.mem_append_left _ hmem,
        hchanges.mono (List.subset_append_left ..) (List.subset_append_left ..)⟩
    · cases hs : m.exec s mem with
      | error fault =>
          rw [hs] at h
          cases h
      | ok next =>
          rw [hs] at h
          obtain ⟨hmem, hchanges⟩ := ihrest next h
          exact ⟨List.mem_append_right _ hmem,
            ((changes_exec s hs).mono (List.subset_append_left ..)
              (List.subset_append_left ..)).trans
            (hchanges.mono (List.subset_append_right ..) (List.subset_append_right ..))⟩

theorem exists_exec_of_mem_traceAll (body : List (Stmt α)) {mem mem' : Memory α} {step : Step α}
    (h : m.execAll body mem = .ok mem') (hstep : step ∈ m.traceAll body mem) :
    ∃ next, m.exec step.stmt step.memory = .ok next := by
  refine (Stmt.induction
    (P := fun s => ∀ mem mem', m.exec s mem = .ok mem' → step ∈ m.trace s mem →
      ∃ next, m.exec step.stmt step.memory = .ok next)
    (Q := fun body => ∀ mem mem', m.execAll body mem = .ok mem' → step ∈ m.traceAll body mem →
      ∃ next, m.exec step.stmt step.memory = .ok next)
    ?leaf ?loop ?nil ?cons).2 body mem mem' h hstep
  case leaf =>
    intro s hs mem mem' h hstep
    rw [trace_of_leaf hs, List.mem_singleton] at hstep
    subst hstep
    exact ⟨mem', h⟩
  case loop =>
    intro header body ih mem mem' h hstep
    rcases mem_trace_loop.1 hstep with rfl | ⟨visits, hvisits, hstep⟩
    · exact ⟨mem', h⟩
    · obtain ⟨visits', hvisits', h⟩ := exec_loop_eq_ok_iff.1 h
      obtain rfl := Except.ok.inj (hvisits.symm.trans hvisits')
      obtain ⟨indices, s, s', hok, hmem⟩ := exists_ok_of_mem_listSteps h hstep
      exact ih _ s' hok hmem
  case nil =>
    intro mem mem' _ hstep
    rw [traceAll] at hstep
    cases hstep
  case cons =>
    intro s rest ihs ihrest mem mem' h hstep
    rw [execAll] at h
    obtain ⟨next, hs, h⟩ := Outcome.bind_eq_ok_iff.1 h
    rw [traceAll, hs] at hstep
    rcases List.mem_append.1 hstep with hstep | hstep
    · exact ihs mem next hs hstep
    · exact ihrest next mem' h hstep

end Machine

end GraphTensor
