import GraphTensor.Proofs.Machine.Traces
set_option autoImplicit false

/-! # Memories that a run comes through

A run comes through the memory that it starts in, through those after each of its statements, and
through those of a loop's body at every visit (`Machine.Reaches`). A run that fails has come through
the memories before its failure. What the indices of loops and the other statements keep
(`Machine.Keeps`) holds of all of these. -/

namespace GraphTensor

namespace Machine

variable {α : Type} [Scalar α] {m : Machine α} {body : List (Stmt α)} {mem mem' : Memory α}

/-- A run of statements comes through a memory. -/
inductive Reaches (m : Machine α) : List (Stmt α) → Memory α → Memory α → Prop where
  /-- It starts there. -/
  | here {body : List (Stmt α)} {mem : Memory α} : Reaches m body mem mem
  /-- The statements after the first one come through it. -/
  | next {s : Stmt α} {rest : List (Stmt α)} {mem middle mem' : Memory α}
      (hs : m.exec s mem = .ok middle) (hrest : Reaches m rest middle mem') :
      Reaches m (s :: rest) mem mem'
  /-- The body of a loop comes through it at a visit that follows other visits. -/
  | visit {header : Loop α} {body rest : List (Stmt α)} {mem middle mem' : Memory α}
      {visits : Visits} {done later : List (List (VarName × Nat))}
      {indices : List (VarName × Nat)} (hvisits : m.visits mem header = .ok visits)
      (hlist : visits.toList = done ++ indices :: later)
      (hdone : done.foldlM (fun mem indices => m.execAll body (mem.withIndices indices)) mem =
        .ok middle)
      (hbody : Reaches m body (middle.withIndices indices) mem') :
      Reaches m (.loop header body :: rest) mem mem'

theorem reaches_execAll (h : m.execAll body mem = .ok mem') : m.Reaches body mem mem' := by
  induction body generalizing mem with
  | nil =>
      rw [execAll] at h
      cases h
      exact .here
  | cons s rest ih =>
      rw [execAll] at h
      obtain ⟨middle, hs, h⟩ := Outcome.bind_eq_ok_iff.1 h
      exact .next hs (ih h)

/-! ## Invariants -/

/-- What keeps a property of memories: binding an index, and every statement but the loops. -/
structure Keeps (m : Machine α) (body : List (Stmt α)) (P : Memory α → Prop) : Prop where
  /-- An index is bound. -/
  index : ∀ mem var n, P mem → P (mem.withLocal var (.ofCount n))
  /-- A statement succeeds. -/
  leaf : ∀ s ∈ Stmt.substmtsOfList body, (∀ header body, s ≠ .loop header body) →
    ∀ mem mem', P mem → m.exec s mem = .ok mem' → P mem'

namespace Keeps

variable {P : Memory α → Prop}

theorem mono {body' : List (Stmt α)} (h : m.Keeps body P)
    (hsub : Stmt.substmtsOfList body' ⊆ Stmt.substmtsOfList body) : m.Keeps body' P :=
  ⟨h.index, fun s hs => h.leaf s (hsub hs)⟩

theorem rest {s : Stmt α} {rest : List (Stmt α)} (h : m.Keeps (s :: rest) P) : m.Keeps rest P := by
  refine h.mono ?_
  rw [Stmt.substmtsOfList]
  exact List.subset_append_right ..

theorem ofLoop {header : Loop α} {rest : List (Stmt α)} (h : m.Keeps (.loop header body :: rest) P) :
    m.Keeps body P := by
  refine h.mono ?_
  rw [Stmt.substmtsOfList, Stmt.substmts]
  exact List.Subset.trans (List.subset_cons_self ..) (List.subset_append_left ..)

theorem withIndices (h : m.Keeps body P) (hmem : P mem) (indices : List (VarName × Nat)) :
    P (mem.withIndices indices) := by
  induction indices generalizing mem with
  | nil => exact hmem
  | cons entry rest ih => exact ih (h.index _ _ _ hmem)

/-- A run keeps what its statements keep. -/
theorem execAll (body : List (Stmt α)) (h : m.Keeps body P) {mem mem' : Memory α} (hmem : P mem)
    (hrun : m.execAll body mem = .ok mem') : P mem' := by
  refine (Stmt.induction
    (P := fun s => ∀ rest, m.Keeps (s :: rest) P → ∀ mem mem', P mem →
      m.exec s mem = .ok mem' → P mem')
    (Q := fun body => m.Keeps body P → ∀ mem mem', P mem → m.execAll body mem = .ok mem' → P mem')
    ?leaf ?loop ?nil ?cons).2 body h mem mem' hmem hrun
  case leaf =>
    intro s hs rest h
    refine h.leaf s ?_ hs
    rw [Stmt.substmtsOfList]
    exact List.mem_append_left _ (by cases s <;> exact List.mem_cons_self ..)
  case loop =>
    intro header body ih rest h mem mem' hmem hrun
    obtain ⟨visits, _, hrun⟩ := exec_loop_eq_ok_iff.1 hrun
    exact Except.foldlM_invariant
      (fun s indices s' hs hstep => ih h.ofLoop _ _ (h.withIndices hs indices) hstep) hmem hrun
  case nil =>
    intro _ mem mem' hmem hrun
    rw [Machine.execAll] at hrun
    cases hrun
    exact hmem
  case cons =>
    intro s rest ihs ihrest h mem mem' hmem hrun
    obtain ⟨middle, hs, hrun⟩ := execAll_cons_eq_ok_iff.1 hrun
    exact ihrest h.rest middle mem' (ihs rest h mem middle hmem hs) hrun

/-- **Invariants of a run.** What the statements keep holds of every memory that a run comes
    through. -/
theorem reaches (h : m.Keeps body P) (hmem : P mem) (hreach : m.Reaches body mem mem') :
    P mem' := by
  induction hreach with
  | here => exact hmem
  | @next s rest mem middle mem' hs _ ih =>
      -- the first statement runs as a body of its own
      have hmiddle : P middle := by
        refine Keeps.execAll [s] ⟨h.index, fun t ht => h.leaf t ?_⟩ hmem
          ((execAll_singleton s mem).trans hs)
        rw [Stmt.substmtsOfList, Stmt.substmtsOfList, List.append_nil] at ht
        rw [Stmt.substmtsOfList]
        exact List.mem_append_left _ ht
      exact ih h.rest hmiddle
  | visit _ _ hdone _ ih =>
      -- every visit before this one has run the whole body
      have hmiddle := Except.foldlM_invariant
        (fun s indices s' hs hstep => h.ofLoop.execAll _ (h.withIndices hs indices) hstep) hmem hdone
      exact ih h.ofLoop (h.withIndices hmiddle _)

end Keeps

end Machine

end GraphTensor
