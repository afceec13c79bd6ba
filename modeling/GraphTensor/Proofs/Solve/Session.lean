import GraphTensor.Proofs.Solve.Pinned
set_option autoImplicit false

/-! # Sessions as state machines

A session can be called in any order and with any boundary (`SessionCall`, `SolveSession.call`).
What keeps it sound is an invariant that ties the phase to what is stored
(`SolveSession.Consistent`): from the boundary on there is a reduced system over the free
unknowns, and once it is factorized there are factors of its size, unless nothing is free. The
fallbacks for a missing reduced system and for missing factors are therefore never taken where
they could do harm.

There is one lemma for each call in its phase and one for all calls out of order, so that each
call keeps the invariant (`SolveSession.Consistent.call`); lists of calls follow by induction
(`SolveSession.after`). `SolveSession.Sound` is what a caller may rely on and follows from the
invariant, and the phases can only move on (`SolvePhase.Moves`), which leaves one solution at
most. -/

namespace GraphTensor

variable {α : Type}

/-! ## Calls -/

/-- A call on a session. -/
inductive SessionCall (α : Type) where
  /-- Eliminates the fixed unknowns. -/
  | applyBoundary (partition : Partition) (values : Array α)
  /-- Factorizes the reduced system. -/
  | factorize
  /-- Solves the factorized system. -/
  | solve
deriving Repr

/-- The phase that a call needs. -/
def SessionCall.needs : SessionCall α → SolvePhase
  | applyBoundary _ _ => .assembled
  | factorize => .boundaryApplied
  | solve => .factorized

/-- The steps from phase to phase. -/
inductive SolvePhase.Moves : SolvePhase → SolvePhase → Prop where
  /-- A boundary has been applied. -/
  | apply : Moves .assembled .boundaryApplied
  /-- The reduced system has been factorized. -/
  | factorize : Moves .boundaryApplied .factorized
  /-- The reduced system could not be factorized. -/
  | fail : Moves .boundaryApplied .failed
  /-- The solution has been given out. -/
  | solve : Moves .factorized .solved

namespace SolveSession

variable [Scalar α]

/-- A session after a call, and what the call gives out: a solution if it is a solve. A call that
    is refused or fails on its operands leaves the session as it was. -/
def call (s : SolveSession α) : SessionCall α → SolveSession α × Solved (Option (Array α))
  | .applyBoundary partition values =>
    match s.applyBoundary partition values with
    | .ok s => (s, .ok none)
    | .error fault => (s, .error fault)
  | .factorize => (s.factorize.1, s.factorize.2.map fun _ => none)
  | .solve =>
    match s.solve with
    | .ok (s, x) => (s, .ok (some x))
    | .error fault => (s, .error fault)

/-- A session after a sequence of calls. -/
def after (s : SolveSession α) (calls : List (SessionCall α)) : SolveSession α :=
  calls.foldl (fun s c => (s.call c).1) s

/-- The solutions that a sequence of calls gives out. -/
def solutions (s : SolveSession α) : List (SessionCall α) → List (Array α)
  | [] => []
  | c :: rest =>
    match (s.call c).2 with
    | .ok (some x) => x :: solutions (s.call c).1 rest
    | _ => solutions (s.call c).1 rest

/-- What holds of a session over `n` unknowns, whatever has been called before. -/
structure Sound (n : Nat) (s : SolveSession α) : Prop where
  /-- A call leaves the phase or takes one of the four steps. -/
  moves : ∀ c, (s.call c).1.phase = s.phase ∨ s.phase.Moves (s.call c).1.phase
  /-- A call that needs another phase is refused with both phases and changes nothing. -/
  refuses : ∀ c, s.phase ≠ c.needs →
    s.call c = (s, Outcome.fail (.phaseViolation c.needs s.phase))
  /-- Nothing can be called after the end. -/
  ends : s.phase = .failed ∨ s.phase = .solved →
    ∀ c, s.call c = (s, Outcome.fail (.phaseViolation c.needs s.phase))
  /-- A boundary that fits is applied. -/
  applies : s.phase = .assembled → ∀ p values, p.size = n → values.size = n →
    (s.call (.applyBoundary p values)).2 = .ok none ∧
      (s.call (.applyBoundary p values)).1.phase = .boundaryApplied
  /-- A boundary that does not fit changes nothing. -/
  misfits : s.phase = .assembled → ∀ p values, p.size ≠ n ∨ values.size ≠ n →
    ∃ extent expected found, s.call (.applyBoundary p values) =
      (s, Outcome.fail (.dimensionMismatch extent expected found))
  /-- A factorization succeeds, or ends the session with the defect of the matrix. -/
  factorizes : s.phase = .boundaryApplied →
    (s.call .factorize).2 = .ok none ∧ (s.call .factorize).1.phase = .factorized ∨
    (s.call .factorize).1.phase = .failed ∧
      ((∃ detail, (s.call .factorize).2 = Outcome.fail (.singular detail)) ∨
        ∃ detail, (s.call .factorize).2 = Outcome.fail (.notPositiveDefinite detail))
  /-- A solve gives out a value for each unknown, unless it divides by a zero pivot. -/
  solves : s.phase = .factorized →
    (∃ x, (s.call .solve).2 = .ok (some x) ∧ x.size = n ∧ (s.call .solve).1.phase = .solved) ∨
    s.call .solve = (s, Outcome.fail (.singular .solveFailed))
  /-- No sizes disagree in a solve. -/
  agrees : ∀ extent expected found,
    (s.call .solve).2 ≠ Outcome.fail (.dimensionMismatch extent expected found)
  /-- From the boundary on there is a reduced system with a row for each free unknown. -/
  reduced : s.phase ≠ .assembled → s.partition.size = n ∧
    ∃ matrix rhs, s.reduced = some (matrix, rhs) ∧ matrix.rows = s.partition.free.length ∧
      matrix.cols = s.partition.free.length ∧ rhs.size = s.partition.free.length
  /-- A factorized session has factors just if some unknown is free. -/
  factors : s.phase = .factorized → (s.factors.isSome ↔ s.partition.free ≠ [])

end SolveSession

/-! ## Sizes -/

section

variable [Scalar α]

theorem BlockMatrix.dims_addBlock (m : BlockMatrix α) (dense : DenseMatrix α)
    (entry : Nat × Nat × Nat) :
    (m.addBlock dense entry).rows = dense.rows ∧ (m.addBlock dense entry).cols = dense.cols := by
  unfold addBlock
  refine List.foldlRecOn (motive := fun d : DenseMatrix α =>
    d.rows = dense.rows ∧ d.cols = dense.cols) _ _ ⟨rfl, rfl⟩ fun d hd a _ => ?_
  exact List.foldlRecOn (motive := fun d : DenseMatrix α =>
    d.rows = dense.rows ∧ d.cols = dense.cols) _ _ hd fun d hd b _ => hd

theorem BlockMatrix.dims_of_toDense? {m : BlockMatrix α} {dense : DenseMatrix α}
    (h : m.toDense? = some dense) :
    m.scalarRows? = some dense.rows ∧ m.scalarCols? = some dense.cols := by
  obtain ⟨rows, hrows, h⟩ := Option.bind_eq_some_iff.1 h
  obtain ⟨cols, hcols, h⟩ := Option.bind_eq_some_iff.1 h
  obtain ⟨_, _, h⟩ := Option.bind_eq_some_iff.1 h
  obtain rfl := Option.some.inj h
  have hdims := List.foldlRecOn (motive := fun d : DenseMatrix α => d.rows = rows ∧ d.cols = cols)
    m.pattern.entries m.addBlock (b := DenseMatrix.zeros rows cols) ⟨rfl, rfl⟩
    fun d hd entry _ => ⟨(m.dims_addBlock d entry).1.trans hd.1, (m.dims_addBlock d entry).2.trans hd.2⟩
  exact ⟨hdims.1.symm ▸ hrows, hdims.2.symm ▸ hcols⟩

namespace Partition

variable {p : Partition} {matrix : DenseMatrix α} {rhs values : Array α} {n : Nat}

/-- A reduced system has a row, a column and a right-hand side for each free unknown. -/
theorem dims_of_reduce {reduced : DenseMatrix α} {moved : Array α}
    (h : p.reduce matrix rhs values = .ok (reduced, moved)) :
    reduced.rows = p.free.length ∧ reduced.cols = p.free.length ∧
      moved.size = p.free.length := by
  obtain ⟨⟨⟩, _, h⟩ := Outcome.bind_eq_ok_iff.1 h
  obtain ⟨⟨⟩, _, h⟩ := Outcome.bind_eq_ok_iff.1 h
  obtain ⟨⟨⟩, _, h⟩ := Outcome.bind_eq_ok_iff.1 h
  obtain ⟨⟨⟩, _, h⟩ := Outcome.bind_eq_ok_iff.1 h
  obtain ⟨rfl, rfl⟩ := Prod.mk.inj (Except.ok.inj h)
  refine ⟨by simp [DenseMatrix.select, DenseMatrix.ofFn],
    by simp [DenseMatrix.select, DenseMatrix.ofFn], ?_⟩
  split <;> simp [pick, subVec, DenseMatrix.mulVec, DenseMatrix.select, DenseMatrix.ofFn]

theorem reduce_of_sizes (hrows : matrix.rows = n) (hcols : matrix.cols = n) (hrhs : rhs.size = n)
    (hp : p.size = n) (hvalues : values.size = n) :
    ∃ reduced, p.reduce matrix rhs values = .ok reduced := by
  simp only [reduce, Solved.expectSize, hp, hrows, hcols, hrhs, hvalues, if_true]
  exact ⟨_, rfl⟩

theorem reduce_of_misfit (hrows : matrix.rows = n) (hcols : matrix.cols = n) (hrhs : rhs.size = n)
    (h : p.size ≠ n ∨ values.size ≠ n) :
    ∃ extent expected found, p.reduce matrix rhs values =
      Outcome.fail (.dimensionMismatch extent expected found) := by
  by_cases hp : p.size = n
  · have hvalues : n ≠ values.size := Ne.symm (h.resolve_left (not_not_intro hp))
    refine ⟨.boundaryValues, n, values.size, ?_⟩
    simp only [reduce, Solved.expectSize, hp, hrows, hcols, hrhs, hvalues, if_true, if_false]
    rfl
  · refine ⟨.boundaryRows, p.size, n, ?_⟩
    simp only [reduce, Solved.expectSize, hrows, hp, if_false]
    rfl

theorem scatter_of_sizes {freeValues : Array α} (hfree : freeValues.size = p.free.length)
    (hvalues : values.size = p.size) :
    ∃ x, p.scatter freeValues values = .ok x ∧ x.size = p.size := by
  simp only [scatter, Solved.expectSize, hfree, hvalues, if_true]
  exact ⟨_, rfl, by rw [size_place, size_place, Array.size_replicate]⟩

end Partition

/-- A square matrix is factorized, or has a defect that is told. -/
theorem DenseMatrix.factorize_of_square {m : DenseMatrix α} (h : m.cols = m.rows)
    (config : SolverConfig α) :
    (∃ factors, m.factorize config = .ok factors) ∨
    (∃ detail, m.factorize config = Outcome.fail (.singular detail)) ∨
    ∃ detail, m.factorize config = Outcome.fail (.notPositiveDefinite detail) := by
  have hsquare : Solved.expectSize .factorizedColumns m.rows m.cols = .ok () :=
    Solved.expectSize_eq_ok_iff.2 h.symm
  rw [factorize, hsquare]
  cases m.structuralZero? with
  | some zero => exact .inr (.inl ⟨zero, rfl⟩)
  | none =>
      dsimp only
      cases config.method with
      | lu =>
          dsimp only [checkPivots]
          split
          · exact .inr (.inl ⟨_, rfl⟩)
          · exact .inl ⟨_, rfl⟩
      | cholesky =>
          dsimp only
          split
          · exact .inr (.inr ⟨_, rfl⟩)
          · split
            · exact .inl ⟨_, rfl⟩
            · exact .inr (.inr ⟨_, rfl⟩)

/-- Factors give a solution for a right-hand side of their size, unless a pivot is zero. -/
theorem Factors.solve_of_size {f : Factors α} {rhs : Array α} (h : rhs.size = f.dim) :
    (∃ x, f.solve rhs = .ok x ∧ x.size = f.dim) ∨
      f.solve rhs = Outcome.fail (.singular .solveFailed) := by
  have hsolve : f.solve rhs = f.apply rhs.toList := by
    rw [solve, Solved.expectSize_eq_ok_iff.2 h.symm]
    rfl
  cases f with
  | cholesky steps => exact .inl ⟨_, hsolve, length_solveSymmetric ..⟩
  | lu steps =>
      rw [hsolve, apply]
      cases hsteps : solveSteps steps rhs.toList with
      | none => exact .inr rfl
      | some x => exact .inl ⟨x.toArray, rfl, length_solveSteps hsteps⟩

end

/-! ## The invariant -/

namespace SolveSession

variable {n : Nat} {s : SolveSession α}

theorem expect_of_phase {phase : SolvePhase} (h : s.phase = phase) : s.expect phase = .ok () :=
  if_pos h

theorem expect_of_ne {phase : SolvePhase} (h : s.phase ≠ phase) :
    s.expect phase = Outcome.fail (.phaseViolation phase s.phase) :=
  if_neg h

variable [Scalar α]

/-- What is stored fits the phase. -/
structure Consistent (n : Nat) (s : SolveSession α) : Prop where
  /-- The matrix has a row for each unknown. -/
  rows : s.matrix.rows = n
  /-- It has a column for each unknown. -/
  cols : s.matrix.cols = n
  /-- So has the right-hand side. -/
  rhs : s.rhs.size = n
  /-- From the boundary on there are values for all unknowns and a system over the free ones. -/
  reduced : s.phase ≠ .assembled → s.partition.size = n ∧ s.values.size = n ∧
    ∃ matrix rhs, s.reduced = some (matrix, rhs) ∧ matrix.rows = s.partition.free.length ∧
      matrix.cols = s.partition.free.length ∧ rhs.size = s.partition.free.length
  /-- A factorized system without factors has no free unknowns. -/
  unfactored : s.phase = .factorized → s.factors = none → s.partition.free = []
  /-- The factors of a factorized system have its size, and it has free unknowns. -/
  factors : s.phase = .factorized → ∀ factors, s.factors = some factors →
    factors.dim = s.partition.free.length ∧ s.partition.free ≠ []

theorem consistent_start {matrix : BlockMatrix α} {rhs : Array α} {config : SolverConfig α}
    (h : start matrix rhs config = .ok s) : s.Consistent rhs.size ∧ s.phase = .assembled := by
  obtain ⟨hn, hn', dense, p, hdense, _, rfl⟩ := start_eq_ok h
  obtain ⟨hrows', hcols'⟩ := BlockMatrix.dims_of_toDense? hdense
  have hrows : dense.rows = rhs.size := Option.some.inj (hrows'.symm.trans hn)
  have hcols : dense.cols = rhs.size := Option.some.inj (hcols'.symm.trans hn')
  exact ⟨⟨hrows, hcols, rfl, fun h => absurd rfl h, nofun, nofun⟩, rfl⟩

/-! ## Calls in their phase -/

/-- A call out of order is refused and changes nothing. -/
theorem call_of_ne {c : SessionCall α} (h : s.phase ≠ c.needs) :
    s.call c = (s, Outcome.fail (.phaseViolation c.needs s.phase)) := by
  have hexpect := expect_of_ne h
  cases c with
  | applyBoundary p values =>
      simp only [SessionCall.needs] at hexpect
      simp only [call, applyBoundary, hexpect]
      rfl
  | factorize =>
      simp only [SessionCall.needs] at hexpect
      simp only [call, factorize, hexpect]
      rfl
  | solve =>
      simp only [SessionCall.needs] at hexpect
      simp only [call, solve, hexpect]
      rfl

theorem call_applyBoundary_of_sizes (h : s.Consistent n) (hphase : s.phase = .assembled)
    {p : Partition} {values : Array α} (hp : p.size = n) (hvalues : values.size = n) :
    ∃ matrix rhs, p.reduce s.matrix s.rhs values = .ok (matrix, rhs) ∧
      s.call (.applyBoundary p values) =
        ({ s with
            partition := p, values := values, reduced := some (matrix, rhs),
            phase := .boundaryApplied }, .ok none) := by
  obtain ⟨⟨matrix, rhs⟩, hreduce⟩ := Partition.reduce_of_sizes h.rows h.cols h.rhs hp hvalues
  refine ⟨matrix, rhs, hreduce, ?_⟩
  simp only [call, applyBoundary, expect_of_phase hphase, hreduce]
  rfl

theorem call_applyBoundary_of_misfit (h : s.Consistent n) (hphase : s.phase = .assembled)
    {p : Partition} {values : Array α} (hmisfit : p.size ≠ n ∨ values.size ≠ n) :
    ∃ extent expected found, s.call (.applyBoundary p values) =
      (s, Outcome.fail (.dimensionMismatch extent expected found)) := by
  obtain ⟨extent, expected, found, hreduce⟩ :=
    Partition.reduce_of_misfit h.rows h.cols h.rhs hmisfit
  refine ⟨extent, expected, found, ?_⟩
  simp only [call, applyBoundary, expect_of_phase hphase, hreduce]
  rfl

/-- Factorizing a reduced system: nothing to do, factors of its size, or a defect. -/
theorem call_factorize (h : s.Consistent n) (hphase : s.phase = .boundaryApplied) :
    (s.partition.free = [] ∧
      s.call .factorize = ({ s with factors := none, phase := .factorized }, .ok none)) ∨
    (s.partition.free ≠ [] ∧ ∃ factors, factors.dim = s.partition.free.length ∧
      s.call .factorize = ({ s with factors := some factors, phase := .factorized }, .ok none)) ∨
    ∃ cause, ((∃ detail, cause = .singular detail) ∨ ∃ detail, cause = .notPositiveDefinite detail) ∧
      s.call .factorize = ({ s with phase := .failed }, Outcome.fail cause) := by
  obtain ⟨_, _, matrix, rhs, hreduced, hrows, hcols, _⟩ := h.reduced (by rw [hphase]; nofun)
  have hfactors : s.factorsOf =
      if matrix.rows = 0 then .ok none else (matrix.factorize s.config).map some := by
    rw [factorsOf, hreduced]
  by_cases hempty : s.partition.free = []
  · have hnone : s.factorsOf = .ok none := by
      rw [hfactors, if_pos (by rw [hrows, hempty]; rfl)]
    refine .inl ⟨hempty, ?_⟩
    simp only [call, factorize, expect_of_phase hphase, hnone]
    rfl
  · have hpos : matrix.rows ≠ 0 := by
      rw [hrows]
      exact fun hzero => hempty (List.eq_nil_of_length_eq_zero hzero)
    rw [if_neg hpos] at hfactors
    have hfail {cause : SolveError} (hcause : matrix.factorize s.config = Outcome.fail cause) :
        s.call .factorize = ({ s with phase := .failed }, Outcome.fail cause) := by
      rw [hcause] at hfactors
      simp only [call, factorize, expect_of_phase hphase, hfactors]
      rfl
    rcases DenseMatrix.factorize_of_square (hcols.trans hrows.symm) s.config with
      ⟨factors, hok⟩ | ⟨detail, hcause⟩ | ⟨detail, hcause⟩
    · refine .inr (.inl ⟨hempty, factors, ?_, ?_⟩)
      · exact (DenseMatrix.dim_of_factorize hok).2.trans hrows
      · rw [hok] at hfactors
        simp only [call, factorize, expect_of_phase hphase, hfactors]
        rfl
    · exact .inr (.inr ⟨_, .inl ⟨detail, rfl⟩, hfail hcause⟩)
    · exact .inr (.inr ⟨_, .inr ⟨detail, rfl⟩, hfail hcause⟩)

/-- Solving a factorized system: a value for each unknown, or a division by a zero pivot. -/
theorem call_solve (h : s.Consistent n) (hphase : s.phase = .factorized) :
    (∃ x, x.size = n ∧ s.call .solve = ({ s with phase := .solved }, .ok (some x))) ∨
      s.call .solve = (s, Outcome.fail (.singular .solveFailed)) := by
  obtain ⟨hsize, hvalues, matrix, rhs, hreduced, _, _, hrhs⟩ :=
    h.reduced (by rw [hphase]; nofun)
  have hfree : (∃ y, s.freeValues = .ok y ∧ y.size = s.partition.free.length) ∨
      s.freeValues = Outcome.fail (.singular .solveFailed) := by
    cases hfactors : s.factors with
    | none =>
        have hempty := h.unfactored hphase hfactors
        exact .inl ⟨#[], by rw [freeValues, hfactors], by rw [hempty]; rfl⟩
    | some factors =>
        obtain ⟨hdim, _⟩ := h.factors hphase factors hfactors
        have hvalues : s.freeValues = factors.solve rhs := by rw [freeValues, hfactors, hreduced]
        rw [hvalues, ← hdim]
        exact Factors.solve_of_size (hrhs.trans hdim.symm)
  rcases hfree with ⟨y, hy, hysize⟩ | hfail
  · obtain ⟨x, hx, hxsize⟩ :=
      Partition.scatter_of_sizes hysize (hvalues.trans hsize.symm)
    refine .inl ⟨x, hxsize.trans hsize, ?_⟩
    have hsolve : s.solve = .ok ({ s with phase := .solved }, x) :=
      Outcome.bind_eq_ok_iff.2 ⟨(), expect_of_phase hphase,
        Outcome.bind_eq_ok_iff.2 ⟨y, hy, Outcome.bind_eq_ok_iff.2 ⟨x, hx, rfl⟩⟩⟩
    rw [call, hsolve]
  · refine .inr ?_
    simp only [call, solve, expect_of_phase hphase, hfail]
    rfl

/-! ## All sequences of calls -/

/-- **Every call keeps the invariant.** -/
theorem Consistent.call (h : s.Consistent n) (c : SessionCall α) : (s.call c).1.Consistent n := by
  by_cases hphase : s.phase = c.needs
  · cases c with
    | applyBoundary p values =>
        by_cases hsizes : p.size = n ∧ values.size = n
        · obtain ⟨matrix, rhs, hreduce, hcall⟩ :=
            call_applyBoundary_of_sizes h hphase hsizes.1 hsizes.2
          rw [hcall]
          exact ⟨h.rows, h.cols, h.rhs,
            fun _ => ⟨hsizes.1, hsizes.2, matrix, rhs, rfl, Partition.dims_of_reduce hreduce⟩,
            nofun, nofun⟩
        · obtain ⟨_, _, _, hcall⟩ :=
            call_applyBoundary_of_misfit h hphase (not_and_or.1 hsizes)
          rw [hcall]
          exact h
    | factorize =>
        have hreduced := h.reduced (by rw [hphase]; nofun)
        rcases call_factorize h hphase with
          ⟨hempty, hcall⟩ | ⟨hfree, factors, hdim, hcall⟩ | ⟨_, _, hcall⟩
        · rw [hcall]
          exact ⟨h.rows, h.cols, h.rhs, fun _ => hreduced, fun _ _ => hempty, fun _ _ => nofun⟩
        · rw [hcall]
          refine ⟨h.rows, h.cols, h.rhs, fun _ => hreduced, fun _ => nofun, fun _ f hf => ?_⟩
          obtain rfl := Option.some.inj hf
          exact ⟨hdim, hfree⟩
        · rw [hcall]
          exact ⟨h.rows, h.cols, h.rhs, fun _ => hreduced, nofun, nofun⟩
    | solve =>
        rcases call_solve h hphase with ⟨_, _, hcall⟩ | hcall
        · rw [hcall]
          exact ⟨h.rows, h.cols, h.rhs, fun _ => h.reduced (by rw [hphase]; nofun), nofun, nofun⟩
        · rw [hcall]
          exact h
  · rw [call_of_ne hphase]
    exact h

theorem Consistent.after (h : s.Consistent n) (calls : List (SessionCall α)) :
    (s.after calls).Consistent n :=
  List.foldlRecOn calls _ h fun _ hs c _ => hs.call c

/-- A call leaves the phase of a consistent session or takes one of the four steps. -/
theorem Consistent.moves (h : s.Consistent n) (c : SessionCall α) :
    (s.call c).1.phase = s.phase ∨ s.phase.Moves (s.call c).1.phase := by
  by_cases hphase : s.phase = c.needs
  · cases c with
    | applyBoundary p values =>
        by_cases hsizes : p.size = n ∧ values.size = n
        · obtain ⟨_, _, _, hcall⟩ := call_applyBoundary_of_sizes h hphase hsizes.1 hsizes.2
          rw [hcall, hphase]
          exact .inr .apply
        · obtain ⟨_, _, _, hcall⟩ :=
            call_applyBoundary_of_misfit h hphase (not_and_or.1 hsizes)
          rw [hcall]
          exact .inl rfl
    | factorize =>
        rcases call_factorize h hphase with
          ⟨_, hcall⟩ | ⟨_, _, _, hcall⟩ | ⟨_, _, hcall⟩ <;> rw [hcall, hphase]
        · exact .inr .factorize
        · exact .inr .factorize
        · exact .inr .fail
    | solve =>
        rcases call_solve h hphase with ⟨_, _, hcall⟩ | hcall <;> rw [hcall]
        · rw [hphase]
          exact .inr .solve
        · exact .inl rfl
  · rw [call_of_ne hphase]
    exact .inl rfl

theorem Consistent.sound (h : s.Consistent n) : s.Sound n where
  moves := h.moves
  refuses := fun _ hne => call_of_ne hne
  ends := by
    intro hend c
    refine call_of_ne fun hphase => ?_
    rcases hend with hend | hend <;> rw [hend] at hphase <;> cases c <;> cases hphase
  applies := by
    intro hphase p values hp hvalues
    obtain ⟨_, _, _, hcall⟩ := call_applyBoundary_of_sizes h hphase hp hvalues
    rw [hcall]
    exact ⟨rfl, rfl⟩
  misfits := fun hphase _ _ hmisfit => call_applyBoundary_of_misfit h hphase hmisfit
  factorizes := by
    intro hphase
    rcases call_factorize h hphase with
      ⟨_, hcall⟩ | ⟨_, _, _, hcall⟩ | ⟨_, ⟨detail, rfl⟩ | ⟨detail, rfl⟩, hcall⟩ <;> rw [hcall]
    · exact .inl ⟨rfl, rfl⟩
    · exact .inl ⟨rfl, rfl⟩
    · exact .inr ⟨rfl, .inl ⟨detail, rfl⟩⟩
    · exact .inr ⟨rfl, .inr ⟨detail, rfl⟩⟩
  solves := by
    intro hphase
    rcases call_solve h hphase with ⟨x, hx, hcall⟩ | hcall
    · rw [hcall]
      exact .inl ⟨x, rfl, hx, rfl⟩
    · exact .inr hcall
  agrees := by
    intro extent expected found hmismatch
    by_cases hphase : s.phase = .factorized
    · rcases call_solve h hphase with ⟨_, _, hcall⟩ | hcall <;>
        rw [hcall] at hmismatch <;> cases hmismatch
    · rw [call_of_ne (c := .solve) hphase] at hmismatch
      cases hmismatch
  reduced := fun hphase => ⟨(h.reduced hphase).1, (h.reduced hphase).2.2⟩
  factors := by
    intro hphase
    cases hfactors : s.factors with
    | none => simpa using h.unfactored hphase hfactors
    | some factors => simpa using (h.factors hphase factors hfactors).2

/-- A call that gives out a solution is the last one to do so. -/
theorem phase_of_solution {c : SessionCall α} {x : Array α} (hx : (s.call c).2 = .ok (some x)) :
    (s.call c).1.phase = .solved := by
  cases c with
  | applyBoundary p values =>
      simp only [SolveSession.call] at hx
      split at hx <;> cases hx
  | factorize =>
      simp only [SolveSession.call] at hx
      cases hout : s.factorize.2 <;> rw [hout] at hx <;> cases hx
  | solve =>
      simp only [SolveSession.call] at hx ⊢
      cases hsolve : s.solve with
      | error fault =>
          rw [hsolve] at hx
          cases hx
      | ok out =>
          obtain ⟨_, _, hout⟩ := Outcome.bind_eq_ok_iff.1 hsolve
          obtain ⟨_, _, hout⟩ := Outcome.bind_eq_ok_iff.1 hout
          obtain ⟨_, _, hout⟩ := Outcome.bind_eq_ok_iff.1 hout
          obtain rfl := Except.ok.inj hout
          rfl

theorem solutions_of_solved (hphase : s.phase = .solved) (calls : List (SessionCall α)) :
    s.solutions calls = [] := by
  induction calls with
  | nil => rfl
  | cons c rest ih =>
      have hcall : s.call c = (s, Outcome.fail (.phaseViolation c.needs s.phase)) :=
        call_of_ne (by rw [hphase]; cases c <;> nofun)
      rw [solutions, hcall]
      exact ih

theorem length_solutions_le (s : SolveSession α) (calls : List (SessionCall α)) :
    (s.solutions calls).length ≤ 1 := by
  induction calls generalizing s with
  | nil => exact Nat.zero_le 1
  | cons c rest ih =>
      rw [solutions]
      split
      · next x hx =>
          rw [solutions_of_solved (phase_of_solution hx)]
          exact Nat.le_refl 1
      · exact ih _

/-- **A session is a sound state machine**: it starts assembled, and whatever is called, with
    whatever boundaries, each session that comes up is sound and at most one solution is given
    out. -/
theorem sound_after {matrix : BlockMatrix α} {rhs : Array α} {config : SolverConfig α}
    (h : start matrix rhs config = .ok s) (calls : List (SessionCall α)) :
    s.phase = .assembled ∧ (s.after calls).Sound rhs.size ∧ (s.solutions calls).length ≤ 1 :=
  ⟨(consistent_start h).2, ((consistent_start h).1.after calls).sound,
    s.length_solutions_le calls⟩

/-- A call out of order, a boundary for too few unknowns and a second solve are refused; between them
    the system is solved. -/
theorem pairOfPairs_sound_after :
    ∃ s, start BlockMatrix.pairOfPairs #[0, 0, 8, 5] ⟨.lu, 0⟩ = .ok s ∧
      s.solutions [.factorize, .applyBoundary ⟨[0], [1]⟩ #[1, 2],
        .applyBoundary ⟨[0, 1], [2, 3]⟩ #[1, 2, 7, 7], .factorize, .solve, .solve] =
          [#[1, 2, 1 / 3, 4 / 3]] ∧
      (s.after [.factorize, .applyBoundary ⟨[0], [1]⟩ #[1, 2],
        .applyBoundary ⟨[0, 1], [2, 3]⟩ #[1, 2, 7, 7], .factorize, .solve, .solve]).Sound 4 := by
  obtain ⟨s, hs, hsolutions⟩ : ∃ s, start BlockMatrix.pairOfPairs #[0, 0, 8, 5] ⟨.lu, 0⟩ = .ok s ∧
      s.solutions [.factorize, .applyBoundary ⟨[0], [1]⟩ #[1, 2],
        .applyBoundary ⟨[0, 1], [2, 3]⟩ #[1, 2, 7, 7], .factorize, .solve, .solve] =
          [#[1, 2, 1 / 3, 4 / 3]] := by
    decide +kernel
  exact ⟨s, hs, hsolutions, (sound_after hs _).2.1⟩

end SolveSession

end GraphTensor
