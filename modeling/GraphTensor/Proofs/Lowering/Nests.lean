import GraphTensor.Proofs.Lowering.Fresh
import GraphTensor.Proofs.Machine.Changes
set_option autoImplicit false

/-! # Loop nests of index expressions

A term of an index expression becomes one statement inside loops: those over the free indices
outside (`Contraction.FreeLoops`), those over the summed ones inside. All loops bind fresh names
(`Nest.Generated`), and the statement writes the target. -/

namespace GraphTensor

variable {α : Type}

namespace Contraction

/-- The loops over the free indices, and the position at which a sparse target is written. -/
def FreeLoops (c : Contraction) (names : Nat) (t : Term α) (n : Nest α)
    (position : Option VarName) : Prop :=
  match c.kind with
  | .sparse pattern =>
      ∃ place, c.patternLoop (Nest.start names) pattern t = .ok (n, place) ∧ position = some place
  | _ => n = rangeLoops (Nest.start names) c.free ∧ position = none

/-- The loop nest of a term: the loops over the free indices, then those over the summed ones, and
    inside of them the statement that adds the product to the target. -/
theorem lowerTerm_eq_ok {c : Contraction} {names names' : Nat} {t : Term α} {bound : List IndexVar}
    {s : Stmt α} (h : c.lowerTerm names t bound = .ok (names', s)) :
    ∃ outer position n value indices, c.FreeLoops names t outer position ∧
      c.summedLoops t outer bound = .ok n ∧ c.termValue n t = .ok value ∧
      n.indices c.free = .ok indices ∧ names' = n.names ∧
      s = n.wrap (.tensorWrite c.target indices position value true) := by
  have hinner : ∀ (outer : Nest α) (position : Option VarName), (do
      let n ← c.summedLoops t outer bound
      let value ← c.termValue n t
      let indices ← n.indices c.free
      return (n.names, n.wrap (.tensorWrite c.target indices position value true))) =
        (.ok (names', s) : Lowered (Nat × Stmt α)) →
      ∃ n value indices, c.summedLoops t outer bound = .ok n ∧ c.termValue n t = .ok value ∧
        n.indices c.free = .ok indices ∧ names' = n.names ∧
        s = n.wrap (.tensorWrite c.target indices position value true) := by
    intro outer position h
    obtain ⟨n, hn, h⟩ := Outcome.bind_eq_ok_iff.1 h
    obtain ⟨value, hvalue, h⟩ := Outcome.bind_eq_ok_iff.1 h
    obtain ⟨indices, hindices, h⟩ := Outcome.bind_eq_ok_iff.1 h
    obtain ⟨rfl, rfl⟩ := Prod.mk.inj (Except.ok.inj h)
    exact ⟨n, value, indices, hn, hvalue, hindices, rfl, rfl⟩
  simp only [lowerTerm] at h
  split at h
  · next pattern hkind =>
      obtain ⟨⟨outer, place⟩, houter, h⟩ := Outcome.bind_eq_ok_iff.1 h
      obtain ⟨n, value, indices, hrest⟩ := hinner outer (some place) h
      exact ⟨outer, some place, n, value, indices, by
        simp only [FreeLoops, hkind]
        exact ⟨place, houter, rfl⟩, hrest⟩
  · next hkind =>
      obtain ⟨n, value, indices, hrest⟩ := hinner _ none h
      refine ⟨_, none, n, value, indices, ?_, hrest⟩
      unfold FreeLoops
      split
      · next pattern hsparse => exact absurd hsparse (hkind pattern)
      · exact ⟨rfl, rfl⟩

theorem lowerTerms_cons_eq_ok {c : Contraction} {names names' : Nat} {t : Term α}
    {bound : List IndexVar} {rest : List (Term α × List IndexVar)} {nests : List (Stmt α)}
    (h : c.lowerTerms names ((t, bound) :: rest) = .ok (names', nests)) :
    ∃ middle s nests', c.lowerTerm names t bound = .ok (middle, s) ∧
      c.lowerTerms middle rest = .ok (names', nests') ∧ nests = s :: nests' := by
  obtain ⟨⟨middle, s⟩, hs, h⟩ := Outcome.bind_eq_ok_iff.1 h
  obtain ⟨⟨last, nests'⟩, hrest, h⟩ := Outcome.bind_eq_ok_iff.1 h
  obtain ⟨rfl, rfl⟩ := Prod.mk.inj (Except.ok.inj h)
  exact ⟨middle, s, nests', hs, hrest, rfl⟩

end Contraction

/-- The statements for an assignment of an index expression: the target is cleared, and then comes
    the loop nest of each term, all of which have passed the checks. -/
theorem Func.lowerContraction_eq_ok [Scalar α] {f : Func α} {storages : Storages}
    {names names' : Nat} {target : VarName} {free : List IndexVar} {body : Expr α}
    {statements : List (Stmt α)}
    (h : f.lowerContraction storages names target free body = .ok (names', statements)) :
    ∃ type s terms checked nests, (TypeScope.ofFunc f).tensor target = .ok type ∧
      storages.get? target = some s ∧ free.length = type.rank ∧ body.terms = .ok terms ∧
      let c : Contraction := ⟨storages, target, type, s.kind, free⟩
      c.checkDestination [] free type.dims = .ok () ∧
        c.checkTerms (TypeScope.ofFunc f) terms = .ok checked ∧
        c.lowerTerms names checked = .ok (names', nests) ∧ statements = .zero target :: nests := by
  obtain ⟨type, htype, h⟩ := Outcome.bind_eq_ok_iff.1 h
  obtain ⟨s, hs, h⟩ := Outcome.bind_eq_ok_iff.1 h
  split at h
  · cases h
  · next hlength =>
      obtain ⟨⟨⟩, hdestination, h⟩ := Outcome.bind_eq_ok_iff.1 h
      obtain ⟨terms, hterms, h⟩ := Outcome.bind_eq_ok_iff.1 h
      obtain ⟨checked, hchecked, h⟩ := Outcome.bind_eq_ok_iff.1 h
      obtain ⟨⟨last, nests⟩, hnests, h⟩ := Outcome.bind_eq_ok_iff.1 h
      obtain ⟨rfl, rfl⟩ := Prod.mk.inj (Except.ok.inj h)
      exact ⟨type, s, terms, checked, nests, htype, Outcome.orFail_eq_ok_iff.1 hs,
        Decidable.not_not.1 hlength, Outcome.ofExcept_eq_ok_iff.1 hterms, hdestination, hchecked, hnests, rfl⟩

/-! ## Headers of loops -/

/-- The header of a loop as nests have it: it binds fresh names, and the rows that it visits are
    given by variables. -/
structure Loop.Generated (header : Loop α) : Prop where
  /-- The names are fresh. -/
  binders : ∀ name ∈ header.binders, ∃ base number, name = freshName base number
  /-- The rows are variables. -/
  exprs : ∀ e ∈ header.exprs, ∃ name, e = .var name

/-- All loops of a nest have such headers. -/
def Nest.Generated (n : Nest α) : Prop :=
  ∀ header ∈ n.loops, header.Generated

namespace Nest.Generated

variable {n : Nest α}

theorem start (names : Nat) : (Nest.start names : Nest α).Generated := by
  intro header hheader
  cases hheader

theorem of_loops {n' : Nest α} (h : n.Generated) (hloops : n'.loops = n.loops) : n'.Generated := by
  rw [Nest.Generated, hloops]
  exact h

theorem addLoop (h : n.Generated) {header : Loop α} (hheader : header.Generated) :
    (n.addLoop header).Generated := by
  intro other hother
  rcases List.mem_append.1 hother with hother | hother
  · exact h other hother
  · rw [List.mem_singleton.1 hother]
    exact hheader

end Nest.Generated

theorem Nest.index_eq_ok {n : Nest α} {name : String} {e : Expr α} (h : n.index name = .ok e) :
    ∃ var, n.bindings.get? name = some var ∧ e = .var var := by
  obtain ⟨var, hvar, rfl⟩ := Option.map_eq_some_iff.1 (Outcome.orFail_eq_ok_iff.1 h)
  exact ⟨var, hvar, rfl⟩

namespace Contraction

variable {c : Contraction} {t : Term α}

theorem generated_rangeLoops {n : Nest α} (h : n.Generated) (indices : List IndexVar) :
    (rangeLoops n indices).Generated := by
  induction indices generalizing n with
  | nil => exact h
  | cons i rest ih =>
      refine ih (Nest.Generated.addLoop (n := (n.name i.name).1.bindIndex _ _) (h.of_loops rfl) ?_)
      refine ⟨fun name hname => ?_, fun e he => by cases he⟩
      exact ⟨_, _, List.mem_singleton.1 hname⟩

theorem generated_patternLoop {n outer : Nest α} {pattern : PatternRef} {place : VarName}
    (h : n.Generated) (hloop : c.patternLoop n pattern t = .ok (outer, place)) :
    outer.Generated := by
  unfold patternLoop at hloop
  split at hloop
  · obtain ⟨rfl, _⟩ := Prod.mk.inj (Except.ok.inj hloop)
    refine Nest.Generated.addLoop (h.of_loops ?_) ⟨?_, fun e he => by cases he⟩
    · -- sharing the position with operands adds no loops
      refine List.foldlRecOn (motive := fun n' : Nest α => n'.loops = n.loops) _ _ rfl ?_
      intro n' hn' operand _
      dsimp only
      split
      · exact hn'
      · exact hn'
    · intro name hname
      simp only [Loop.binders, List.mem_cons, List.not_mem_nil, or_false] at hname
      rcases hname with rfl | rfl | rfl
      · exact ⟨_, _, rfl⟩
      · exact ⟨_, _, rfl⟩
      · exact ⟨_, _, rfl⟩
  · cases hloop

theorem generated_drivenLoop {n n' : Nest α} {base : String} {number : Nat} {domain : IndexDomain}
    {drivers : List (Nat × VarName × String × PatternRef)} (h : n.Generated)
    (hloop : drivenLoop n (freshName base number) domain drivers = .ok n') : n'.Generated := by
  match drivers with
  | [] =>
      obtain rfl := Except.ok.inj hloop
      refine h.addLoop ⟨fun name hname => ?_, fun e he => by cases he⟩
      exact ⟨_, _, List.mem_singleton.1 hname⟩
  | [(place, tensor, rowName, pattern)] =>
      obtain ⟨row, hrow, hloop⟩ := Outcome.bind_eq_ok_iff.1 hloop
      obtain rfl := Except.ok.inj hloop
      obtain ⟨rowVar, _, rfl⟩ := Nest.index_eq_ok hrow
      refine Nest.Generated.of_loops (n := Nest.addLoop _ _) (Nest.Generated.addLoop
        (n := (n.name (positionBase tensor)).1) (h.of_loops rfl) ⟨fun name hname => ?_, ?_⟩) rfl
      · simp only [Loop.binders, List.mem_cons, List.not_mem_nil, or_false] at hname
        rcases hname with rfl | rfl
        · exact ⟨_, _, rfl⟩
        · exact ⟨_, _, rfl⟩
      · exact fun e he => ⟨rowVar, List.mem_singleton.1 he⟩
  | (leftPlace, leftTensor, leftName, left) :: (rightPlace, rightTensor, rightName, right) :: _ =>
      obtain ⟨leftRow, hleft, hloop⟩ := Outcome.bind_eq_ok_iff.1 hloop
      obtain ⟨rightRow, hright, hloop⟩ := Outcome.bind_eq_ok_iff.1 hloop
      obtain rfl := Except.ok.inj hloop
      obtain ⟨leftVar, _, rfl⟩ := Nest.index_eq_ok hleft
      obtain ⟨rightVar, _, rfl⟩ := Nest.index_eq_ok hright
      refine Nest.Generated.of_loops (n := Nest.addLoop _ _) (Nest.Generated.addLoop
        (n := ((n.name (positionBase leftTensor)).1.name (positionBase rightTensor)).1)
        (h.of_loops rfl) ⟨fun name hname => ?_, fun e he => ?_⟩) rfl
      · simp only [Loop.binders, List.mem_cons, List.not_mem_nil, or_false] at hname
        rcases hname with rfl | rfl | rfl
        · exact ⟨_, _, rfl⟩
        · exact ⟨_, _, rfl⟩
        · exact ⟨_, _, rfl⟩
      · simp only [Loop.exprs, List.mem_cons, List.not_mem_nil, or_false] at he
        rcases he with rfl | rfl
        · exact ⟨leftVar, rfl⟩
        · exact ⟨rightVar, rfl⟩

theorem generated_summedLoops {n n' : Nest α} {bound : List IndexVar} (h : n.Generated)
    (hloops : c.summedLoops t n bound = .ok n') : n'.Generated := by
  induction bound generalizing n with
  | nil => exact Except.ok.inj hloops ▸ h
  | cons i rest ih =>
      obtain ⟨next, hnext, hloops⟩ := Outcome.bind_eq_ok_iff.1 hloops
      obtain ⟨inner, hinner, hnext⟩ := Outcome.bind_eq_ok_iff.1 hnext
      obtain rfl := Except.ok.inj hnext
      have hgenerated : inner.Generated :=
        generated_drivenLoop (n := (n.name i.name).1) (h.of_loops rfl) hinner
      have hbound : (inner.bindIndex i.name (freshName i.name (n.names + 1))).Generated :=
        hgenerated.of_loops rfl
      exact ih hbound hloops

theorem generated_of_lowerTerm {names : Nat} {bound : List IndexVar} {outer n : Nest α}
    {position : Option VarName} (houter : c.FreeLoops names t outer position)
    (hn : c.summedLoops t outer bound = .ok n) : n.Generated := by
  refine generated_summedLoops ?_ hn
  unfold FreeLoops at houter
  split at houter
  · obtain ⟨_, hloop, _⟩ := houter
    exact generated_patternLoop (.start names) hloop
  · exact houter.1 ▸ generated_rangeLoops (.start names) c.free

end Contraction

/-! ## Names bound -/

theorem Nest.binds_wrap (n : Nest α) (s : Stmt α) :
    (n.wrap s).binds = n.loops.flatMap Loop.binders ++ s.binds := by
  unfold Nest.wrap
  induction n.loops with
  | nil => rfl
  | cons header rest ih => simp [Stmt.binds, Stmt.bindsOfList, ih]

theorem Contraction.binds_of_lowerTerms {c : Contraction} {names names' : Nat}
    {terms : List (Term α × List IndexVar)} {nests : List (Stmt α)}
    (h : c.lowerTerms names terms = .ok (names', nests)) :
    ∀ name ∈ Stmt.bindsOfList nests, '%' ∈ name.toList := by
  induction terms generalizing names nests with
  | nil =>
      obtain ⟨rfl, rfl⟩ := Prod.mk.inj (Except.ok.inj h)
      exact fun _ hname => absurd hname List.not_mem_nil
  | cons term rest ih =>
      obtain ⟨middle, s, nests', hs, hnests, rfl⟩ := lowerTerms_cons_eq_ok h
      obtain ⟨outer, position, n, _, _, houter, hn, _, _, _, rfl⟩ := lowerTerm_eq_ok hs
      have hgenerated := generated_of_lowerTerm houter hn
      intro name hname
      rw [Stmt.bindsOfList, Nest.binds_wrap] at hname
      rcases List.mem_append.1 hname with hname | hname
      · rcases List.mem_append.1 hname with hname | hname
        · obtain ⟨header, hheader, hname⟩ := List.mem_flatMap.1 hname
          obtain ⟨base, number, rfl⟩ := (hgenerated header hheader).binders name hname
          exact percent_mem_freshName base number
        · cases hname
      · exact ih hnests name hname

/-! ## Names written -/

theorem Nest.writes_wrap (n : Nest α) (s : Stmt α) : (n.wrap s).writes = s.writes := by
  unfold Nest.wrap
  induction n.loops with
  | nil => rfl
  | cons header rest ih => simp [Stmt.writes, Stmt.writesOfList, ih]

theorem Contraction.writes_of_lowerTerms {c : Contraction} {names names' : Nat}
    {terms : List (Term α × List IndexVar)} {nests : List (Stmt α)}
    (h : c.lowerTerms names terms = .ok (names', nests)) :
    Stmt.writesOfList nests ⊆ [c.target] := by
  induction terms generalizing names nests with
  | nil =>
      obtain ⟨rfl, rfl⟩ := Prod.mk.inj (Except.ok.inj h)
      exact List.nil_subset _
  | cons term rest ih =>
      obtain ⟨middle, s, nests', hs, hnests, rfl⟩ := lowerTerms_cons_eq_ok h
      obtain ⟨_, _, _, _, _, _, _, _, _, _, rfl⟩ := lowerTerm_eq_ok hs
      rw [Stmt.writesOfList, Nest.writes_wrap]
      exact List.append_subset.2 ⟨List.Subset.refl _, ih hnests⟩

/-- The statements for an index expression write its target and bind fresh names. -/
theorem Func.names_of_lowerContraction [Scalar α] {f : Func α} {storages : Storages}
    {names names' : Nat} {target : VarName} {free : List IndexVar} {body : Expr α}
    {nests : List (Stmt α)}
    (h : f.lowerContraction storages names target free body = .ok (names', nests)) :
    Stmt.writesOfList nests ⊆ [target] ∧
      ∀ name ∈ Stmt.bindsOfList nests, '%' ∈ name.toList := by
  obtain ⟨type, s, terms, checked, rest, _, _, _, _, _, _, hrest, rfl⟩ := lowerContraction_eq_ok h
  have hsub := Contraction.writes_of_lowerTerms hrest
  have hfresh := Contraction.binds_of_lowerTerms hrest
  exact ⟨List.append_subset.2 ⟨List.Subset.refl _, hsub⟩, hfresh⟩

end GraphTensor
