import GraphTensor.Lowering.Basic
import GraphTensor.Proofs.Lowering.Addresses
set_option autoImplicit false

/-! # What becomes of each statement

Lowering takes three passes, but treats the statements of a function one after another: the lowered
body is the concatenation of one group of statements for each statement (`Func.Groups`). An assembly
becomes the clearing of its targets that are not cleared yet and a loop, an assignment of an index
expression becomes its loop nests, and any other statement stays one statement.

What one statement leaves for the next is only which targets have been cleared and how many names
have been given out. With these two as parameters the three passes merge into one relation, on which
later proofs go by induction. -/

namespace GraphTensor

variable {α : Type}

/-- The function with another body, as the passes make it. -/
def Func.withBody (f : Func α) (body : List (Stmt α)) : Func α :=
  { f with body := body }

/-- The statement assigns an index expression. -/
def Stmt.isContraction : Stmt α → Bool
  | assign _ (.index _ _) => true
  | _ => false

theorem Stmt.exists_of_isContraction {s : Stmt α} (h : s.isContraction = true) :
    ∃ target free body, s = .assign target (.index free body) := by
  unfold isContraction at h
  split at h
  · exact ⟨_, _, _, rfl⟩
  · cases h

theorem Stmt.exists_of_isAssemble {s : Stmt α} (h : s.isAssemble = true) :
    ∃ targets set kernel body, s = .assemble targets set kernel body := by
  unfold isAssemble at h
  split at h
  · exact ⟨_, _, _, _, rfl⟩
  · cases h

section

variable [Scalar α]

/-- The groups of statements that the statements of a body are lowered to; `zeroed` are the targets
    cleared and `names` the number of names given out before them. The bodies `assembled` and
    `contracted` are those that the first and the second pass leave. -/
inductive Func.Groups (f : Func α) (storages : Storages) (search : Search)
    (assembled contracted : List (Stmt α)) :
    List VarName → Nat → List (Stmt α) → List (List (Stmt α)) → Prop where
  /-- There is nothing to lower. -/
  | nil {zeroed : List VarName} {names : Nat} :
      Func.Groups f storages search assembled contracted zeroed names [] []
  /-- An assembly clears its targets and becomes a loop. -/
  | assembly {zeroed targets : List VarName} {names : Nat} {set : SetName} {kernel : KernelVars}
      {body rest : List (Stmt α)} {loop lowered : Stmt α} {groups : List (List (Stmt α))}
      (hloop : f.lowerAssembly storages targets set kernel body = .ok loop)
      (hlowered : (AccessContext.mk (f.withBody contracted) storages search).lowerStmt loop =
        .ok lowered)
      (hrest : Func.Groups f storages search assembled contracted
        (zeroed ++ freshTargets zeroed targets) names rest groups) :
      Func.Groups f storages search assembled contracted zeroed names
        (.assemble targets set kernel body :: rest)
        (((freshTargets zeroed targets).map .zero ++ [lowered]) :: groups)
  /-- An index expression becomes loop nests. -/
  | contraction {zeroed : List VarName} {names names' : Nat} {target : VarName}
      {free : List IndexVar} {body : Expr α} {rest nests lowered : List (Stmt α)}
      {groups : List (List (Stmt α))}
      (hnests : (f.withBody assembled).lowerContraction storages names target free body =
        .ok (names', nests))
      (hlowered : (AccessContext.mk (f.withBody contracted) storages search).lowerBody nests =
        .ok lowered)
      (hrest : Func.Groups f storages search assembled contracted zeroed names' rest groups) :
      Func.Groups f storages search assembled contracted zeroed names
        (.assign target (.index free body) :: rest) (lowered :: groups)
  /-- Any other statement stays one statement. -/
  | other {zeroed : List VarName} {names : Nat} {s lowered : Stmt α} {rest : List (Stmt α)}
      {groups : List (List (Stmt α))} (hassemble : s.isAssemble = false)
      (hcontraction : s.isContraction = false)
      (hlowered : (AccessContext.mk (f.withBody contracted) storages search).lowerStmt s =
        .ok lowered)
      (hrest : Func.Groups f storages search assembled contracted zeroed names rest groups) :
      Func.Groups f storages search assembled contracted zeroed names (s :: rest)
        ([lowered] :: groups)

end

/-! ## Passes over lists of statements -/

namespace AccessContext

variable {c : AccessContext α}

theorem lowerBody_zeros {targets : List VarName} {out : List (Stmt α)}
    (h : c.lowerBody (targets.map .zero) = .ok out) : out = targets.map .zero := by
  induction targets generalizing out with
  | nil =>
      cases h
      rfl
  | cons target rest ih =>
      rw [List.map_cons, lowerBody_cons_eq_ok] at h
      obtain ⟨s', rest', hs, hrest, rfl⟩ := h
      obtain ⟨_, rfl⟩ := lowerStmt_zero_eq_ok_iff.1 hs
      rw [ih hrest, List.map_cons]

end AccessContext

theorem Func.lowerAssembly_eq_loop {f : Func α} {storages : Storages} {targets : List VarName} {set : SetName} {kernel : KernelVars}
    {body : List (Stmt α)} {loop : Stmt α}
    (h : f.lowerAssembly storages targets set kernel body = .ok loop) :
    ∃ decl lowered, f.set? set = some decl ∧ kernel.check decl = .ok () ∧
      (∀ target ∈ targets, f.checkTarget storages target = .ok ()) ∧
      (KernelContext.mk storages targets decl kernel).lowerBody (f.kernelScope kernel) body =
        .ok lowered ∧
      loop = .loop (.elements decl.name kernel.element.name) lowered := by
  obtain ⟨decl, hdecl, h⟩ := Outcome.bind_eq_ok_iff.1 h
  obtain ⟨_, hcheck, h⟩ := Outcome.bind_eq_ok_iff.1 h
  obtain ⟨_, htargets, h⟩ := Outcome.bind_eq_ok_iff.1 h
  obtain ⟨lowered, hlowered, h⟩ := Outcome.bind_eq_ok_iff.1 h
  cases h
  exact ⟨decl, lowered, Outcome.orFail_eq_ok_iff.1 hdecl, hcheck,
    fun _ => Except.forM_mem htargets, hlowered, rfl⟩

section

variable {f : Func α} {storages : Storages} {zeroed targets : List VarName} {set : SetName}
  {kernel : KernelVars} {body rest out : List (Stmt α)}

/-- The first pass clears the targets of an assembly that no assembly before it has cleared. -/
theorem Func.lowerAssembliesFrom_assemble_eq_ok
    (h : f.lowerAssembliesFrom storages zeroed (.assemble targets set kernel body :: rest) = .ok out) :
    ∃ loop rest', f.lowerAssembly storages targets set kernel body = .ok loop ∧
      f.lowerAssembliesFrom storages (zeroed ++ freshTargets zeroed targets) rest = .ok rest' ∧
      out = (freshTargets zeroed targets).map .zero ++ loop :: rest' := by
  rw [lowerAssembliesFrom] at h
  obtain ⟨loop, hloop, h⟩ := Outcome.bind_eq_ok_iff.1 h
  obtain ⟨rest', hrest, h⟩ := Outcome.bind_eq_ok_iff.1 h
  exact ⟨loop, rest', hloop, hrest, (Except.ok.inj h).symm⟩

/-- The first pass leaves any other statement as it is. -/
theorem Func.lowerAssembliesFrom_other {s : Stmt α} (hs : s.isAssemble = false)
    (h : f.lowerAssembliesFrom storages zeroed (s :: rest) = .ok out) :
    ∃ rest', f.lowerAssembliesFrom storages zeroed rest = .ok rest' ∧ out = s :: rest' := by
  unfold lowerAssembliesFrom at h
  split at h
  · contradiction
  · next heq =>
      cases heq
      cases hs
  · next heq =>
      cases heq
      obtain ⟨_, _, h⟩ := Outcome.bind_eq_ok_iff.1 h
      obtain ⟨rest', hrest, h⟩ := Outcome.bind_eq_ok_iff.1 h
      exact ⟨rest', hrest, (Except.ok.inj h).symm⟩

end

section

variable [Scalar α] {f : Func α} {storages : Storages}

/-- The second pass leaves a statement as it is, unless it assigns an index expression. -/
theorem Func.lowerIndexExpressionsFrom_other {names : Nat} {s : Stmt α} {rest out : List (Stmt α)}
    (hs : s.isContraction = false)
    (h : f.lowerIndexExpressionsFrom storages names (s :: rest) = .ok out) :
    ∃ rest', f.lowerIndexExpressionsFrom storages names rest = .ok rest' ∧ out = s :: rest' := by
  unfold lowerIndexExpressionsFrom at h
  split at h
  · contradiction
  · next heq =>
      cases heq
      cases hs
  · next heq =>
      cases heq
      obtain ⟨_, _, h⟩ := Outcome.bind_eq_ok_iff.1 h
      obtain ⟨rest', hrest, h⟩ := Outcome.bind_eq_ok_iff.1 h
      cases h
      exact ⟨rest', hrest, rfl⟩

/-- The second pass replaces an index expression by loop nests. -/
theorem Func.lowerIndexExpressionsFrom_contraction_eq_ok {names : Nat} {target : VarName}
    {free : List IndexVar} {body : Expr α} {rest out : List (Stmt α)}
    (h : f.lowerIndexExpressionsFrom storages names (.assign target (.index free body) :: rest) =
      .ok out) :
    ∃ names' nests rest', f.lowerContraction storages names target free body = .ok (names', nests) ∧
      f.lowerIndexExpressionsFrom storages names' rest = .ok rest' ∧ out = nests ++ rest' := by
  rw [lowerIndexExpressionsFrom] at h
  obtain ⟨⟨names', nests⟩, hnests, h⟩ := Outcome.bind_eq_ok_iff.1 h
  obtain ⟨rest', hrest, h⟩ := Outcome.bind_eq_ok_iff.1 h
  exact ⟨names', nests, rest', hnests, hrest, (Except.ok.inj h).symm⟩

theorem Func.lowerIndexExpressionsFrom_zeros {names : Nat} {targets : List VarName}
    {rest out : List (Stmt α)}
    (h : f.lowerIndexExpressionsFrom storages names (targets.map .zero ++ rest) = .ok out) :
    ∃ rest', f.lowerIndexExpressionsFrom storages names rest = .ok rest' ∧
      out = targets.map .zero ++ rest' := by
  induction targets generalizing out with
  | nil => exact ⟨out, h, rfl⟩
  | cons target targets ih =>
      rw [List.map_cons, List.cons_append] at h
      obtain ⟨tail, htail, rfl⟩ := lowerIndexExpressionsFrom_other (by rfl) h
      obtain ⟨rest', hrest, rfl⟩ := ih htail
      exact ⟨rest', hrest, rfl⟩

/-- **Statement by statement.** The three passes lower every statement to a group of its own, and
    the groups follow on one another as the statements do. -/
theorem Func.groups_of_passes {search : Search} {assembled contracted : List (Stmt α)}
    {zeroed : List VarName} {names : Nat} {body first second third : List (Stmt α)}
    (hfirst : f.lowerAssembliesFrom storages zeroed body = .ok first)
    (hsecond : (f.withBody assembled).lowerIndexExpressionsFrom storages names first = .ok second)
    (hthird : (AccessContext.mk (f.withBody contracted) storages search).lowerBody second =
      .ok third) :
    ∃ groups, f.Groups storages search assembled contracted zeroed names body groups ∧
      third = groups.flatten := by
  induction body generalizing zeroed names first second third with
  | nil =>
      cases hfirst
      cases hsecond
      cases hthird
      exact ⟨[], .nil, rfl⟩
  | cons s rest ih =>
      cases hassemble : s.isAssemble with
      | true =>
          obtain ⟨targets, set, kernel, body, rfl⟩ := Stmt.exists_of_isAssemble hassemble
          obtain ⟨loop, firstRest, hloop, hrest, rfl⟩ := lowerAssembliesFrom_assemble_eq_ok hfirst
          obtain ⟨second', hsecond', rfl⟩ := lowerIndexExpressionsFrom_zeros hsecond
          obtain ⟨decl, kernelBody, _, _, _, _, rfl⟩ := lowerAssembly_eq_loop hloop
          obtain ⟨secondRest, hsecondRest, rfl⟩ :=
            lowerIndexExpressionsFrom_other (s := .loop _ kernelBody) rfl hsecond'
          obtain ⟨zeros, third', hzeros, hthird', rfl⟩ :=
            AccessContext.lowerBody_append_eq_ok.1 hthird
          obtain ⟨lowered, thirdRest, hlowered, hthirdRest, rfl⟩ :=
            AccessContext.lowerBody_cons_eq_ok.1 hthird'
          obtain ⟨groups, hgroups, rfl⟩ := ih hrest hsecondRest hthirdRest
          refine ⟨_, .assembly hloop hlowered hgroups, ?_⟩
          rw [AccessContext.lowerBody_zeros hzeros]
          simp
      | false =>
          obtain ⟨firstRest, hrest, rfl⟩ := lowerAssembliesFrom_other hassemble hfirst
          cases hs : s.isContraction with
          | true =>
              obtain ⟨target, free, e, rfl⟩ := Stmt.exists_of_isContraction hs
              obtain ⟨names', nests, secondRest, hnests, hsecondRest, rfl⟩ :=
                lowerIndexExpressionsFrom_contraction_eq_ok hsecond
              obtain ⟨lowered, thirdRest, hlowered, hthirdRest, rfl⟩ :=
                AccessContext.lowerBody_append_eq_ok.1 hthird
              obtain ⟨groups, hgroups, rfl⟩ := ih hrest hsecondRest hthirdRest
              exact ⟨_, .contraction hnests hlowered hgroups, rfl⟩
          | false =>
              obtain ⟨secondRest, hsecondRest, rfl⟩ := lowerIndexExpressionsFrom_other hs hsecond
              obtain ⟨lowered, thirdRest, hlowered, hthirdRest, rfl⟩ :=
                AccessContext.lowerBody_cons_eq_ok.1 hthird
              obtain ⟨groups, hgroups, rfl⟩ := ih hrest hsecondRest hthirdRest
              exact ⟨_, .other hassemble hs hlowered hgroups, rfl⟩

theorem Func.groups_of_lowerWith {options : LowerOptions} {l : LoweredFunc α}
    (h : f.lowerWith storages options = .ok l) :
    ∃ assembled contracted groups,
      f.Groups storages options.search assembled contracted [] 0 f.body groups ∧
        l = ⟨f.withBody groups.flatten, storages⟩ := by
  obtain ⟨g, hg, h⟩ := Outcome.bind_eq_ok_iff.1 h
  obtain ⟨assembled, hassembled, hg⟩ := Outcome.bind_eq_ok_iff.1 hg
  cases hg
  obtain ⟨g, hg, h⟩ := Outcome.bind_eq_ok_iff.1 h
  obtain ⟨contracted, hcontracted, hg⟩ := Outcome.bind_eq_ok_iff.1 hg
  cases hg
  obtain ⟨g, hg, h⟩ := Outcome.bind_eq_ok_iff.1 h
  cases h
  obtain ⟨body, hbody, hg⟩ := Outcome.bind_eq_ok_iff.1 hg
  split at hg
  · cases hg
  · cases hg
    obtain ⟨groups, hgroups, rfl⟩ := Func.groups_of_passes hassembled hcontracted hbody
    exact ⟨assembled, contracted, groups, hgroups, rfl⟩

/-- The group of a statement among the others. -/
theorem Func.Groups.split {search : Search} {assembled contracted : List (Stmt α)}
    {zeroed : List VarName} {names : Nat} {before after : List (Stmt α)} {s : Stmt α}
    {groups : List (List (Stmt α))}
    (h : f.Groups storages search assembled contracted zeroed names (before ++ s :: after) groups) :
    ∃ zeroed' names' earlier group later,
      f.Groups storages search assembled contracted zeroed' names' (s :: after) (group :: later) ∧
        groups = earlier ++ group :: later := by
  induction before generalizing zeroed names groups with
  | nil =>
      cases h with
      | assembly hloop hlowered hrest =>
          exact ⟨_, _, [], _, _, .assembly hloop hlowered hrest, rfl⟩
      | contraction hnests hlowered hrest =>
          exact ⟨_, _, [], _, _, .contraction hnests hlowered hrest, rfl⟩
      | other hassemble hcontraction hlowered hrest =>
          exact ⟨_, _, [], _, _, .other hassemble hcontraction hlowered hrest, rfl⟩
  | cons t before ih =>
      cases h with
      | assembly hloop hlowered hrest =>
          obtain ⟨zeroed', names', earlier, group, later, hsplit, rfl⟩ := ih hrest
          exact ⟨zeroed', names', _ :: earlier, group, later, hsplit, rfl⟩
      | contraction hnests hlowered hrest =>
          obtain ⟨zeroed', names', earlier, group, later, hsplit, rfl⟩ := ih hrest
          exact ⟨zeroed', names', _ :: earlier, group, later, hsplit, rfl⟩
      | other hassemble hcontraction hlowered hrest =>
          obtain ⟨zeroed', names', earlier, group, later, hsplit, rfl⟩ := ih hrest
          exact ⟨zeroed', names', _ :: earlier, group, later, hsplit, rfl⟩

/-- Statements that no pass changes are their own groups. -/
theorem Func.Groups.eq_singletons {search : Search} {assembled contracted : List (Stmt α)}
    {zeroed : List VarName} {names : Nat} {body : List (Stmt α)} {groups : List (List (Stmt α))}
    (h : f.Groups storages search assembled contracted zeroed names body groups)
    (hbody : ∀ s ∈ body, s.isAssemble = false ∧ s.isContraction = false ∧
      ∀ (c : AccessContext α) (s' : Stmt α), c.lowerStmt s = .ok s' → s' = s) :
    groups = body.map fun s => [s] := by
  induction h with
  | nil => rfl
  | assembly => cases (hbody _ (List.mem_cons_self ..)).1
  | contraction => cases (hbody _ (List.mem_cons_self ..)).2.1
  | other _ _ hlowered _ ih =>
      obtain ⟨_, _, hsame⟩ := hbody _ (List.mem_cons_self ..)
      rw [List.map_cons, hsame _ _ hlowered, ih fun s hs => hbody s (List.mem_cons_of_mem _ hs)]

end

end GraphTensor
