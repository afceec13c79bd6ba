import GraphTensor.Proofs.Lowering.Checks
import GraphTensor.Proofs.Lowering.Errors
import GraphTensor.Proofs.Lowering.Groups
import GraphTensor.Proofs.Storage.Masks
set_option autoImplicit false

/-! # Masks that lowering asks for

Lowering checks every term of an assignment to a sparse tensor for an operand that masks it inside
the tensor's pattern. Of all that it does nothing else can fail with a mismatch of patterns
(`LowerError.isPatternMismatch`). For a tensor that no kernel writes the check asks for what
inference has found in the assignments that led to the pattern; it is the other assignments to the
tensor that it can refuse, and it refuses none if all are masked alike (`Func.MaskedAlike`). -/

namespace GraphTensor

variable {α : Type}

/-- An error says that no operand masks a term. -/
def LowerError.isPatternMismatch : LowerError → Bool
  | patternMismatch _ _ _ => true
  | _ => false

/-- A part of lowering does not find a term without a mask. -/
abbrev Lowered.NeverMismatches {β : Type} (o : Lowered β) : Prop :=
  o.Avoids LowerError.isPatternMismatch

open Outcome

theorem Lowered.OnlyChecks.neverMismatches {β : Type} {o : Lowered β} (h : o.OnlyChecks) :
    o.NeverMismatches :=
  h.mono fun cause hcause => by
    cases cause with
    | patternMismatch => rfl
    | _ => cases hcause

/-! ## Checks of a term -/

namespace Contraction

variable (c : Contraction)

/-- The check of a mask says that it is missing where no operand masks the term inside the
    pattern. -/
theorem unmasked_of_checkMask {t : Term α} {p : PatternRef} {cause : LowerError}
    (h : c.checkMask p t = .error (.error cause)) :
    (∃ reason, cause = .patternMismatch c.target p reason) ∧
      ∀ q, t.MaskedBy c.storages c.free q → q.subsetOf p = false := by
  unfold checkMask at h
  dsimp only at h
  split at h
  · cases h
  · next hany =>
      refine ⟨⟨_, (Fault.error.inj (Except.error.inj h)).symm⟩, ?_⟩
      rintro q ⟨o, ho, hq⟩
      obtain ⟨hoperand, hnames⟩ := List.mem_filter.1 ho
      have hindexed : c.indexedByFree o.2 = true := by
        simpa [indexedByFree] using hnames
      refine Bool.eq_false_iff.2 fun hsub => hany (List.any_eq_true.2 ⟨(o.2.tensor, q), ?_, hsub⟩)
      exact List.mem_filterMap.2 ⟨o, hoperand, by simp [hindexed, hq]⟩

variable {c : Contraction}

/-- The checks of a term end in a mismatch of patterns only in the check of its mask. -/
theorem checkMask_of_checkTerm {scope : TypeScope α} {t : Term α} {cause : LowerError}
    (hcause : cause.isPatternMismatch = true) (h : c.checkTerm scope t = .error (.error cause)) :
    ∃ p, c.kind = .sparse p ∧ c.checkMask p t = .error (.error cause) := by
  obtain ⟨⟨seen, product⟩, _, h⟩ :=
    (c.onlyChecks_checkFactors ..).neverMismatches.exists_ok hcause h
  cases product with
  | none => cases ((c.onlyChecks_malformed _).neverMismatches.error cause h).symm.trans hcause
  | some block =>
      obtain ⟨_, _, h⟩ := (avoids_failIf _ rfl).exists_ok hcause h
      obtain ⟨_, _, h⟩ :=
        (avoids_forM fun i _ => (c.onlyChecks_checkFree seen i).neverMismatches).exists_ok hcause h
      obtain ⟨bound, _, h⟩ := (c.onlyChecks_summed _).neverMismatches.exists_ok hcause h
      split at h
      · next p hkind =>
          exact ⟨p, hkind, Except.eq_error_of_bind_ok h⟩
      · cases h

theorem checkMask_of_checkTerms {scope : TypeScope α} {terms : List (Term α)} {cause : LowerError}
    (hcause : cause.isPatternMismatch = true)
    (h : c.checkTerms scope terms = .error (.error cause)) :
    ∃ p, c.kind = .sparse p ∧ ∃ t ∈ terms, c.checkMask p t = .error (.error cause) := by
  induction terms with
  | nil => cases h
  | cons t rest ih =>
      rcases Except.bind_eq_error h with ht | ⟨_, _, h⟩
      · obtain ⟨p, hkind, hmask⟩ := checkMask_of_checkTerm hcause ht
        exact ⟨p, hkind, t, List.mem_cons_self .., hmask⟩
      · rcases Except.bind_eq_error h with hrest | ⟨_, _, h⟩
        · obtain ⟨p, hkind, t', ht', hmask⟩ := ih hrest
          exact ⟨p, hkind, t', List.mem_cons_of_mem _ ht', hmask⟩
        · cases h

end Contraction
/-! ## Functions -/

section

variable [Scalar α] {f : Func α} {storages : Storages}

/-- Lowering an assignment ends in a mismatch of patterns only if a term is not masked inside the
    pattern of its destination. -/
theorem Func.unmasked_of_lowerContraction {names : Nat} {target : VarName} {free : List IndexVar}
    {body : Expr α} {cause : LowerError} (hcause : cause.isPatternMismatch = true)
    (h : f.lowerContraction storages names target free body = .error (.error cause)) :
    ∃ type terms p reason, f.varType? target = some (.tensor type) ∧ free.length = type.rank ∧
      body.terms = .ok terms ∧ storages.pattern? target = some p ∧
      cause = .patternMismatch target p reason ∧
      ∃ t ∈ terms, ∀ q, t.MaskedBy storages free q → q.subsetOf p = false := by
  obtain ⟨type, htype, h⟩ :=
    (TypeScope.onlyChecks_tensor _ target).neverMismatches.exists_ok hcause h
  obtain ⟨storage, hstorage, h⟩ := (avoids_orFail _ rfl).exists_ok hcause h
  let c : Contraction := ⟨storages, target, type, storage.kind, free⟩
  split at h
  · cases ((c.onlyChecks_malformed _).neverMismatches.error cause h).symm.trans hcause
  · next hlength =>
      obtain ⟨_, _, h⟩ := (c.onlyChecks_checkDestination ..).neverMismatches.exists_ok hcause h
      obtain ⟨terms, hterms, h⟩ := body.onlyChecks_terms.neverMismatches.exists_ok hcause h
      rcases Except.bind_eq_error h with hchecked | ⟨_, _, h⟩
      · obtain ⟨p, hkind, t, ht, hmask⟩ := Contraction.checkMask_of_checkTerms hcause hchecked
        obtain ⟨⟨reason, hreason⟩, hunmasked⟩ := c.unmasked_of_checkMask hmask
        refine ⟨type, terms, p, reason, Contraction.tensor_of_ofFunc htype, not_not.1 hlength,
          ofExcept_eq_ok_iff.1 hterms, ?_, hreason, t, ht, hunmasked⟩
        rw [Table.pattern?, orFail_eq_ok_iff.1 hstorage, Option.bind_some, TensorStorage.pattern?,
          show storage.kind = .sparse p from hkind]
      · obtain ⟨_, _, h⟩ := (c.onlyChecks_lowerTerms ..).neverMismatches.exists_ok hcause h
        cases h

/-- Lowering index expressions ends in a mismatch of patterns only at an assignment. -/
theorem Func.lowerContraction_of_lowerIndexExpressionsFrom {names : Nat} {body : List (Stmt α)}
    {cause : LowerError} (hcause : cause.isPatternMismatch = true)
    (h : f.lowerIndexExpressionsFrom storages names body = .error (.error cause)) :
    ∃ var free e names, .assign var (.index free e) ∈ body ∧
      f.lowerContraction storages names var free e = .error (.error cause) := by
  induction body generalizing names with
  | nil => cases h
  | cons s rest ih =>
      unfold lowerIndexExpressionsFrom at h
      split at h
      · contradiction
      · next target free e rest' heq =>
          cases heq
          rcases Except.bind_eq_error h with hs | ⟨_, _, h⟩
          · exact ⟨target, free, e, _, List.mem_cons_self .., hs⟩
          · obtain ⟨var, free, e, names, hmem, hs⟩ :=
              ih (Except.eq_error_of_bind_ok h)
            exact ⟨var, free, e, names, List.mem_cons_of_mem _ hmem, hs⟩
      · next heq =>
          cases heq
          obtain ⟨_, _, h⟩ := (avoids_failIf _ rfl).exists_ok hcause h
          obtain ⟨var, free, e, names, hmem, hs⟩ :=
            ih (Except.eq_error_of_bind_ok h)
          exact ⟨var, free, e, names, List.mem_cons_of_mem _ hmem, hs⟩

omit [Scalar α] in
theorem Func.mem_of_lowerAssembliesFrom {zeroed : List VarName} {body out : List (Stmt α)}
    (h : f.lowerAssembliesFrom storages zeroed body = .ok out) {var : VarName}
    {free : List IndexVar} {e : Expr α} (hs : .assign var (.index free e) ∈ out) :
    .assign var (.index free e) ∈ body := by
  induction body generalizing zeroed out with
  | nil =>
      obtain rfl := Except.ok.inj h
      exact hs
  | cons s rest ih =>
      cases hassemble : s.isAssemble with
      | true =>
          obtain ⟨targets, set, kernel, kernelBody, rfl⟩ := Stmt.exists_of_isAssemble hassemble
          obtain ⟨loop, later, hloop, hlater, rfl⟩ := lowerAssembliesFrom_assemble_eq_ok h
          obtain ⟨_, _, _, _, _, _, rfl⟩ := lowerAssembly_eq_loop hloop
          rcases List.mem_append.1 hs with hs | hs
          · obtain ⟨_, _, hzero⟩ := List.mem_map.1 hs
            cases hzero
          · rcases List.mem_cons.1 hs with hs | hs
            · cases hs
            · exact List.mem_cons_of_mem _ (ih hlater hs)
      | false =>
          obtain ⟨later, hlater, rfl⟩ := lowerAssembliesFrom_other hassemble h
          rcases List.mem_cons.1 hs with hs | hs
          · exact hs ▸ List.mem_cons_self ..
          · exact List.mem_cons_of_mem _ (ih hlater hs)

/-- The sums that are assigned to a tensor are masked alike: if one of them is masked, all are. -/
def Func.MaskedAlike (f : Func α) (storages : Storages) (var : VarName) : Prop :=
  ∀ free terms free' terms', f.Assigns var free terms → f.Assigns var free' terms' →
    storages.Mask free terms → storages.Mask free' terms'

/-- The tensor that a statement assigns an index expression to. -/
def Stmt.contracted? : Stmt α → Option VarName
  | .assign target (.index _ _) => some target
  | _ => none

theorem Func.maskedAlike_of_single {var : VarName}
    (h : (f.body.filter fun s => s.contracted? == some var).length ≤ 1) :
    f.MaskedAlike storages var := by
  rintro free terms free' terms' ⟨_, body, hbody, hterms⟩ ⟨_, body', hbody', hterms'⟩ hmask
  have hmem : ∀ {free body}, .assign var (.index free body) ∈ f.body →
      .assign var (.index free body) ∈ f.body.filter fun s => s.contracted? == some var :=
    fun hs => List.mem_filter.2 ⟨hs, beq_self_eq_true (some var)⟩
  have hsame : Stmt.assign var (.index free body) = .assign var (.index free' body') := by
    have hfirst := hmem hbody
    have hsecond := hmem hbody'
    generalize (f.body.filter fun s => s.contracted? == some var) = found at h hfirst hsecond
    match found with
    | [] => cases hfirst
    | [s] => rw [List.mem_singleton.1 hfirst, List.mem_singleton.1 hsecond]
    | _ :: _ :: _ => simp at h
  obtain ⟨_, hindex⟩ := Stmt.assign.inj hsame
  obtain ⟨rfl, rfl⟩ := Expr.index.inj hindex
  obtain rfl := Except.ok.inj (hterms.symm.trans hterms')
  exact hmask

/-- **Inferred patterns and the check of masks.** A matrix that no kernel writes is sparse if an
    assignment to it is masked, and dense otherwise. If its assignments are masked alike, then every
    term that is assigned to it is masked inside its pattern, and lowering does not find a mismatch
    of patterns for it. -/
theorem Func.maskedAlike_lowers {seed : Storages} {var : VarName} {type : TensorType}
    (h : f.inferStorageWith seed = .ok storages) (htype : f.tensorType? var = some type)
    (htable : f.tensors.get? var = some type) (hrank : type.rank = 2)
    (hseed : seed.get? var = none) (hunwritten : f.kernelWrites var = false) :
    (∃ s, storages.get? var = some s ∧
      ((∃ p, s.kind = .sparse p) ∧ (∃ free terms, f.Assigns var free terms ∧ storages.Mask free terms) ∨
        s.kind = .dense ∧ ∀ free terms, f.Assigns var free terms → ¬ storages.Mask free terms)) ∧
    (f.MaskedAlike storages var →
      (∀ p, storages.pattern? var = some p → ∀ free terms, f.Assigns var free terms →
        ∀ t ∈ terms, ∃ q, t.MaskedBy storages free q ∧ q.subsetOf p = true) ∧
      ∀ assembled, f.lowerAssemblies storages = .ok assembled → ∀ p reason,
        assembled.lowerIndexExpressions storages ≠
          .error (.error (.patternMismatch var p reason))) := by
  obtain ⟨hwithin, hmasked⟩ := mask_of_inferStorageWith h htable hseed hunwritten
  have hall : f.MaskedAlike storages var → ∀ p, storages.pattern? var = some p →
      ∀ free terms, f.Assigns var free terms →
        ∀ t ∈ terms, ∃ q, t.MaskedBy storages free q ∧ q.subsetOf p = true := by
    intro halike p hp free terms hassigns
    obtain ⟨free', terms', hassigns', hmask⟩ := hmasked p hp
    obtain ⟨p', hp', hterms⟩ :=
      hwithin free terms hassigns (halike _ _ _ _ hassigns' hassigns hmask)
    obtain rfl := Option.some.inj (hp'.symm.trans hp)
    exact hterms
  refine ⟨?_, fun halike => ⟨hall halike, fun assembled hassembled p reason hmismatch => ?_⟩⟩
  · obtain ⟨s, hs, hdense | ⟨p, hp⟩⟩ := sparse_or_dense_of_inferStorageWith h htable hrank hseed
    · refine ⟨s, hs, Or.inr ⟨hdense, fun free terms hassigns hmask => ?_⟩⟩
      obtain ⟨p, hp, _⟩ := hwithin free terms hassigns hmask
      simp [Table.pattern?, hs, TensorStorage.pattern?, hdense] at hp
    · refine ⟨s, hs, Or.inl ⟨⟨p, hp⟩, hmasked p ?_⟩⟩
      simp [Table.pattern?, hs, TensorStorage.pattern?, hp]
  · obtain ⟨body, hbody, hassembled⟩ := Outcome.bind_eq_ok_iff.1 hassembled
    obtain rfl := Except.ok.inj hassembled
    obtain ⟨target, free, e, names, hmem, hlower⟩ := lowerContraction_of_lowerIndexExpressionsFrom rfl
      (Except.eq_error_of_bind_ok hmismatch)
    obtain ⟨type', terms, p', reason', htype', hlength, hterms, hp', hcause, t, ht, hunmasked⟩ :=
      unmasked_of_lowerContraction rfl hlower
    obtain ⟨rfl, rfl, rfl⟩ := LowerError.patternMismatch.inj hcause
    have hsame : type' = type := by
      have htype' : f.varType? var = some (.tensor type') := htype'
      rw [Func.tensorType?, htype'] at htype
      exact Option.some.inj htype
    have hassigns : f.Assigns var free terms :=
      ⟨hlength.trans (hsame ▸ hrank), e, mem_of_lowerAssembliesFrom hbody hmem, hterms⟩
    obtain ⟨q, hmask, hsub⟩ := hall halike p hp' free terms hassigns t ht
    cases (hunmasked q hmask).symm.trans hsub

end

/-- A matrix takes the sum of one over edges and of a diagonal, the pattern of which is found in
    another assignment: the edges have the diagonal among them and mask both. -/
theorem maskedSum_lowers :
    let f := twoAssignments
      (assignSquare "b" fun entry => .binary .add (entry "a") (entry "u"))
      (assignSquare "u" fun entry => entry "d")
    ∃ storages, f.inferStorageWith Table.empty = .ok storages ∧
      storages.pattern? "b" = some (.square "E" "V") ∧
      (∀ free terms, f.Assigns "b" free terms → ∀ t ∈ terms,
        ∃ q, t.MaskedBy storages free q ∧ q.subsetOf (.square "E" "V") = true) ∧
      ∃ assembled, f.lowerAssemblies storages = .ok assembled ∧
        ∀ p reason, assembled.lowerIndexExpressions storages ≠
          .error (.error (.patternMismatch "b" p reason)) := by
  intro f
  obtain ⟨storages, hstorages, hpattern, hassembles⟩ : ∃ storages,
      f.inferStorageWith Table.empty = .ok storages ∧
        storages.pattern? "b" = some (.square "E" "V") ∧
        (f.lowerAssemblies storages).isOk = true := by
    decide +kernel
  obtain ⟨assembled, hassembled⟩ : ∃ assembled, f.lowerAssemblies storages = .ok assembled := by
    cases h : f.lowerAssemblies storages with
    | ok assembled => exact ⟨assembled, rfl⟩
    | error fault =>
        rw [h] at hassembles
        cases hassembles
  have hsingle : (f.body.filter fun s => s.contracted? == some "b").length ≤ 1 := by decide +kernel
  obtain ⟨hmasked, hlowers⟩ := (Func.maskedAlike_lowers hstorages
    (show f.tensorType? "b" = some (.matrix "V" "V" .scalar) by decide +kernel) (by decide +kernel)
    rfl rfl (by decide +kernel)).2 (Func.maskedAlike_of_single hsingle)
  exact ⟨storages, hstorages, hpattern, hmasked _ hpattern, assembled, hassembled,
    hlowers assembled hassembled⟩

/-- A matrix that takes the entries of one over edges and then those of a dense one is sparse, and
    lowering finds nothing that masks the second assignment. -/
theorem laterCopy_mismatches :
    let f := twoAssignments (assignSquare "b" fun entry => entry "a")
      (assignSquare "b" fun entry => entry "u")
    f.tensorType? "b" = some (.matrix "V" "V" .scalar) ∧ f.kernelWrites "b" = false ∧
      ∃ storages, f.inferStorage = .ok storages ∧ storages.pattern? "b" = some (.square "E" "V") ∧
        storages.get? "u" = some ⟨.dense, .scalar⟩ ∧
        ∃ assembled, f.lowerAssemblies storages = .ok assembled ∧
          assembled.lowerIndexExpressions storages =
            .error (.error (.patternMismatch "b" (.square "E" "V") .noOperand)) := by
  intro f
  obtain ⟨storages, hstorages, hb, hu, assembled, hassembled, fault, hfault, rfl⟩ : ∃ storages,
      f.inferStorage = .ok storages ∧ storages.pattern? "b" = some (.square "E" "V") ∧
        storages.get? "u" = some ⟨.dense, .scalar⟩ ∧
        ∃ assembled, f.lowerAssemblies storages = .ok assembled ∧
          ∃ fault, assembled.lowerIndexExpressions storages = .error fault ∧
            fault = .error (.patternMismatch "b" (.square "E" "V") .noOperand) := by
    decide +kernel
  exact ⟨by decide +kernel, by decide +kernel, storages, hstorages, hb, hu, assembled, hassembled,
    hfault⟩

end GraphTensor
