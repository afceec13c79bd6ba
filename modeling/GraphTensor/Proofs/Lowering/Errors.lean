import GraphTensor.Lowering.Basic
import GraphTensor.Proofs.Outcome
set_option autoImplicit false

/-! # Errors of checks

Typing, the checks of the terms of an index expression, the building of their loop nests and the
resolving of a kernel's expressions fail in checks of what the program says (`LowerError.isCheck`):
a name is not declared, domains or blocks do not agree, or a construct is not supported. Neither do
they look for descriptors nor for what earlier passes have left, and they compare no patterns. -/

namespace GraphTensor

variable {α : Type}

/-- An error of a check that involves neither patterns nor descriptors. -/
def LowerError.isCheck : LowerError → Bool
  | indexDomainMismatch _ _ _ _ => true
  | shapeMismatch _ _ _ => true
  | malformedIndexExpression _ _ => true
  | unknownSet _ => true
  | unknownField _ _ => true
  | unknownVariable _ => true
  | unsupportedConstruct _ => true
  | _ => false

/-- A part of lowering fails in checks only. -/
abbrev Lowered.OnlyChecks {β : Type} (o : Lowered β) : Prop :=
  o.Avoids fun e => !e.isCheck

open Outcome

/-! ## Types -/

theorem Func.onlyChecks_findSet (f : Func α) (set : SetName) :
    (f.findSet set).OnlyChecks :=
  avoids_orFail _ rfl

namespace TypeScope

variable (s : TypeScope α)

theorem onlyChecks_lookup (name : VarName) : (s.lookup name).OnlyChecks := by
  unfold lookup
  split
  · exact avoids_ok _
  · exact avoids_orFail _ rfl

theorem onlyChecks_tensor (name : VarName) : (s.tensor name).OnlyChecks := by
  unfold tensor
  split
  · exact avoids_ok _
  · exact avoids_fail rfl
  · exact avoids_fail rfl

theorem onlyChecks_endpointType (relation : SetName) (slot : Nat) :
    (s.endpointType relation slot).OnlyChecks := by
  refine (s.func.onlyChecks_findSet relation).bind fun decl _ => ?_
  split
  · exact avoids_fail rfl
  · split
    · exact avoids_fail rfl
    · exact avoids_ok _

theorem onlyChecks_fieldType (set : SetName) (field : FieldName) :
    (s.fieldType set field).OnlyChecks := by
  refine (s.func.onlyChecks_findSet set).bind fun decl _ => ?_
  split
  · exact avoids_ok _
  · exact avoids_ok _
  · exact avoids_fail rfl

end TypeScope

theorem BinaryOp.onlyChecks_resultType (op : BinaryOp) (lhs rhs : ValueType) :
    (op.resultType lhs rhs).OnlyChecks := by
  unfold resultType
  split
  · exact avoids_ok _
  · exact avoids_orFail _ rfl
  · exact avoids_fail rfl

theorem ValueType.onlyChecks_expectElement (type : ValueType) :
    type.expectElement.OnlyChecks := by
  unfold expectElement
  split
  · exact avoids_ok _
  · exact avoids_ok _
  · exact avoids_fail rfl

theorem Literal.onlyChecks_type (value : Literal α) : value.type.OnlyChecks := by
  unfold Literal.type
  split
  · exact avoids_ok _
  · exact avoids_ok _
  · exact avoids_ok _
  · refine (avoids_orAbort _).bind fun count _ => ?_
    split
    · exact avoids_fail rfl
    · exact avoids_ok _

namespace TypeScope

mutual

theorem onlyChecks_typeOf (s : TypeScope α) (e : Expr α) : (s.typeOf e).OnlyChecks := by
  match e with
  | .literal value =>
      rw [typeOf]
      exact value.onlyChecks_type
  | .var name =>
      rw [typeOf]
      exact s.onlyChecks_lookup name
  | .endpoint endpoints slot =>
      rw [typeOf]
      refine (s.onlyChecks_lookup endpoints).bind fun type _ => ?_
      split
      · exact s.onlyChecks_endpointType _ _
      · exact avoids_fail rfl
  | .endpointOf set element slot =>
      rw [typeOf]
      exact (onlyChecks_typeOf s element).bind fun type _ =>
        type.onlyChecks_expectElement.bind fun _ _ => s.onlyChecks_endpointType _ _
  | .elementField element field =>
      rw [typeOf]
      refine (s.onlyChecks_lookup element).bind fun type _ => ?_
      split
      · exact s.onlyChecks_fieldType _ _
      · exact avoids_fail rfl
  | .fieldLoad set field element =>
      rw [typeOf]
      exact (onlyChecks_typeOf s element).bind fun type _ =>
        type.onlyChecks_expectElement.bind fun _ _ => s.onlyChecks_fieldType _ _
  | .field set field =>
      rw [typeOf]
      refine (s.onlyChecks_fieldType set field).bind fun type _ => ?_
      split
      · exact avoids_ok _
      · exact avoids_fail rfl
  | .binary op lhs rhs =>
      rw [typeOf]
      exact (onlyChecks_typeOf s lhs).bind fun _ _ => (onlyChecks_typeOf s rhs).bind
        fun _ _ => op.onlyChecks_resultType _ _
  | .neg inner =>
      rw [typeOf]
      refine (onlyChecks_typeOf s inner).bind fun type _ => ?_
      split
      · exact avoids_ok _
      · exact avoids_ok _
      · exact avoids_fail rfl
  | .tensorRead tensor indices position =>
      rw [typeOf]
      refine (s.onlyChecks_tensor tensor).bind fun type _ => ?_
      split
      · exact avoids_fail rfl
      · exact (onlyChecks_checkIndices s tensor indices type.dims 0).bind
          fun _ _ => avoids_ok _
  | .setSize set =>
      rw [typeOf]
      exact (s.func.onlyChecks_findSet set).bind fun _ _ => avoids_ok _
  | .index free body =>
      rw [typeOf]
      exact avoids_fail rfl
  | .indexed operand =>
      rw [typeOf]
      exact avoids_fail rfl
  | .locate pattern row col search =>
      rw [typeOf]
      exact avoids_ok _
  | .load buffer offset block =>
      rw [typeOf]
      exact avoids_ok _
  | .sparseLoad buffer position block =>
      rw [typeOf]
      exact avoids_ok _
termination_by structural e

theorem onlyChecks_checkIndices (s : TypeScope α) (tensor : VarName)
    (indices : List (Expr α)) (dims : List IndexDomain) (place : Nat) :
    (s.checkIndices tensor indices dims place).OnlyChecks := by
  match indices, dims with
  | [], _ =>
      rw [checkIndices]
      exact avoids_ok _
  | _ :: _, [] =>
      rw [checkIndices]
      exact avoids_ok _
  | index :: rest, dim :: dims =>
      rw [checkIndices]
      refine (onlyChecks_typeOf s index).bind fun type _ => ?_
      split
      · exact onlyChecks_checkIndices s tensor rest dims (place + 1)
      · exact avoids_fail rfl
termination_by structural indices

end

theorem onlyChecks_blockOf (s : TypeScope α) (e : Expr α) (site : Site) :
    (s.blockOf e site).OnlyChecks := by
  refine (s.onlyChecks_typeOf e).bind fun type _ => ?_
  split
  · exact avoids_ok _
  · exact avoids_fail rfl

end TypeScope

/-! ## Checks of a term -/

namespace Contraction

variable (c : Contraction)

theorem onlyChecks_malformed {β : Type} (reason : Malformation) :
    (c.malformed reason : Lowered β).OnlyChecks :=
  avoids_fail rfl

theorem onlyChecks_countIndices (tensor : VarName) (seen : Occurrences) (is : List IndexVar)
    (dims : List IndexDomain) : (c.countIndices tensor seen is dims).OnlyChecks := by
  induction is generalizing seen dims with
  | nil => exact avoids_ok _
  | cons i rest ih =>
      cases dims with
      | nil => exact avoids_ok _
      | cons dim dims =>
          refine Avoids.bind ?_ fun seen _ => ih seen dims
          unfold countIndex
          split
          · exact avoids_fail rfl
          · split
            · exact avoids_ok _
            · split
              · exact avoids_fail rfl
              · exact avoids_ok _

theorem onlyChecks_checkFactor (scope : TypeScope α) (seen : Occurrences)
    (factor : Factor α) : (c.checkFactor scope seen factor).OnlyChecks := by
  cases factor with
  | scalar value => exact (scope.onlyChecks_blockOf value _).bind fun _ _ => avoids_ok _
  | tensor operand =>
      refine (scope.onlyChecks_tensor operand.tensor).bind fun type _ => ?_
      split
      · exact c.onlyChecks_malformed _
      · exact (c.onlyChecks_countIndices ..).bind fun _ _ => avoids_ok _

theorem onlyChecks_productBlock (product : Option BlockShape) (factor : BlockShape) :
    (c.productBlock product factor).OnlyChecks := by
  cases product with
  | none => exact avoids_ok _
  | some block => exact avoids_orFail _ rfl

theorem onlyChecks_checkFactors (scope : TypeScope α) (seen : Occurrences)
    (product : Option BlockShape) (factors : List (Factor α)) :
    (c.checkFactors scope seen product factors).OnlyChecks := by
  induction factors generalizing seen product with
  | nil => exact avoids_ok _
  | cons factor rest ih =>
      exact (c.onlyChecks_checkFactor scope seen factor).bind fun _ _ =>
        (c.onlyChecks_productBlock product _).bind fun _ _ => ih _ _

theorem onlyChecks_checkFree (seen : Occurrences) (i : IndexVar) :
    (c.checkFree seen i).OnlyChecks := by
  unfold checkFree
  split
  · exact c.onlyChecks_malformed _
  · exact avoids_failIf _ rfl

theorem onlyChecks_summed (entries : List (String × IndexDomain × Nat)) :
    (c.summed entries).OnlyChecks := by
  induction entries with
  | nil => exact avoids_ok _
  | cons entry rest ih =>
      unfold summed
      split
      · exact ih
      · split
        · exact c.onlyChecks_malformed _
        · exact ih.bind fun _ _ => avoids_ok _

theorem onlyChecks_checkDestination (earlier : List String) (is : List IndexVar)
    (dims : List IndexDomain) : (c.checkDestination earlier is dims).OnlyChecks := by
  induction is generalizing earlier dims with
  | nil => exact avoids_ok _
  | cons i rest ih =>
      cases dims with
      | nil => exact avoids_ok _
      | cons dim dims =>
          unfold checkDestination
          split
          · exact avoids_fail rfl
          · split
            · exact c.onlyChecks_malformed _
            · exact ih _ dims

end Contraction

/-! ## Loop nests -/

theorem Nest.onlyChecks_index (n : Nest α) (name : String) :
    (n.index name).OnlyChecks :=
  avoids_orFail _ rfl

theorem Nest.onlyChecks_indices (n : Nest α) (is : List IndexVar) :
    (n.indices is).OnlyChecks := by
  induction is with
  | nil => exact avoids_ok _
  | cons i rest ih =>
      exact (n.onlyChecks_index _).bind fun _ _ => ih.bind fun _ _ => avoids_ok _

namespace Contraction

variable (c : Contraction)

theorem onlyChecks_patternLoop (n : Nest α) (p : PatternRef) (t : Term α) :
    (c.patternLoop n p t).OnlyChecks := by
  unfold patternLoop
  split
  · exact avoids_ok _
  · exact avoids_abort

theorem onlyChecks_drivenLoop (n : Nest α) (var : VarName) (domain : IndexDomain)
    (drivers : List (Nat × VarName × String × PatternRef)) :
    (drivenLoop n var domain drivers).OnlyChecks := by
  match drivers with
  | [] => exact avoids_ok _
  | [_] => exact (Nest.onlyChecks_index ..).bind fun _ _ => avoids_ok _
  | _ :: _ :: _ =>
      exact (Nest.onlyChecks_index ..).bind fun _ _ =>
        (Nest.onlyChecks_index ..).bind fun _ _ => avoids_ok _

theorem onlyChecks_summedLoops (t : Term α) (n : Nest α) (is : List IndexVar) :
    (c.summedLoops t n is).OnlyChecks := by
  induction is generalizing n with
  | nil => exact avoids_ok _
  | cons i rest ih =>
      refine Avoids.bind ?_ fun n _ => ih n
      exact (onlyChecks_drivenLoop ..).bind fun _ _ => avoids_ok _

theorem onlyChecks_factorValue (n : Nest α) (place : Nat) (factor : Factor α) :
    (factorValue n place factor).OnlyChecks := by
  cases factor with
  | scalar value => exact avoids_ok _
  | tensor operand => exact (n.onlyChecks_indices _).bind fun _ _ => avoids_ok _

theorem onlyChecks_productValue (n : Nest α) (place : Nat) (left : Expr α)
    (factors : List (Factor α)) : (productValue n place left factors).OnlyChecks := by
  induction factors generalizing place left with
  | nil => exact avoids_ok _
  | cons factor rest ih =>
      exact (onlyChecks_factorValue n place factor).bind fun _ _ => ih _ _

theorem onlyChecks_termValue (n : Nest α) (t : Term α) :
    (c.termValue n t).OnlyChecks := by
  unfold termValue
  split
  · exact c.onlyChecks_malformed _
  · exact (onlyChecks_factorValue ..).bind fun _ _ =>
      (onlyChecks_productValue ..).bind fun _ _ => avoids_ok _

theorem onlyChecks_lowerTerm (names : Nat) (t : Term α) (bound : List IndexVar) :
    (c.lowerTerm names t bound).OnlyChecks := by
  have hnest : ∀ n position, Lowered.OnlyChecks (do
      let n ← c.summedLoops t n bound
      let value ← c.termValue n t
      let indices ← n.indices c.free
      return (n.names, n.wrap (.tensorWrite c.target indices position value true))) := by
    intro n position
    exact (c.onlyChecks_summedLoops ..).bind fun _ _ =>
      (c.onlyChecks_termValue ..).bind fun _ _ =>
        (Nest.onlyChecks_indices ..).bind fun _ _ => avoids_ok _
  unfold lowerTerm
  dsimp only
  split
  · exact (c.onlyChecks_patternLoop ..).bind fun _ _ => hnest _ _
  · exact hnest _ _

theorem onlyChecks_lowerTerms (names : Nat) (checked : List (Term α × List IndexVar)) :
    (c.lowerTerms names checked).OnlyChecks := by
  induction checked generalizing names with
  | nil => exact avoids_ok _
  | cons entry rest ih =>
      exact (c.onlyChecks_lowerTerm ..).bind fun _ _ => (ih _).bind fun _ _ => avoids_ok _

end Contraction

/-! ## Functions -/

section

variable [Scalar α]

theorem Expr.isCheck_of_terms {e : Expr α} {cause : LowerError}
    (h : e.terms = .error cause) : cause.isCheck = true := by
  fun_induction Expr.terms e with
  | case1 operand => cases h
  | case2 inner _ ih =>
      rcases Except.bind_eq_error h with h | ⟨_, _, h⟩
      · exact ih h
      · cases h
  | case3 lhs rhs _ ihl ihr | case4 lhs rhs _ ihl ihr | case5 lhs rhs _ ihl ihr =>
      rcases Except.bind_eq_error h with h | ⟨_, _, h⟩
      · exact ihl h
      · rcases Except.bind_eq_error h with h | ⟨_, _, h⟩
        · exact ihr h
        · cases h
  | case6 lhs rhs =>
      cases h
      rfl
  | case7 lhs rhs _ _ ih =>
      rcases Except.bind_eq_error h with h | ⟨_, _, h⟩
      · exact ih h
      · cases h
  | case8 other =>
      cases h
      rfl
  | case9 e => cases h

theorem Expr.onlyChecks_terms (e : Expr α) :
    Lowered.OnlyChecks (ofExcept e.terms) := by
  cases h : e.terms with
  | error cause => exact avoids_fail (congrArg Bool.not (isCheck_of_terms h))
  | ok terms => exact avoids_ok terms

end

/-! ## Kernels -/

theorem KernelVars.onlyChecks_check (k : KernelVars) (set : SetDecl) :
    (k.check set).OnlyChecks := by
  refine (avoids_failIf _ rfl).bind fun _ _ => ?_
  split
  · exact avoids_ok _
  · exact avoids_failIf _ rfl

namespace KernelContext

variable (c : KernelContext)

mutual

/-- An expression of a kernel is resolved, or refused as not supported. -/
theorem onlyChecks_resolve (e : Expr α) : (c.resolve e).OnlyChecks := by
  match e with
  | .literal value =>
      rw [resolve]
      exact avoids_ok _
  | .var name =>
      rw [resolve]
      exact avoids_ok _
  | .setSize set =>
      rw [resolve]
      exact avoids_ok _
  | .endpoint endpoints slot =>
      rw [resolve]
      exact avoids_ok _
  | .elementField element field =>
      rw [resolve]
      split
      · exact avoids_fail rfl
      · exact avoids_ok _
  | .tensorRead tensor indices position =>
      rw [resolve]
      split
      · exact avoids_fail rfl
      · exact (onlyChecks_resolveList indices).bind fun _ _ => avoids_ok _
  | .binary op lhs rhs =>
      rw [resolve]
      exact (onlyChecks_resolve lhs).bind fun _ _ =>
        (onlyChecks_resolve rhs).bind fun _ _ => avoids_ok _
  | .neg inner =>
      rw [resolve]
      exact (onlyChecks_resolve inner).bind fun _ _ => avoids_ok _
  | .endpointOf set element slot =>
      rw [resolve]
      exact (onlyChecks_resolve element).bind fun _ _ => avoids_ok _
  | .fieldLoad set field element =>
      rw [resolve]
      exact (onlyChecks_resolve element).bind fun _ _ => avoids_ok _
  | .field set field =>
      rw [resolve]
      exact avoids_fail rfl
  | .index free body =>
      rw [resolve]
      exact avoids_fail rfl
  | .indexed operand =>
      rw [resolve]
      exact avoids_fail rfl
  | .locate pattern row col search =>
      rw [resolve]
      exact avoids_fail rfl
  | .load buffer offset block =>
      rw [resolve]
      exact avoids_fail rfl
  | .sparseLoad buffer position block =>
      rw [resolve]
      exact avoids_fail rfl
termination_by structural e

theorem onlyChecks_resolveList (es : List (Expr α)) : (c.resolveList es).OnlyChecks := by
  match es with
  | [] =>
      rw [resolveList]
      exact avoids_ok _
  | e :: rest =>
      rw [resolveList]
      exact (onlyChecks_resolve e).bind fun _ _ =>
        (onlyChecks_resolveList rest).bind fun _ _ => avoids_ok _
termination_by structural es

end

theorem onlyChecks_roles (scope : TypeScope α) (target : VarName) (indices : List (Expr α))
    (dims : List IndexDomain) (place : Nat) :
    (c.roles scope target indices dims place).OnlyChecks := by
  induction indices generalizing dims place with
  | nil =>
      rw [roles]
      exact avoids_ok _
  | cons index rest ih =>
      cases dims with
      | nil =>
          rw [roles]
          exact avoids_ok _
          rintro ⟨⟩
      | cons dim dims =>
          rw [roles]
          refine (avoids_orFail _ rfl).bind fun _ _ =>
            (scope.onlyChecks_typeOf index).bind fun type _ => ?_
          split
          · split
            · exact (ih dims (place + 1)).bind fun _ _ => avoids_ok _
            · exact avoids_fail rfl
          · exact avoids_fail rfl

theorem onlyChecks_localType (scope : TypeScope α) (name : VarName) (value : Expr α) :
    (localType scope name value).OnlyChecks := by
  refine (scope.onlyChecks_typeOf value).bind fun type _ => ?_
  split
  · exact avoids_fail rfl
  · exact avoids_ok _

end KernelContext

end GraphTensor
