import GraphTensor.Lowering.Terms
import GraphTensor.Proofs.Machine.Frames
import GraphTensor.Proofs.Outcome
set_option autoImplicit false

/-! # Expanded bodies

The expansion follows the body (`Expr.Expands`): a part without indices is a factor, an operand is
one too, and sums, products and quotients are built from the expansions of their sides. What holds
of the factors is shown by induction on this, and not on the function that computes it. -/

namespace GraphTensor

variable {α : Type}

/-- The names that a factor reads. -/
def Factor.reads : Factor α → List VarName
  | tensor operand => [operand.tensor]
  | scalar value => value.reads

variable [Scalar α]

/-- The signed products whose sum an expression is, side by side with the expression. An operation
    is taken apart only where an operand occurs in it. -/
inductive Expr.Expands : Expr α → List (Term α) → Prop where
  /-- An expression without indices is one factor. -/
  | scalar {e : Expr α} (h : e.hasIndexed = false) : Expands e [⟨false, [.scalar e]⟩]
  /-- So is an operand. -/
  | indexed (operand : IndexedTensor) : Expands (.indexed operand) [⟨false, [.tensor operand]⟩]
  /-- All signs change. -/
  | neg {inner : Expr α} {ts : List (Term α)} (hi : (Expr.neg inner).hasIndexed = true)
      (h : Expands inner ts) : Expands (.neg inner) (ts.map Term.negate)
  /-- The products of both sides. -/
  | add {lhs rhs : Expr α} {left right : List (Term α)}
      (hi : (Expr.binary .add lhs rhs).hasIndexed = true) (hl : Expands lhs left)
      (hr : Expands rhs right) : Expands (.binary .add lhs rhs) (left ++ right)
  /-- The products of the right side change their signs. -/
  | sub {lhs rhs : Expr α} {left right : List (Term α)}
      (hi : (Expr.binary .sub lhs rhs).hasIndexed = true) (hl : Expands lhs left)
      (hr : Expands rhs right) :
      Expands (.binary .sub lhs rhs) (left ++ right.map Term.negate)
  /-- Every product of one side times every product of the other. -/
  | mul {lhs rhs : Expr α} {left right : List (Term α)}
      (hi : (Expr.binary .mul lhs rhs).hasIndexed = true) (hl : Expands lhs left)
      (hr : Expands rhs right) :
      Expands (.binary .mul lhs rhs) (left.flatMap fun l => right.map fun r => l.mul r)
  /-- The reciprocal of a divisor without indices is the last factor. -/
  | div {lhs rhs : Expr α} {left : List (Term α)}
      (hi : (Expr.binary .div lhs rhs).hasIndexed = true) (hl : Expands lhs left)
      (hr : rhs.hasIndexed = false) :
      Expands (.binary .div lhs rhs) (left.map fun t => t.append (.scalar rhs.reciprocal))

namespace Expr

/-- The expansion of a body is what its form says. -/
theorem expands_of_terms (e : Expr α) {ts : List (Term α)} (h : e.terms = .ok ts) :
    e.Expands ts := by
  cases hindexed : e.hasIndexed with
  | false =>
      unfold terms at h
      rw [hindexed] at h
      obtain rfl := Except.ok.inj h
      exact .scalar hindexed
  | true =>
      match e with
      | .indexed operand =>
          obtain rfl := Except.ok.inj h
          exact .indexed operand
      | .neg inner =>
          rw [terms, if_pos hindexed] at h
          obtain ⟨found, hfound, h⟩ := Except.bind_eq_ok h
          obtain rfl := Except.ok.inj h
          exact .neg hindexed (expands_of_terms inner hfound)
      | .binary .add lhs rhs =>
          rw [terms, if_pos hindexed] at h
          obtain ⟨left, hleft, h⟩ := Except.bind_eq_ok h
          obtain ⟨right, hright, h⟩ := Except.bind_eq_ok h
          obtain rfl := Except.ok.inj h
          exact .add hindexed (expands_of_terms lhs hleft) (expands_of_terms rhs hright)
      | .binary .sub lhs rhs =>
          rw [terms, if_pos hindexed] at h
          obtain ⟨left, hleft, h⟩ := Except.bind_eq_ok h
          obtain ⟨right, hright, h⟩ := Except.bind_eq_ok h
          obtain rfl := Except.ok.inj h
          exact .sub hindexed (expands_of_terms lhs hleft) (expands_of_terms rhs hright)
      | .binary .mul lhs rhs =>
          rw [terms, if_pos hindexed] at h
          obtain ⟨left, hleft, h⟩ := Except.bind_eq_ok h
          obtain ⟨right, hright, h⟩ := Except.bind_eq_ok h
          obtain rfl := Except.ok.inj h
          exact .mul hindexed (expands_of_terms lhs hleft) (expands_of_terms rhs hright)
      | .binary .div lhs rhs =>
          rw [terms, if_pos hindexed] at h
          split at h
          · cases h
          · next hdivisor =>
              obtain ⟨left, hleft, h⟩ := Except.bind_eq_ok h
              obtain rfl := Except.ok.inj h
              exact .div hindexed (expands_of_terms lhs hleft) (Bool.eq_false_iff.2 hdivisor)
      | .literal _ | .var _ | .endpoint _ _ | .endpointOf _ _ _ | .elementField _ _ | .fieldLoad _ _ _
      | .field _ _ | .index _ _ | .tensorRead _ _ _ | .setSize _ | .locate _ _ _ _ | .load _ _ _
      | .sparseLoad _ _ _ => simp [terms, hindexed] at h
termination_by structural e

theorem Expands.terms_eq {e : Expr α} {ts : List (Term α)} (h : e.Expands ts) :
    e.terms = .ok ts := by
  induction h with
  | scalar h =>
      unfold terms
      rw [h]
      rfl
  | indexed operand => rfl
  | neg hi _ ih =>
      rw [terms, if_pos hi, ih]
      rfl
  | add hi _ _ ihl ihr =>
      rw [terms, if_pos hi, ihl, ihr]
      rfl
  | sub hi _ _ ihl ihr =>
      rw [terms, if_pos hi, ihl, ihr]
      rfl
  | mul hi _ _ ihl ihr =>
      rw [terms, if_pos hi, ihl, ihr]
      rfl
  | div hi _ hr ih =>
      rw [terms, if_pos hi, hr, ih]
      rfl

theorem Expands.ne_nil {e : Expr α} {ts : List (Term α)} (h : e.Expands ts) : ts ≠ [] := by
  induction h with
  | scalar _ => exact List.cons_ne_nil _ _
  | indexed _ => exact List.cons_ne_nil _ _
  | neg _ _ ih => simpa using ih
  | add _ _ _ ihl _ => exact List.append_ne_nil_of_left_ne_nil ihl _
  | sub _ _ _ ihl _ => exact List.append_ne_nil_of_left_ne_nil ihl _
  | mul _ _ _ ihl ihr =>
      obtain ⟨l, hl⟩ := List.exists_mem_of_ne_nil _ ihl
      obtain ⟨r, hr⟩ := List.exists_mem_of_ne_nil _ ihr
      exact List.ne_nil_of_mem (List.mem_flatMap.2 ⟨l, hl, List.mem_map_of_mem hr⟩)
  | div _ _ _ ih => simpa using ih

/-- The factors of the expanded body read what the body reads. -/
theorem Expands.reads {e : Expr α} {ts : List (Term α)} (h : e.Expands ts) :
    ∀ t ∈ ts, ∀ factor ∈ t.factors, factor.reads ⊆ e.reads := by
  induction h with
  | scalar _ =>
      intro t ht factor hfactor
      obtain rfl := List.mem_singleton.1 ht
      obtain rfl := List.mem_singleton.1 hfactor
      exact fun _ hname => hname
  | indexed operand =>
      intro t ht factor hfactor
      obtain rfl := List.mem_singleton.1 ht
      obtain rfl := List.mem_singleton.1 hfactor
      exact fun _ hname => hname
  | neg _ _ ih =>
      intro t ht factor hfactor
      obtain ⟨t', ht', rfl⟩ := List.mem_map.1 ht
      exact ih t' ht' factor hfactor
  | add _ _ _ ihl ihr =>
      intro t ht factor hfactor
      rw [reads_binary]
      rcases List.mem_append.1 ht with ht | ht
      · exact List.subset_append_of_subset_left _ (ihl t ht factor hfactor)
      · exact List.subset_append_of_subset_right _ (ihr t ht factor hfactor)
  | sub _ _ _ ihl ihr =>
      intro t ht factor hfactor
      rw [reads_binary]
      rcases List.mem_append.1 ht with ht | ht
      · exact List.subset_append_of_subset_left _ (ihl t ht factor hfactor)
      · obtain ⟨t', ht', rfl⟩ := List.mem_map.1 ht
        exact List.subset_append_of_subset_right _ (ihr t' ht' factor hfactor)
  | mul _ _ _ ihl ihr =>
      intro t ht factor hfactor
      rw [reads_binary]
      obtain ⟨l, hl, ht⟩ := List.mem_flatMap.1 ht
      obtain ⟨r, hr, rfl⟩ := List.mem_map.1 ht
      rcases List.mem_append.1 hfactor with hfactor | hfactor
      · exact List.subset_append_of_subset_left _ (ihl l hl factor hfactor)
      · exact List.subset_append_of_subset_right _ (ihr r hr factor hfactor)
  | div _ _ _ ih =>
      intro t ht factor hfactor
      rw [reads_binary]
      obtain ⟨t', ht', rfl⟩ := List.mem_map.1 ht
      rcases List.mem_append.1 hfactor with hfactor | hfactor
      · exact List.subset_append_of_subset_left _ (ih t' ht' factor hfactor)
      · obtain rfl := List.mem_singleton.1 hfactor
        exact List.subset_append_of_subset_right _ fun _ hname => hname

end Expr

end GraphTensor
