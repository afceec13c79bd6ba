import GraphTensor.Machine.Eval
import GraphTensor.Proofs.Outcome
set_option autoImplicit false

/-! # Expressions that have a value

An expression has a value exactly if its operands have values that the operation takes. Each lemma
says so for one kind of expression, so that a proof about values names the operands' values at once
and `Machine.eval` need not be opened again. -/

namespace GraphTensor

variable {α : Type}

theorem Value.ofCount_of_map {size : Ran Nat} {v : Value α}
    (h : size.map Value.ofCount = .ok v) : ∃ n, size = .ok n ∧ v = .ofCount n := by
  cases size with
  | error cause => cases h
  | ok n => exact ⟨n, rfl, (Except.ok.inj h).symm⟩

namespace Machine

variable [Scalar α] {m : Machine α} {mem : Memory α} {v : Value α}

theorem eval_setSize_eq_ok {set : SetName} (h : m.eval mem (.setSize set) = .ok v) :
    ∃ n, m.resolution.size set = .ok n ∧ v = .ofCount n := by
  rw [eval] at h
  exact Value.ofCount_of_map h

theorem eval_binary_eq_ok_iff {op : BinaryOp} {lhs rhs : Expr α} :
    m.eval mem (.binary op lhs rhs) = .ok v ↔
      ∃ x y, m.eval mem lhs = .ok x ∧ m.eval mem rhs = .ok y ∧ Value.operate op x y = .ok v := by
  refine Outcome.bind_eq_ok_iff.trans ?_
  simp only [Outcome.bind_eq_ok_iff, exists_and_left]

theorem eval_neg_eq_ok_iff {inner : Expr α} :
    m.eval mem (.neg inner) = .ok v ↔ ∃ x, m.eval mem inner = .ok x ∧ x.neg = .ok v :=
  Outcome.bind_eq_ok_iff

theorem eval_endpointOf_eq_ok_iff {set : SetName} {element : Expr α} {slot : Nat} :
    m.eval mem (.endpointOf set element slot) = .ok v ↔
      ∃ t x, m.resolution.topology set = .ok t ∧ m.eval mem element = .ok x ∧
        endpointValue t set slot x = .ok v := by
  refine Outcome.bind_eq_ok_iff.trans ?_
  simp only [Outcome.bind_eq_ok_iff, exists_and_left]

theorem eval_fieldLoad_eq_ok_iff {set : SetName} {field : FieldName} {element : Expr α} :
    m.eval mem (.fieldLoad set field element) = .ok v ↔
      ∃ n x e data, m.resolution.size set = .ok n ∧ m.eval mem element = .ok x ∧
        x.asIndex (.elementOf set) n = .ok e ∧ m.bindings.field set field = .ok data ∧
        fieldValue (.field set field) data e = .ok v := by
  refine Outcome.bind_eq_ok_iff.trans ?_
  simp only [Outcome.bind_eq_ok_iff, exists_and_left]

theorem eval_locate_eq_ok_iff {pattern : PatternRef} {row col : Expr α} {search : Search} :
    m.eval mem (.locate pattern row col search) = .ok v ↔
      ∃ p x i y j, m.resolution.pattern pattern = .ok p ∧
        m.eval mem row = .ok x ∧ x.asInt .locateRow = .ok i ∧
        m.eval mem col = .ok y ∧ y.asInt .locateColumn = .ok j ∧ v = locateValue p search i j := by
  refine Outcome.bind_eq_ok_iff.trans ?_
  simp only [Outcome.bind_eq_ok_iff, Except.pure_eq_ok_iff, exists_and_left]

theorem eval_load_eq_ok_iff {buffer : VarName} {offset : Expr α} {block : BlockShape} :
    m.eval mem (.load buffer offset block) = .ok v ↔
      ∃ x i b value, m.eval mem offset = .ok x ∧ x.asInt .loadOffset = .ok i ∧
        mem.buffer buffer = .ok b ∧ b.load buffer i block = .ok value ∧ v = .block value := by
  refine Outcome.bind_eq_ok_iff.trans ?_
  simp only [Outcome.bind_eq_ok_iff, Except.pure_eq_ok_iff, exists_and_left]

theorem eval_sparseLoad_eq_ok_iff {buffer : VarName} {position : Expr α} {block : BlockShape} :
    m.eval mem (.sparseLoad buffer position block) = .ok v ↔
      ∃ x, m.eval mem position = .ok x ∧ sparseBlock mem buffer block x = .ok v :=
  Outcome.bind_eq_ok_iff

end Machine

end GraphTensor
