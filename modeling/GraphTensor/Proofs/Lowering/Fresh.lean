import GraphTensor.Lowering.Contraction
import GraphTensor.Machine.Memory
set_option autoImplicit false

/-! # Fresh names

The loops of an index expression bind names with a percent sign and a number that no earlier loop
has used (`GivenOut`). A loop inside a nest therefore leaves the variables of the loops around it
alone, and no loop touches a variable of the program. `Memory.KeptBelow` says so of two memories,
and composes as loops do. -/

namespace GraphTensor

variable {α : Type}

/-! ## Fresh names -/

theorem toList_freshName (base : String) (number : Nat) :
    (freshName base number).toList = base.toList ++ '%' :: Nat.toDigits 10 number := by
  show (toString base ++ toString "%" ++ toString number).toList = _
  simp only [String.toList_append, List.append_assoc, Nat.toString_eq_ofList_toDigits,
    String.toList_ofList]
  rfl

theorem percent_mem_freshName (base : String) (number : Nat) :
    '%' ∈ (freshName base number).toList := by
  rw [toList_freshName]
  simp

theorem percent_notMem_toDigits (n : Nat) : '%' ∉ Nat.toDigits 10 n := by
  intro h
  have hdigit := Nat.isDigit_of_mem_toDigits (by decide) (by decide) h
  exact absurd hdigit (by decide)

/-- What follows the last of a separator is determined. -/
theorem eq_of_append_cons_eq {xs ys ds es : List Char} {c : Char} (hd : c ∉ ds) (he : c ∉ es)
    (h : xs ++ c :: ds = ys ++ c :: es) : ds = es := by
  induction xs generalizing ys with
  | nil =>
      cases ys with
      | nil => exact (List.cons.inj h).2
      | cons y ys =>
          refine absurd ?_ hd
          rw [(List.cons.inj h).2]
          simp
  | cons x xs ih =>
      cases ys with
      | nil =>
          refine absurd ?_ he
          rw [← (List.cons.inj h).2]
          simp
      | cons y ys => exact ih (List.cons.inj h).2

/-- A fresh name tells its number. -/
theorem freshName_inj {base base' : String} {number number' : Nat}
    (h : freshName base number = freshName base' number') : number = number' := by
  have hlist := congrArg String.toList h
  rw [toList_freshName, toList_freshName] at hlist
  have hdigits := eq_of_append_cons_eq (percent_notMem_toDigits _) (percent_notMem_toDigits _) hlist
  have := congrArg (Nat.ofDigitChars 10 · 0) hdigits
  simpa [Nat.ofDigitChars_ten_toDigits] using this

theorem ne_freshName {name : String} (h : '%' ∉ name.toList) (base : String) (number : Nat) :
    name ≠ freshName base number := by
  rintro rfl
  exact h (percent_mem_freshName base number)

/-! ## Memories inside a nest -/

/-- A name has been given out, with a number up to the given one. -/
def GivenOut (number : Nat) (name : VarName) : Prop :=
  ∃ base k, name = freshName base k ∧ k ≤ number

theorem GivenOut.mono {number number' : Nat} {name : VarName} (h : GivenOut number name)
    (hle : number ≤ number') : GivenOut number' name := by
  obtain ⟨base, k, hname, hk⟩ := h
  exact ⟨base, k, hname, Nat.le_trans hk hle⟩

/-- Only the buffer of one tensor and locals whose names are given out after a number may differ. -/
structure Memory.KeptBelow (number : Nat) (target : VarName) (mem mem' : Memory α) : Prop where
  /-- Other locals are as they were. -/
  locals : ∀ name, (∀ base k, name = freshName base k → k ≤ number) →
    mem'.locals.get? name = mem.locals.get? name
  /-- Other buffers are as they were. -/
  buffers : ∀ name ≠ target, mem'.buffers.get? name = mem.buffers.get? name

theorem Memory.buffers_withIndices (indices : List (VarName × Nat)) (mem : Memory α) :
    (mem.withIndices indices).buffers = mem.buffers := by
  induction indices generalizing mem with
  | nil => rfl
  | cons e rest ih => exact ih (mem.withLocal e.1 (.ofCount e.2))

namespace Memory.KeptBelow

variable {number number' : Nat} {target : VarName} {mem mem' mem'' : Memory α}

theorem refl (number : Nat) (target : VarName) (mem : Memory α) : mem.KeptBelow number target mem :=
  ⟨fun _ _ => rfl, fun _ _ => rfl⟩

theorem trans (h : mem.KeptBelow number target mem') (h' : mem'.KeptBelow number target mem'') :
    mem.KeptBelow number target mem'' :=
  ⟨fun name hname => (h'.locals name hname).trans (h.locals name hname),
    fun name hname => (h'.buffers name hname).trans (h.buffers name hname)⟩

theorem mono (h : mem.KeptBelow number' target mem') (hle : number ≤ number') :
    mem.KeptBelow number target mem' :=
  ⟨fun name hname => h.locals name fun base k heq => Nat.le_trans (hname base k heq) hle, h.buffers⟩

theorem givenOut (h : mem.KeptBelow number target mem') {name : VarName}
    (hname : GivenOut number name) : mem'.locals.get? name = mem.locals.get? name := by
  obtain ⟨base, k, rfl, hk⟩ := hname
  exact h.locals _ fun base' k' heq => freshName_inj heq ▸ hk

theorem ordinary (h : mem.KeptBelow number target mem') {name : VarName}
    (hname : '%' ∉ name.toList) : mem'.locals.get? name = mem.locals.get? name :=
  h.locals name fun base k heq => absurd heq (ne_freshName hname base k)

theorem withIndices {indices : List (VarName × Nat)}
    (h : ∀ e ∈ indices, ∃ base k, e.1 = freshName base k ∧ number < k) (mem : Memory α) :
    mem.KeptBelow number target (mem.withIndices indices) := by
  induction indices generalizing mem with
  | nil => exact refl number target mem
  | cons e rest ih =>
      have hfirst : mem.KeptBelow number target (mem.withLocal e.1 (.ofCount e.2)) := by
        refine ⟨fun name hname => ?_, fun _ _ => rfl⟩
        obtain ⟨base, k, he, hk⟩ := h e (List.mem_cons_self ..)
        have hne : e.1 ≠ name := fun heq => absurd (hname base k (heq.symm.trans he)) (by omega)
        simp [Memory.withLocal, Table.get?_insert, hne]
      exact hfirst.trans (ih (fun e' he' => h e' (List.mem_cons_of_mem _ he')) _)

end Memory.KeptBelow

/-- No local has the name of a tensor. -/
def Memory.Apart (mem : Memory α) : Prop :=
  ∀ name b, mem.buffers.get? name = some b → mem.locals.get? name = none

end GraphTensor
