set_option autoImplicit false

/-! # Outcomes

A computation (`Outcome`) ends in one of four ways: with a value, with an error of its own type,
with an abort because a size, an index or a signed word left its range, or not at all. The last
three are the faults (`Fault`). Only an error is something a caller is meant to handle; the other
two are kept apart so that statements can say that they do not arise.

A partial result becomes an outcome by saying what a missing value means: `Outcome.orAbort` makes it
an abort and `Outcome.orFail` an error. `Outcome.failIf` and `Outcome.require` do the same for a
condition. As `Outcome` is `Except` over faults, steps are sequenced with `do`, and
`Outcome.bind_eq_ok_iff` takes such a sequence apart again. -/

namespace GraphTensor

/-- A way of not producing a value. -/
inductive Fault (ε : Type) where
  /-- A foreseen error. -/
  | error (cause : ε)
  /-- An index, a size or an integer left its range. -/
  | abort
  /-- The computation goes on for ever. -/
  | divergence
deriving DecidableEq, Repr

/-- The faults of a part, seen as the faults of a whole. -/
def Fault.map {ε δ : Type} (f : ε → δ) : Fault ε → Fault δ
  | .error cause => .error (f cause)
  | .abort => .abort
  | .divergence => .divergence

/-- A value or a fault. -/
abbrev Outcome (ε α : Type) : Type :=
  Except (Fault ε) α

namespace Outcome

variable {ε δ α β : Type}

/-- A foreseen error. -/
def fail (cause : ε) : Outcome ε α :=
  .error (.error cause)

/-- The abort. -/
def abort : Outcome ε α :=
  .error .abort

/-- The value, where a missing one is an abort. -/
def orAbort : Option α → Outcome ε α
  | some a => .ok a
  | none => .error .abort

/-- The value, where a missing one is the given error. -/
def orFail (cause : ε) : Option α → Outcome ε α
  | some a => .ok a
  | none => .error (.error cause)

/-- A computation that can only fail in foreseen ways. -/
def ofExcept : Except ε α → Outcome ε α
  | .ok a => .ok a
  | .error cause => .error (.error cause)

/-- A computation with its errors renamed. -/
def mapError (f : ε → δ) : Outcome ε α → Outcome δ α
  | .ok a => .ok a
  | .error fault => .error (fault.map f)

/-- Nothing, unless the condition holds; then the error. -/
def failIf (condition : Bool) (cause : ε) : Outcome ε Unit :=
  if condition then .error (.error cause) else .ok ()

/-- Nothing, unless the condition fails; then the abort. -/
def require (condition : Bool) : Outcome ε Unit :=
  if condition then .ok () else .error .abort

theorem orAbort_eq_ok_iff {o : Option α} {a : α} :
    (orAbort o : Outcome ε α) = .ok a ↔ o = some a := by
  cases o <;> simp [orAbort]

theorem orFail_eq_ok_iff {cause : ε} {o : Option α} {a : α} :
    orFail cause o = .ok a ↔ o = some a := by
  cases o <;> simp [orFail]

theorem ofExcept_eq_ok_iff {e : Except ε α} {a : α} : ofExcept e = .ok a ↔ e = .ok a := by
  cases e <;> simp [ofExcept]

theorem mapError_eq_ok_iff {f : ε → δ} {o : Outcome ε α} {a : α} :
    o.mapError f = .ok a ↔ o = .ok a := by
  cases o <;> simp [mapError]

/-- A sequence of two computations has a value just if both have one. -/
theorem bind_eq_ok_iff {o : Outcome ε α} {f : α → Outcome ε β} {b : β} :
    (o >>= f) = .ok b ↔ ∃ a, o = .ok a ∧ f a = .ok b := by
  cases o <;> simp [bind, Except.bind]

end Outcome

end GraphTensor
