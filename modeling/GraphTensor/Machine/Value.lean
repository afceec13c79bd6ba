import GraphTensor.Block.Value
import GraphTensor.Machine.Error
set_option autoImplicit false

/-! # Values of a run

An expression comes to a `Value`: a block, an integer, a truth value or a miss, which is what a
search in a pattern gives where nothing is stored. Integers are signed words, and a result outside
of them is an abort (`Value.ofInt`).

A place that needs a certain kind of value takes it apart by `Value.asInt`, `Value.asIndex` or
`Value.asBlock`, with an error that names the place. `Value.operate` is arithmetic on two values of
one kind: blocks follow their shapes (`Value.blockOperation`), and integers abort outside of the
words, except that a quotient which is no word is an error (`Value.intOperation`). -/

namespace GraphTensor

/-- A value of a run. -/
inductive Value (α : Type) where
  /-- A block of numbers. -/
  | block (value : BlockValue α)
  /-- An integer. -/
  | int (value : Int)
  /-- A truth value. -/
  | bool (value : Bool)
  /-- A search that found nothing. -/
  | miss
deriving DecidableEq, Repr

namespace Value

variable {α : Type}

/-- The block of one number. -/
def scalar (x : α) : Value α :=
  .block (.scalar x)

/-- The integer that a count is. -/
def ofCount (n : Nat) : Value α :=
  .int (SignedWord.ofCount n)

/-- The kind of a value. -/
def kind : Value α → Quality
  | block b => .shape b.shape
  | int _ => .int
  | bool _ => .bool
  | miss => .miss

/-- The text of a value. How numbers are written is left to the caller. -/
def text (number : α → String) : Value α → String
  | block b => b.shape.text ++ "[" ++ String.intercalate ", " (b.data.toList.map number) ++ "]"
  | int n => toString n
  | bool b => toString b
  | miss => "miss"

/-! ## Taking values apart -/

/-- The integer of a value at a place. -/
def asInt (place : Place) : Value α → Ran Int
  | int n => .ok n
  | other => Ran.mismatch place .int other.kind

/-- The integer of a value at a place, which is an index below a length. -/
def asIndex (place : Place) (length : Nat) (v : Value α) : Ran Nat := do
  let n ← v.asInt place
  if 0 ≤ n ∧ n < length then .ok n.toNat else Outcome.fail (.indexOutOfBounds place n length)

/-- The block of a value at a place. -/
def asBlock (place : Place) : Value α → Ran (BlockValue α)
  | block b => .ok b
  | other => Ran.mismatch place .anyBlock other.kind

/-- The block of a shape with the given numbers, which have to be as many as it takes. -/
def blockOf (shape : BlockShape) (data : Array α) : Ran (BlockValue α) := do
  let length ← Outcome.orAbort shape.length?
  Outcome.orFail (.bindingMismatch (.blockOf shape) length data.size)
    (BlockValue.ofArray? shape data)

/-! ## Arithmetic -/

/-- An integer that has to be a word. -/
def ofInt (n : Int) : Ran (Value α) :=
  (Outcome.orAbort (SignedWord.ofInt? n)).map int

/-- The quotient of two integers, rounded toward zero, if the divisor is not zero and the quotient a
    word. -/
def intQuotient? (a b : Int) : Option Int :=
  if b = 0 then none else SignedWord.ofInt? (a.tdiv b)

variable [Scalar α]

/-- An operation on two blocks, where their shapes allow it. -/
def blockOperation? : BinaryOp → BlockValue α → BlockValue α → Option (BlockValue α)
  | .add => BlockValue.add?
  | .sub => BlockValue.sub?
  | .mul => BlockValue.mul?
  | .div => BlockValue.div?

/-- The product of two shapes, if there is one, has room. Blocks without numbers can have a product
    with any number of them. -/
def productHasRoom (a b : BlockShape) : Bool :=
  (a.product b).all fun shape => (Word.cells? shape.length 8).isSome

/-- An operation on two blocks. -/
def blockOperation (op : BinaryOp) (a b : BlockValue α) : Ran (BlockValue α) := do
  Outcome.require (op != .mul || productHasRoom a.shape b.shape)
  Outcome.orFail (.typeMismatch (.operation op) .conforming (.shapes a.shape b.shape))
    (blockOperation? op a b)

/-- An operation on two integers. -/
def intOperation (op : BinaryOp) (a b : Int) : Ran (Value α) :=
  match op with
  | .add => ofInt (a + b)
  | .sub => ofInt (a - b)
  | .mul => ofInt (a * b)
  | .div => (Outcome.orFail (.typeMismatch .integerDivision .nonzeroInt .int)
      (intQuotient? a b)).map int

/-- An operation on two values, both of them integers or both of them blocks. -/
def operate (op : BinaryOp) : Value α → Value α → Ran (Value α)
  | int a, int b => intOperation op a b
  | block a, block b => (blockOperation op a b).map block
  | lhs, rhs => Ran.mismatch (.operation op) lhs.kind rhs.kind

/-- The negative of an integer or a block. -/
def neg : Value α → Ran (Value α)
  | int n => ofInt (-n)
  | block b => .ok (.block b.neg)
  | other => Ran.mismatch .negation .intOrBlock other.kind

end Value

end GraphTensor
