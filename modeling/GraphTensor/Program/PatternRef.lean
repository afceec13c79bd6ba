import GraphTensor.Names
set_option autoImplicit false

/-! # References to patterns

A program names the patterns it uses by the relation or set that induces them (`PatternSource`) and
the two sets it is over; such a name is a `PatternRef`. Which places a name stands for is known once
the sets are bound; which of two names stands for the smaller pattern (`PatternRef.subsetOf`) is
known before.

A relation `R` with endpoints in `V` induces four patterns: `PatternRef.square` over `V`,
`PatternRef.incidence` over `R` and `V`, its transpose `PatternRef.coincidence`, and, as any set
does, `PatternRef.diagonal`. -/

namespace GraphTensor

/-- What induces a pattern. -/
inductive PatternSource where
  /-- The endpoints of a relation. -/
  | relation (set : SetName)
  /-- The identity on a set. -/
  | diagonal (set : SetName)
deriving DecidableEq, Repr

/-- The name of a source in messages. -/
def PatternSource.text : PatternSource → String
  | relation set => s!"relation({set})"
  | diagonal set => s!"diagonal({set})"

/-- A pattern induced over a row set and a column set. A relation `R` with endpoints in `V` induces
    the square pattern on `V` and `V`, the incidence pattern on `R` and `V`, and its transpose on
    `V` and `R`. -/
structure PatternRef where
  /-- What induces the pattern. -/
  source : PatternSource
  /-- The set of its rows. -/
  rows : SetName
  /-- The set of its columns. -/
  cols : SetName
deriving DecidableEq, Repr

namespace PatternRef

/-- The square pattern of a relation over its endpoint set. -/
def square (relation endpointSet : SetName) : PatternRef :=
  ⟨.relation relation, endpointSet, endpointSet⟩

/-- The incidence pattern of a relation. -/
def incidence (relation endpointSet : SetName) : PatternRef :=
  ⟨.relation relation, relation, endpointSet⟩

/-- The transposed incidence pattern of a relation. -/
def coincidence (relation endpointSet : SetName) : PatternRef :=
  ⟨.relation relation, endpointSet, relation⟩

/-- The diagonal of a set. -/
def diagonal (set : SetName) : PatternRef :=
  ⟨.diagonal set, set, set⟩

/-- The pattern is a diagonal. -/
def isDiagonal (p : PatternRef) : Bool :=
  match p.source with
  | .diagonal _ => true
  | .relation _ => false

/-- Every place of the first pattern is one of the second, as far as their names tell: they are the
    same, or a diagonal lies in a square pattern over the same set. -/
def subsetOf (p q : PatternRef) : Bool :=
  p == q || (p.isDiagonal && q.rows == q.cols && p.rows == q.rows && p.cols == q.cols)

/-- The name of a pattern in messages. -/
def text (p : PatternRef) : String :=
  s!"{p.source.text}[{p.rows},{p.cols}]"

theorem subsetOf_refl (p : PatternRef) : p.subsetOf p = true := by
  simp [subsetOf]

end PatternRef

end GraphTensor
