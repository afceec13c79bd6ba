import GraphTensor.Program.Func
set_option autoImplicit false

/-! # What the indices of a kernel write range over

A kernel writes at its element or at one of the element's endpoints (`IndexRole`), which is read off
the index and the names of the kernel (`KernelVars.role?`). The two roles of a pair of indices say
which pattern the pair ranges over as the element runs through its set (`SetDecl.inducedPattern?`).

`SetDecl.covers` is the other way round: whether a pattern that a tensor already has is sure to hold
all places of a pair of roles. Storage inference asks the first question and the check of kernel
writes the second. -/

namespace GraphTensor

/-- What an index of a kernel write stands for. -/
inductive IndexRole where
  /-- The element at hand. -/
  | element
  /-- An endpoint of the element at hand. -/
  | endpoint (slot : Nat)
deriving DecidableEq, Repr

/-- The name of a role in messages. -/
def IndexRole.text (set : SetName) : IndexRole → String
  | element => s!"element of {set}"
  | endpoint slot => s!"endpoint {slot} of {set}"

/-- The role of an index, if it is the element of the kernel or one of its endpoints. -/
def KernelVars.role? {α : Type} (k : KernelVars) : Expr α → Option IndexRole
  | .var name => if name = k.element.name then some .element else none
  | .endpoint endpoints slot =>
    if k.endpoints.any (·.name == endpoints) then some (.endpoint slot) else none
  | _ => none

/-- The pattern that a pair of roles ranges over. -/
def SetDecl.inducedPattern? (d : SetDecl) (row col : IndexRole) : Option PatternRef :=
  match row, col, d.endpoints with
  | .element, .element, _ => some (.diagonal d.name)
  | .endpoint _, .endpoint _, some ep => some (.square d.name ep.set)
  | .element, .endpoint _, some ep => some (.incidence d.name ep.set)
  | .endpoint _, .element, some ep => some (.coincidence d.name ep.set)
  | _, _, none => none

/-- Every pair that two roles range over is known to lie in a pattern: two equal roles stay on the
    diagonal, which a pattern over one set holds, and other roles have to range over the pattern
    itself. -/
def SetDecl.covers (d : SetDecl) (pattern : PatternRef) (row col : IndexRole) : Bool :=
  (row == col && pattern.rows == pattern.cols) ||
    (pattern.source == .relation d.name && d.inducedPattern? row col == some pattern)

end GraphTensor
