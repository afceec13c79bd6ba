import GraphTensor.Lowering.Terms
import GraphTensor.Lowering.Typing
import GraphTensor.Storage.Basic
set_option autoImplicit false

/-! # Lowering of index expressions

A tensor that is assigned an index expression is set to zero, and each signed product of the
expanded body becomes a nest of loops that adds the product to the tensor's entries
(`Contraction.lowerTerm`).

A nest (`Nest`) is built from the outside. The free indices are looped over first: over the entries
of the pattern of a sparse destination (`Contraction.patternLoop`), else over their domains
(`Contraction.rangeLoops`). Then come the summed indices in the order of their first appearance
(`Contraction.summedLoop`). A sparse operand whose row index is bound and whose column index is the
one summed drives the loop, which runs over that row only (`Contraction.drivers`); two such operands
are intersected; without one the loop runs over the domain of the index. Reads and the write stay
entries of tensors and carry the positions that the loops provide. Loop variables have names that no
program has (`freshName`).

The checks come before any nest (`Contraction.checkTerm`): in every term each summed index occurs
twice and each free index at least once, all occurrences of an index agree on its domain, the
product of the blocks is the block of the destination, and for a sparse destination some operand
masks the term. Each of them has its own error, met in the order in which factors and indices are
written. -/

namespace GraphTensor

variable {α : Type}

/-! ## Checks -/

/-- The indices met in a term, each with its domain and the number of its occurrences. -/
abbrev Occurrences : Type :=
  Table String (IndexDomain × Nat)

/-- What an assignment of an index expression is lowered with. -/
structure Contraction where
  /-- The descriptors of the tensors. -/
  storages : Storages
  /-- The tensor that is assigned. -/
  target : VarName
  /-- Its type. -/
  type : TensorType
  /-- The layout of the tensor. -/
  kind : StorageKind
  /-- The free indices. -/
  free : List IndexVar

namespace Contraction

/-- The error of a malformed term. -/
def malformed {β : Type} (c : Contraction) (reason : Malformation) : Lowered β :=
  Outcome.fail (.malformedIndexExpression c.target reason)

/-- An operand has just the free indices. -/
def indexedByFree (c : Contraction) (operand : IndexedTensor) : Bool :=
  operand.names == c.free.map IndexVar.name

/-- Counts one index of an operand, checking it against the dimension and its earlier
    occurrences. -/
def countIndex (c : Contraction) (tensor : VarName) (seen : Occurrences) (index : IndexVar)
    (dim : IndexDomain) : Lowered Occurrences :=
  if index.domain ≠ dim then
    Outcome.fail (.indexDomainMismatch (.operand tensor) (.named index.name) (.domain dim)
      (.domain index.domain))
  else
    match seen.get? index.name with
    | none => .ok (seen.insert index.name (index.domain, 1))
    | some (domain, count) =>
      if domain ≠ index.domain then
        Outcome.fail (.indexDomainMismatch (.contractionInto c.target) (.named index.name)
          (.domain domain) (.domain index.domain))
      else .ok (seen.insert index.name (domain, count + 1))

/-- Counts the indices of an operand. -/
def countIndices (c : Contraction) (tensor : VarName) :
    Occurrences → List IndexVar → List IndexDomain → Lowered Occurrences
  | seen, index :: indices, dim :: dims => do
    let seen ← c.countIndex tensor seen index dim
    c.countIndices tensor seen indices dims
  | seen, [], _ => .ok seen
  | seen, _, [] => .ok seen

/-- The block of a factor, and the indices met so far with those of the factor. -/
def checkFactor (c : Contraction) (scope : TypeScope α) (seen : Occurrences) (factor : Factor α) :
    Lowered (Occurrences × BlockShape) :=
  match factor with
  | .scalar value => do
    let block ← scope.blockOf value .coefficient
    return (seen, block)
  | .tensor operand => do
    let type ← scope.tensor operand.tensor
    if operand.indices.length ≠ type.rank then
      c.malformed (.operandRank operand.tensor type.rank operand.indices.length)
    else do
      let seen ← c.countIndices operand.tensor seen operand.indices type.dims
      return (seen, type.block)

/-- The block of the product with one more factor. -/
def productBlock (c : Contraction) (product : Option BlockShape) (factor : BlockShape) :
    Lowered BlockShape :=
  match product with
  | none => .ok factor
  | some block =>
    Outcome.orFail (.shapeMismatch (.productInto c.target) (.shape block) (.shape factor))
      (block.product factor)

/-- The indices of all factors, and the block of their product. -/
def checkFactors (c : Contraction) (scope : TypeScope α) :
    Occurrences → Option BlockShape → List (Factor α) → Lowered (Occurrences × Option BlockShape)
  | seen, product, [] => .ok (seen, product)
  | seen, product, factor :: rest => do
    let (seen, block) ← c.checkFactor scope seen factor
    let product ← c.productBlock product block
    c.checkFactors scope seen (some product) rest

/-- Checks that a free index occurs, over its own domain. -/
def checkFree (c : Contraction) (seen : Occurrences) (index : IndexVar) : Lowered Unit :=
  match seen.get? index.name with
  | none => c.malformed (.missingFree index.name)
  | some (domain, _) =>
    Outcome.failIf (domain ≠ index.domain)
      (.indexDomainMismatch (.contractionInto c.target) (.named index.name)
        (.domain index.domain) (.domain domain))

/-- The summed indices among those met, each of which has to occur twice. -/
def summed (c : Contraction) : List (String × IndexDomain × Nat) → Lowered (List IndexVar)
  | [] => .ok []
  | (name, domain, count) :: rest =>
    if c.free.any (·.name == name) then c.summed rest
    else if count ≠ 2 then c.malformed (.summedCount name count)
    else do
      return ⟨name, domain⟩ :: (← c.summed rest)

/-- Checks that some operand masks a term by a pattern inside that of a sparse destination. -/
def checkMask (c : Contraction) (pattern : PatternRef) (t : Term α) : Lowered Unit :=
  let candidates := t.tensors.filterMap fun (_, operand) =>
    if c.indexedByFree operand then
      (c.storages.pattern? operand.tensor).map fun p => (operand.tensor, p)
    else none
  if candidates.any (·.2.subsetOf pattern) then .ok ()
  else
    let reason := match candidates with
      | (operand, _) :: _ => .notContained operand
      | [] => .noOperand
    Outcome.fail (.patternMismatch c.target pattern reason)

/-- Checks a term and gives its summed indices in the order of their first appearance. -/
def checkTerm (c : Contraction) (scope : TypeScope α) (t : Term α) : Lowered (List IndexVar) := do
  let (seen, product) ← c.checkFactors scope Table.empty none t.factors
  match product with
  | none => c.malformed .emptyTerm
  | some block =>
    Outcome.failIf (block ≠ c.type.block)
      (.shapeMismatch (.contractionInto c.target) (.shape c.type.block) (.shape block))
    c.free.forM (c.checkFree seen)
    let bound ← c.summed seen.entries
    match c.kind with
    | .sparse pattern => c.checkMask pattern t
    | _ => .ok ()
    return bound

/-- Checks the free indices against the dimensions of the destination; `earlier` are the names
    before them. -/
def checkDestination (c : Contraction) :
    (earlier : List String) → List IndexVar → List IndexDomain → Lowered Unit
  | earlier, index :: indices, dim :: dims =>
    if index.domain ≠ dim then
      Outcome.fail (.indexDomainMismatch (.destination c.target) (.named index.name) (.domain dim)
        (.domain index.domain))
    else if earlier.contains index.name then c.malformed (.repeatedFree index.name)
    else c.checkDestination (index.name :: earlier) indices dims
  | _, [], _ => .ok ()
  | _, _, [] => .ok ()

/-- Checks a list of terms in order. -/
def checkTerms (c : Contraction) (scope : TypeScope α) :
    List (Term α) → Lowered (List (Term α × List IndexVar))
  | [] => .ok []
  | t :: rest => do
    let bound ← c.checkTerm scope t
    let rest ← c.checkTerms scope rest
    return (t, bound) :: rest

end Contraction

/-! ## Loop nests -/

/-- A name that no program variable has: its number after a percent sign, which does not occur in
    them. -/
def freshName (base : String) (number : Nat) : VarName :=
  s!"{base}%{number}"

/-- A nest of loops that is being built. -/
structure Nest (α : Type) where
  /-- The number of names given out so far. -/
  names : Nat
  /-- The loop variables of the bound indices. -/
  bindings : Table String VarName
  /-- The positions of the factors that a loop stands on, by place. -/
  positions : Table Nat VarName
  /-- The headers, outermost first. -/
  loops : List (Loop α)

namespace Nest

/-- The nest without loops. -/
def start (names : Nat) : Nest α :=
  ⟨names, Table.empty, Table.empty, []⟩

/-- A new name, and the nest that has given it out. -/
def name (n : Nest α) (base : String) : Nest α × VarName :=
  ({ n with names := n.names + 1 }, freshName base (n.names + 1))

/-- Binds an index to a loop variable. -/
def bindIndex (n : Nest α) (index : String) (var : VarName) : Nest α :=
  { n with bindings := n.bindings.insert index var }

/-- Notes the position of a factor. -/
def bindPosition (n : Nest α) (place : Nat) (position : VarName) : Nest α :=
  { n with positions := n.positions.insert place position }

/-- Adds a loop inside the others. -/
def addLoop (n : Nest α) (header : Loop α) : Nest α :=
  { n with loops := n.loops ++ [header] }

/-- The loop variable of an index. -/
def index (n : Nest α) (name : String) : Lowered (Expr α) :=
  Outcome.orFail (.unsupportedConstruct (.unboundIndex name)) ((n.bindings.get? name).map Expr.var)

/-- The loop variables of indices. -/
def indices (n : Nest α) : List IndexVar → Lowered (List (Expr α))
  | [] => .ok []
  | i :: rest => do
    let e ← n.index i.name
    let rest ← n.indices rest
    return e :: rest

/-- A statement inside the loops of the nest. -/
def wrap (n : Nest α) (s : Stmt α) : Stmt α :=
  n.loops.foldr (fun header inner => .loop header [inner]) s

end Nest

namespace Contraction

/-- The name of a position in the pattern of a tensor. -/
def positionBase (tensor : VarName) : String :=
  s!"{tensor}.pos"

/-- Loops over the domains of indices. -/
def rangeLoops : Nest α → List IndexVar → Nest α
  | n, [] => n
  | n, index :: rest =>
    let (n, var) := n.name index.name
    rangeLoops ((n.bindIndex index.name var).addLoop (.range var index.domain)) rest

/-- The loop over the entries of a sparse destination, and the position of the entry. Operands with
    the same pattern and the same indices stand on the same position. -/
def patternLoop (c : Contraction) (n : Nest α) (pattern : PatternRef) (t : Term α) :
    Lowered (Nest α × VarName) :=
  match c.free with
  | first :: second :: _ =>
    let (n, row) := n.name first.name
    let (n, col) := n.name second.name
    let (n, position) := n.name (positionBase c.target)
    let n := (n.bindIndex first.name row).bindIndex second.name col
    let n := t.tensors.foldl (fun n (place, operand) =>
      if c.indexedByFree operand && c.storages.pattern? operand.tensor == some pattern then
        n.bindPosition place position
      else n) n
    .ok (n.addLoop (.pattern pattern row col position), position)
  | _ => .error .abort

/-- The sparse operands that can drive the loop over a summed index: the index is their column, and
    their row is bound. -/
def drivers (c : Contraction) (n : Nest α) (t : Term α) (index : String) :
    List (Nat × VarName × String × PatternRef) :=
  t.tensors.filterMap fun (place, operand) =>
    match operand.indices, c.storages.pattern? operand.tensor with
    | [row, col], some pattern =>
      -- a factor that already stands on a position cannot drive a second loop
      if !n.positions.contains place && col.name == index && row.name != index &&
          n.bindings.contains row.name then
        some (place, operand.tensor, row.name, pattern)
      else none
    | _, _ => none

/-- Adds the loop that drivers give, over a column variable; without a driver it runs over the
    domain of the index. -/
def drivenLoop (n : Nest α) (var : VarName) (domain : IndexDomain) :
    List (Nat × VarName × String × PatternRef) → Lowered (Nest α)
  | [] => .ok (n.addLoop (.range var domain))
  | [(place, tensor, rowName, pattern)] => do
    let (n, position) := n.name (positionBase tensor)
    let row ← n.index rowName
    return (n.addLoop (.row pattern row var position)).bindPosition place position
  | (leftPlace, leftTensor, leftName, left) :: (rightPlace, rightTensor, rightName, right) :: _ =>
    do
    let (n, leftPosition) := n.name (positionBase leftTensor)
    let (n, rightPosition) := n.name (positionBase rightTensor)
    let leftRow ← n.index leftName
    let rightRow ← n.index rightName
    let n := n.addLoop (.intersect left right leftRow rightRow var leftPosition rightPosition)
    return (n.bindPosition leftPlace leftPosition).bindPosition rightPlace rightPosition

/-- The loop over a summed index. -/
def summedLoop (c : Contraction) (n : Nest α) (t : Term α) (index : IndexVar) :
    Lowered (Nest α) := do
  let (n, var) := n.name index.name
  -- the index is bound only after its loop: a driver's row lies outside that loop
  let n ← drivenLoop n var index.domain (c.drivers n t index.name)
  return n.bindIndex index.name var

/-- The loops over the summed indices. -/
def summedLoops (c : Contraction) (t : Term α) : Nest α → List IndexVar → Lowered (Nest α)
  | n, [] => .ok n
  | n, index :: rest => do
    let n ← c.summedLoop n t index
    c.summedLoops t n rest

/-- The value of a factor inside the loops. -/
def factorValue (n : Nest α) (place : Nat) (factor : Factor α) : Lowered (Expr α) :=
  match factor with
  | .scalar value => .ok value
  | .tensor operand => do
    return .tensorRead operand.tensor (← n.indices operand.indices) (n.positions.get? place)

/-- The product of the factors from a place on with what stands to the left of them. -/
def productValue (n : Nest α) (place : Nat) (left : Expr α) : List (Factor α) → Lowered (Expr α)
  | [] => .ok left
  | factor :: rest => do
    let value ← factorValue n place factor
    productValue n (place + 1) (.binary .mul left value) rest

/-- The value of a term inside the loops. -/
def termValue (c : Contraction) (n : Nest α) (t : Term α) : Lowered (Expr α) :=
  match t.factors with
  | [] => c.malformed .emptyTerm
  | factor :: rest => do
    let first ← factorValue n 0 factor
    let value ← productValue n 1 first rest
    return if t.negated then .neg value else value

/-- The loop nest of a term, and the number of names given out by then. -/
def lowerTerm (c : Contraction) (names : Nat) (t : Term α) (bound : List IndexVar) :
    Lowered (Nat × Stmt α) := do
  let (n, position) ← match c.kind with
    | .sparse pattern => do
      let (n, position) ← c.patternLoop (Nest.start names) pattern t
      pure (n, some position)
    | _ => pure (rangeLoops (Nest.start names) c.free, none)
  let n ← c.summedLoops t n bound
  let value ← c.termValue n t
  let indices ← n.indices c.free
  return (n.names, n.wrap (.tensorWrite c.target indices position value true))

/-- The loop nests of a list of terms. -/
def lowerTerms (c : Contraction) :
    (names : Nat) → List (Term α × List IndexVar) → Lowered (Nat × List (Stmt α))
  | names, [] => .ok (names, [])
  | names, (t, bound) :: rest => do
    let (names, s) ← c.lowerTerm names t bound
    let (names, rest) ← c.lowerTerms names rest
    return (names, s :: rest)

end Contraction

/-! ## Functions -/

/-- An expression of the notation of index expressions occurs in a statement. -/
def Stmt.hasIndexForm (s : Stmt α) : Bool :=
  s.substmts.any fun inner => inner.exprs.any fun e => e.any Expr.isIndexForm

variable [Scalar α]

/-- The statements for an assignment of an index expression, and the number of names given out. -/
def Func.lowerContraction (f : Func α) (storages : Storages) (names : Nat) (target : VarName)
    (free : List IndexVar) (body : Expr α) : Lowered (Nat × List (Stmt α)) := do
  let scope := TypeScope.ofFunc f
  let type ← scope.tensor target
  let storage ← Outcome.orFail (.missingStorage target) (storages.get? target)
  let c : Contraction := ⟨storages, target, type, storage.kind, free⟩
  if free.length ≠ type.rank then c.malformed (.freeCount free.length type.rank)
  else do
    c.checkDestination [] free type.dims
    let terms ← Outcome.ofExcept body.terms
    let checked ← c.checkTerms scope terms
    let (names, nests) ← c.lowerTerms names checked
    return (names, .zero target :: nests)

/-- Lowers the index expressions among statements, `names` being the number of names given out. -/
def Func.lowerIndexExpressionsFrom (f : Func α) (storages : Storages) :
    (names : Nat) → List (Stmt α) → Lowered (List (Stmt α))
  | _, [] => .ok []
  | names, .assign target (.index free body) :: rest => do
    let (names, statements) ← f.lowerContraction storages names target free body
    let rest ← f.lowerIndexExpressionsFrom storages names rest
    return statements ++ rest
  | names, other :: rest => do
    Outcome.failIf other.hasIndexForm (.unsupportedConstruct .strayIndexExpression)
    let rest ← f.lowerIndexExpressionsFrom storages names rest
    return other :: rest

/-- The function with its index expressions lowered. -/
def Func.lowerIndexExpressions (f : Func α) (storages : Storages) : Lowered (Func α) := do
  return { f with body := ← f.lowerIndexExpressionsFrom storages 0 f.body }

end GraphTensor
