import GraphTensor.Program.Expr
set_option autoImplicit false

/-! # Statements

Assemblies run a kernel once for each element of a set and sum what it contributes; assignments of
index expressions contract tensors. Lowering turns both into loops whose bodies store into buffers.
All loops share one form: a header (`Loop`), which says what is visited and which variables are
bound at each step, and a body.

A solve (`SolveTask`) names its operands; with one matrix it may carry a `BoundaryCondition`, and
with two it is a `SchurSolve`. `Stmt.substmts` lists a statement and all statements in it, and
`Stmt.children` only those right below it; the check that no assembly stands inside another
statement looks at the latter. -/

namespace GraphTensor

/-- The unknowns of a direct solve whose values are given. -/
structure BoundaryCondition where
  /-- The set whose elements are the rows of the system. -/
  set : SetName
  /-- The field that marks the fixed elements. -/
  marker : FieldName
  /-- The tensor with the values of the fixed unknowns. -/
  values : VarName
deriving DecidableEq, Repr

/-- A system with one matrix. -/
structure DirectSolve where
  /-- The matrix. -/
  matrix : VarName
  /-- The right-hand side. -/
  rhs : VarName
  /-- Where the solution goes. -/
  result : VarName
  /-- The unknowns that are fixed. -/
  boundary : Option BoundaryCondition
deriving DecidableEq, Repr

/-- A system of two blocks of unknowns. The coupling has its rows on the derived set and its columns
    on the primary set, and stands transposed in the primary rows; without a derived matrix the
    derived rows couple to the primary unknowns alone. -/
structure SchurSolve where
  /-- The matrix of the primary unknowns. -/
  primary : VarName
  /-- The matrix that couples the two blocks. -/
  coupling : VarName
  /-- The matrix of the derived unknowns. -/
  derived : Option VarName
  /-- The right-hand side of the primary rows. -/
  rhsPrimary : VarName
  /-- The right-hand side of the derived rows. -/
  rhsDerived : VarName
  /-- Where the primary unknowns go. -/
  resultPrimary : VarName
  /-- Where the derived unknowns go. -/
  resultDerived : VarName
deriving DecidableEq, Repr

/-- A linear solve. -/
inductive SolveTask where
  /-- A system with one matrix. -/
  | direct (task : DirectSolve)
  /-- A system of two blocks. -/
  | schur (task : SchurSolve)
deriving DecidableEq, Repr

/-- The matrices of a solve. -/
def SolveTask.matrices : SolveTask → List VarName
  | direct t => [t.matrix]
  | schur t => [t.primary, t.coupling] ++ t.derived.toList

/-- The vectors of a solve: right-hand sides and results, then the values of fixed unknowns. -/
def SolveTask.vectors : SolveTask → List VarName
  | direct t => [t.rhs, t.result] ++ (t.boundary.map BoundaryCondition.values).toList
  | schur t => [t.rhsPrimary, t.rhsDerived, t.resultPrimary, t.resultDerived]

/-- The variables whose values a solve reads. -/
def SolveTask.operands : SolveTask → List VarName
  | direct t => [t.matrix, t.rhs] ++ (t.boundary.map BoundaryCondition.values).toList
  | schur t => [t.primary, t.coupling] ++ t.derived.toList ++ [t.rhsPrimary, t.rhsDerived]

/-- The variables that a kernel binds: the element at hand, and for a relation its endpoints. -/
structure KernelVars where
  /-- The element at hand. -/
  element : Variable
  /-- Its endpoints. -/
  endpoints : Option Variable
deriving DecidableEq, Repr

/-- The header of a loop. -/
inductive Loop (α : Type) where
  /-- Every element of a set. -/
  | elements (set : SetName) (element : VarName)
  /-- Every number below an extent. -/
  | range (var : VarName) (extent : IndexDomain)
  /-- Every entry of a pattern, row after row. -/
  | pattern (pattern : PatternRef) (row col position : VarName)
  /-- Every entry of a row of a pattern, by ascending column. -/
  | row (pattern : PatternRef) (row : Expr α) (col position : VarName)
  /-- Every column that a row of one pattern shares with a row of another. -/
  | intersect (left right : PatternRef) (leftRow rightRow : Expr α)
      (col leftPosition rightPosition : VarName)
deriving Repr

/-- The expressions in a loop's header. -/
def Loop.exprs {α : Type} : Loop α → List (Expr α)
  | elements _ _ => []
  | range _ _ => []
  | pattern _ _ _ _ => []
  | row _ place _ _ => [place]
  | intersect _ _ leftRow rightRow _ _ _ => [leftRow, rightRow]

/-- The name of a loop's form in messages. -/
def Loop.form {α : Type} : Loop α → String
  | elements _ _ => "ForElements"
  | range _ _ => "ForRange"
  | pattern _ _ _ _ => "ForPattern"
  | row _ _ _ _ => "ForRow"
  | intersect _ _ _ _ _ _ _ => "ForIntersect"

/-- A statement. -/
inductive Stmt (α : Type) where
  /-- Binds a local, or fills a tensor from a field or an index expression. -/
  | assign (var : VarName) (value : Expr α)
  /-- Adds to a local or register. -/
  | accumulate (var : VarName) (value : Expr α)
  /-- Writes an entry of a tensor, or adds to it. -/
  | tensorWrite (tensor : VarName) (indices : List (Expr α)) (position : Option VarName)
      (value : Expr α) (accumulate : Bool)
  /-- Runs a kernel for each element of a set and sums its contributions into the targets. -/
  | assemble (targets : List VarName) (set : SetName) (kernel : KernelVars)
      (body : List (Stmt α))
  /-- A loop. -/
  | loop (header : Loop α) (body : List (Stmt α))
  /-- Sets a tensor to zero. -/
  | zero (var : VarName)
  /-- Copies a tensor with one dimension into a field of its set. -/
  | fieldWrite (set : SetName) (field : FieldName) (value : VarName)
  /-- A linear solve. -/
  | solve (task : SolveTask)
  /-- Writes a block into a buffer from an offset on, or adds to it. -/
  | store (buffer : VarName) (offset value : Expr α) (accumulate : Bool)
  /-- Writes a block into a sparse buffer at a position, or adds to it; a miss is an error. -/
  | sparseStore (buffer : VarName) (position value : Expr α) (accumulate : Bool)
      (block : BlockShape)
deriving Repr, Inhabited

namespace Stmt

variable {α : Type}

/-- The name of a statement's form in messages. -/
def form : Stmt α → String
  | assign _ _ => "Assign"
  | accumulate _ _ => "Accumulate"
  | tensorWrite _ _ _ _ _ => "TensorWrite"
  | assemble _ _ _ _ => "Assemble"
  | loop header _ => header.form
  | zero _ => "Zero"
  | fieldWrite _ _ _ => "FieldWrite"
  | solve _ => "Solve"
  | store _ _ _ _ => "Store"
  | sparseStore _ _ _ _ _ => "SparseStore"

/-- The statements directly in a statement. -/
def children : Stmt α → List (Stmt α)
  | assemble _ _ _ body => body
  | loop _ body => body
  | _ => []

/-- The expressions directly in a statement, without those of its children. -/
def exprs : Stmt α → List (Expr α)
  | assign _ value => [value]
  | accumulate _ value => [value]
  | tensorWrite _ indices _ value _ => indices ++ [value]
  | loop header _ => header.exprs
  | store _ offset value _ => [offset, value]
  | sparseStore _ position value _ _ => [position, value]
  | assemble _ _ _ _ => []
  | zero _ => []
  | fieldWrite _ _ _ => []
  | solve _ => []

mutual

/-- A statement and all statements in it, outer ones first. -/
def substmts (s : Stmt α) : List (Stmt α) :=
  s :: match s with
    | assemble _ _ _ body => substmtsOfList body
    | loop _ body => substmtsOfList body
    | assign _ _ => []
    | accumulate _ _ => []
    | tensorWrite _ _ _ _ _ => []
    | zero _ => []
    | fieldWrite _ _ _ => []
    | solve _ => []
    | store _ _ _ _ => []
    | sparseStore _ _ _ _ _ => []
termination_by structural s

/-- The statements in a list of statements. -/
def substmtsOfList (body : List (Stmt α)) : List (Stmt α) :=
  match body with
  | [] => []
  | s :: rest => s.substmts ++ substmtsOfList rest
termination_by structural body

end

/-- The statement is an assembly. -/
def isAssemble : Stmt α → Bool
  | assemble _ _ _ _ => true
  | _ => false

end Stmt

end GraphTensor
