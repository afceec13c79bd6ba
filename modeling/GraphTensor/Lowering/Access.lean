import GraphTensor.Lowering.Error
import GraphTensor.Storage.Basic
set_option autoImplicit false

/-! # Lowering of tensor accesses

Reads and writes of entries become memory operations by the layout of their tensor.
`AccessContext.address` says where an entry lies, in the table of descriptors that the pass is
given:

* a dense tensor has it at a row-major offset (`AccessContext.offset`), computed by the program from
  its indices (`rowMajor`) and scaled by the length of a block;
* a sparse tensor has it at a position of its pattern. The position comes from the loop around the
  access if that stands on the entry, which the access itself says, and is searched for otherwise
  (`Expr.locate`). A read that misses gives zero, a write that misses is an error when it is run;
* a register is a plain variable.

The `Address` then gives the expression of a read (`Address.read`) or the statement of a write
(`Address.write`), so that both sides of an access go to the same place. Everything around accesses
is lowered part by part (`AccessContext.lowerExpr`, `AccessContext.lowerStmt`). What is left of the
symbolic constructs after that (`leftoverIn?`) is an error. -/

namespace GraphTensor

variable {α : Type}

/-! ## Addresses -/

/-- Where an entry of a tensor lies. -/
inductive Address (α : Type) where
  /-- At an offset of a dense buffer. -/
  | dense (offset : Expr α) (block : BlockShape)
  /-- At a position of a sparse buffer. -/
  | sparse (position : Expr α) (block : BlockShape)
  /-- In the register of the tensor. -/
  | register

namespace Address

/-- The expression that reads the entry. -/
def read (tensor : VarName) : Address α → Expr α
  | dense offset block => .load tensor offset block
  | sparse position block => .sparseLoad tensor position block
  | register => .var tensor

/-- The statement that writes the entry or adds to it. -/
def write (tensor : VarName) (value : Expr α) (accumulate : Bool) : Address α → Stmt α
  | dense offset _ => .store tensor offset value accumulate
  | sparse position block => .sparseStore tensor position value accumulate block
  | register => if accumulate then .accumulate tensor value else .assign tensor value

end Address

/-- The number of indices of a dimension, as a program computes it. -/
def IndexDomain.extentExpr : IndexDomain → Expr α
  | set name => .setSize name
  | dense extent => .literal (.int (SignedWord.ofCount extent))

/-- The row-major place of the index tuple that starts with one at place `outer`. -/
def rowMajorFrom (outer : Expr α) : List (Expr α) → List IndexDomain → Expr α
  | index :: indices, dim :: dims =>
    rowMajorFrom (.binary .add (.binary .mul outer dim.extentExpr) index) indices dims
  | [], _ => outer
  | _, [] => outer

/-- The row-major place of an index tuple. -/
def rowMajor : List (Expr α) → List IndexDomain → Expr α
  | index :: indices, _ :: dims => rowMajorFrom index indices dims
  | [], _ => .literal (.int 0)
  | _, [] => .literal (.int 0)

/-- What accesses are lowered with. -/
structure AccessContext (α : Type) where
  /-- The function. -/
  func : Func α
  /-- The descriptors of its tensors. -/
  storages : Storages
  /-- How rows are searched. -/
  search : Search

namespace AccessContext

/-- The descriptor of a tensor. -/
def storage (c : AccessContext α) (var : VarName) : Lowered TensorStorage :=
  Outcome.orFail (.missingStorage var) (c.storages.get? var)

/-- The offset of the dense block at an index tuple: its row-major place, times the length of a
    block unless that is one. -/
def offset (type : TensorType) (block : BlockShape) (indices : List (Expr α)) :
    Lowered (Expr α) := do
  let length ← Outcome.orAbort block.length?
  let place := rowMajor indices type.dims
  return if length = 1 then place
    else .binary .mul place (.literal (.int (SignedWord.ofCount length)))

/-- The address of an entry. The lowered indices are looked at only where the layout needs them. -/
def address (c : AccessContext α) (tensor : VarName) (position : Option VarName) (count : Nat)
    (indices : Lowered (List (Expr α))) : Lowered (Address α) := do
  let storage ← c.storage tensor
  match storage.kind, position with
  | .dense, _ =>
    let type ← Outcome.orFail (.unknownVariable tensor) (c.func.tensorType? tensor)
    Outcome.failIf (count ≠ type.rank) (.unloweredAccess (.access tensor count))
    return .dense (← offset type storage.block (← indices)) storage.block
  | .sparse _, some position => return .sparse (.var position) storage.block
  | .sparse pattern, none =>
    Outcome.failIf (count ≠ 2) (.unloweredAccess (.sparseAccess tensor count))
    match ← indices with
    | [row, col] => return .sparse (.locate pattern row col c.search) storage.block
    | _ => Outcome.fail (.unloweredAccess (.sparseAccess tensor count))
  | .register, _ => return .register

/-! ## Expressions and statements -/

mutual

/-- An expression with its reads lowered. -/
def lowerExpr (c : AccessContext α) (e : Expr α) : Lowered (Expr α) :=
  match e with
  | .tensorRead tensor indices position => do
    return (← c.address tensor position indices.length (c.lowerExprs indices)).read tensor
  | .binary op lhs rhs => do
    let lhs ← c.lowerExpr lhs
    let rhs ← c.lowerExpr rhs
    return .binary op lhs rhs
  | .neg inner => do
    return .neg (← c.lowerExpr inner)
  | .endpointOf set element slot => do
    return .endpointOf set (← c.lowerExpr element) slot
  | .fieldLoad set field element => do
    return .fieldLoad set field (← c.lowerExpr element)
  | .locate pattern row col search => do
    let row ← c.lowerExpr row
    let col ← c.lowerExpr col
    return .locate pattern row col search
  | .load buffer offset block => do
    return .load buffer (← c.lowerExpr offset) block
  | .sparseLoad buffer position block => do
    return .sparseLoad buffer (← c.lowerExpr position) block
  | .literal value => .ok (.literal value)
  | .var name => .ok (.var name)
  | .field set field => .ok (.field set field)
  | .setSize set => .ok (.setSize set)
  | .endpoint endpoints slot => .ok (.endpoint endpoints slot)
  | .elementField element field => .ok (.elementField element field)
  | .index free body => .ok (.index free body)
  | .indexed operand => .ok (.indexed operand)
termination_by structural e

/-- The expressions of a list, lowered from the left. -/
def lowerExprs (c : AccessContext α) (es : List (Expr α)) : Lowered (List (Expr α)) :=
  match es with
  | [] => .ok []
  | e :: rest => do
    let e ← c.lowerExpr e
    let rest ← c.lowerExprs rest
    return e :: rest
termination_by structural es

end

/-- The header of a loop with its reads lowered. -/
def lowerLoop (c : AccessContext α) (header : Loop α) : Lowered (Loop α) :=
  match header with
  | .row pattern row col position => do
    return .row pattern (← c.lowerExpr row) col position
  | .intersect left right leftRow rightRow col leftPosition rightPosition => do
    let leftRow ← c.lowerExpr leftRow
    let rightRow ← c.lowerExpr rightRow
    return .intersect left right leftRow rightRow col leftPosition rightPosition
  | .elements set element => .ok (.elements set element)
  | .range var extent => .ok (.range var extent)
  | .pattern pattern row col position => .ok (.pattern pattern row col position)

/-- The operands of a solve have descriptors, and no matrix is a register. -/
def checkSolve (c : AccessContext α) (task : SolveTask) : Lowered Unit := do
  task.vectors.forM fun var => do
    let _ ← c.storage var
    return ()
  task.matrices.forM fun var => do
    let storage ← c.storage var
    Outcome.failIf (storage.kind = .register) (.unsupportedConstruct (.registerMatrix var))

mutual

/-- A statement with its accesses lowered. -/
def lowerStmt (c : AccessContext α) (s : Stmt α) : Lowered (Stmt α) :=
  match s with
  | .assign var value => do
    return .assign var (← c.lowerExpr value)
  | .accumulate var value => do
    return .accumulate var (← c.lowerExpr value)
  | .tensorWrite tensor indices position value accumulate => do
    let value ← c.lowerExpr value
    let address ← c.address tensor position indices.length (c.lowerExprs indices)
    return address.write tensor value accumulate
  | .loop header body => do
    let header ← c.lowerLoop header
    let body ← c.lowerBody body
    return .loop header body
  | .zero var => do
    let _ ← c.storage var
    return .zero var
  | .fieldWrite set field value => do
    let _ ← c.storage value
    return .fieldWrite set field value
  | .solve task => do
    c.checkSolve task
    return .solve task
  | .assemble _ _ _ _ => Outcome.fail (.unloweredAccess .assemblyReached)
  | .store buffer offset value accumulate => .ok (.store buffer offset value accumulate)
  | .sparseStore buffer position value accumulate block =>
    .ok (.sparseStore buffer position value accumulate block)
termination_by structural s

/-- The statements of a body, lowered from the first. -/
def lowerBody (c : AccessContext α) (body : List (Stmt α)) : Lowered (List (Stmt α)) :=
  match body with
  | [] => .ok []
  | s :: rest => do
    let s ← c.lowerStmt s
    let rest ← c.lowerBody rest
    return s :: rest
termination_by structural body

end

end AccessContext

/-! ## What may be left -/

/-- The symbolic construct that an expression is, apart from its parts. -/
def Expr.leftover? : Expr α → Option Leftover
  | tensorRead tensor _ _ => some (.tensorRead tensor)
  | index _ _ => some .indexExpression
  | indexed _ => some .indexExpression
  | endpoint endpoints _ => some (.kernelEndpoint endpoints)
  | elementField element name => some (.kernelField element name)
  | _ => none

/-- The symbolic construct that a statement is, or the first in its expressions, apart from the
    statements in it. -/
def Stmt.leftover? : Stmt α → Option Leftover
  | tensorWrite tensor _ _ _ _ => some (.tensorWrite tensor)
  | assemble _ set _ _ => some (.assembly set)
  | s => s.exprs.findSome? fun e => e.subexprs.findSome? Expr.leftover?

/-- The first symbolic construct in a body. -/
def leftoverIn? (body : List (Stmt α)) : Option Leftover :=
  (Stmt.substmtsOfList body).findSome? Stmt.leftover?

/-- The function with its tensor accesses lowered, if nothing symbolic is left. -/
def Func.lowerAccesses (f : Func α) (storages : Storages) (search : Search) : Lowered (Func α) := do
  let body ← (AccessContext.mk f storages search).lowerBody f.body
  match leftoverIn? body with
  | some leftover => Outcome.fail (.unloweredAccess leftover)
  | none => return { f with body := body }

end GraphTensor
