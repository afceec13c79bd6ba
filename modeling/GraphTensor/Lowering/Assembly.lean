import GraphTensor.Lowering.Typing
import GraphTensor.Storage.Basic
set_option autoImplicit false

/-! # Lowering of assemblies

An assembly becomes a loop over its set (`Func.lowerAssembly`), whose body is the kernel with
endpoints and fields looked up through the set (`KernelContext.resolve`). Each target is set to zero
before the first assembly into it and never again (`freshTargets`), so that assemblies into one
target add up.

Kernel writes stay entries of tensors; what can be checked about them is checked here, by
`KernelContext.checkWrite`: they add to a target, their indices are the element or its endpoints and
fit the dimensions, their blocks agree, and the places they range over lie in the pattern of a
sparse target (`KernelContext.checkCovered`).

A kernel is lowered statement by statement against a scope (`KernelContext.lowerBody`): an
assignment binds its local for what follows, so an expression can only name what an earlier
statement has bound. The position that a read may carry is passed on as it is, that of a write is
dropped. -/

namespace GraphTensor

variable {α : Type}

/-- What the statements of one kernel are lowered with. -/
structure KernelContext where
  /-- The descriptors of the tensors. -/
  storages : Storages
  /-- The targets of the assembly. -/
  targets : List VarName
  /-- The set it runs over. -/
  set : SetDecl
  /-- The variables that the kernel binds. -/
  kernel : KernelVars

namespace KernelContext

/-- The element at hand, as the loop binds it. -/
def element (c : KernelContext) : Expr α :=
  .var c.kernel.element.name

mutual

/-- An expression of a kernel with endpoints and fields looked up through the set. -/
def resolve (c : KernelContext) (e : Expr α) : Lowered (Expr α) :=
  match e with
  | .literal value => .ok (.literal value)
  | .var name => .ok (.var name)
  | .setSize set => .ok (.setSize set)
  | .endpoint _ slot => .ok (.endpointOf c.set.name c.element slot)
  | .elementField element field =>
    if element ≠ c.kernel.element.name then Lowered.unsupported (.notKernelElement element)
    else .ok (.fieldLoad c.set.name field c.element)
  | .tensorRead tensor indices position =>
    if c.targets.contains tensor then Lowered.unsupported (.readsOwnTarget tensor)
    else do
      return .tensorRead tensor (← c.resolveList indices) position
  | .binary op lhs rhs => do
    let lhs ← c.resolve lhs
    let rhs ← c.resolve rhs
    return .binary op lhs rhs
  | .neg inner => do
    return .neg (← c.resolve inner)
  | .endpointOf set element slot => do
    return .endpointOf set (← c.resolve element) slot
  | .fieldLoad set field element => do
    return .fieldLoad set field (← c.resolve element)
  | .field set field => Lowered.unsupported (.kernelExpression (Expr.field (α := α) set field).form)
  | .index free body => Lowered.unsupported (.kernelExpression (Expr.index free body).form)
  | .indexed operand => Lowered.unsupported (.kernelExpression (Expr.indexed (α := α) operand).form)
  | .locate pattern row col search =>
    Lowered.unsupported (.kernelExpression (Expr.locate pattern row col search).form)
  | .load buffer offset block =>
    Lowered.unsupported (.kernelExpression (Expr.load buffer offset block).form)
  | .sparseLoad buffer position block =>
    Lowered.unsupported (.kernelExpression (Expr.sparseLoad buffer position block).form)
termination_by structural e

/-- The expressions of a list, resolved from the left. -/
def resolveList (c : KernelContext) (es : List (Expr α)) : Lowered (List (Expr α)) :=
  match es with
  | [] => .ok []
  | e :: rest => do
    let e ← c.resolve e
    let rest ← c.resolveList rest
    return e :: rest
termination_by structural es

end

/-- The roles of the indices of a kernel write, each checked against its dimension. -/
def roles (c : KernelContext) (scope : TypeScope α) (target : VarName) :
    List (Expr α) → List IndexDomain → (place : Nat) → Lowered (List IndexRole)
  | index :: indices, dim :: dims, place => do
    let role ← Outcome.orFail (.unsupportedConstruct (.indexWithoutRole place target))
      (c.kernel.role? index)
    match ← scope.typeOf index with
    | .element set =>
      if IndexDomain.set set = dim then
        return role :: (← c.roles scope target indices dims (place + 1))
      else
        Outcome.fail (.indexDomainMismatch (.writeTo target) (.role role c.set.name) (.domain dim)
          (.domain (.set set)))
    | other => Lowered.unsupported (.writeIndexType other)
  | [], _, _ => .ok []
  | _, [], _ => .ok []

/-- The places that a kernel write ranges over lie in the pattern of a sparse target. -/
def checkCovered (c : KernelContext) (target : VarName) (pattern : PatternRef) :
    List IndexRole → Lowered Unit
  | row :: col :: _ =>
    if c.set.covers pattern row col then .ok ()
    else Outcome.fail (.patternIncomplete target c.set.name row col pattern)
  | _ => .error .abort

/-- Checks a kernel write against its target. -/
def checkWrite (c : KernelContext) (scope : TypeScope α) (target : VarName)
    (indices : List (Expr α)) (value : Expr α) : Lowered Unit := do
  let type ← scope.tensor target
  Outcome.failIf (indices.length ≠ type.rank)
    (.indexDomainMismatch (.writeTo target) (.count indices.length) (.rank type.rank)
      (.rank indices.length))
  let roles ← c.roles scope target indices type.dims 0
  let block ← scope.blockOf value (.contribution target)
  Outcome.failIf (block ≠ type.block)
    (.shapeMismatch (.contribution target) (.shape type.block) (.shape block))
  let storage ← Outcome.orFail (.missingStorage target) (c.storages.get? target)
  match storage.kind with
  | .sparse pattern => c.checkCovered target pattern roles
  | _ => .ok ()

/-- The type of a local of a kernel. -/
def localType (scope : TypeScope α) (name : VarName) (value : Expr α) : Lowered ValueType := do
  match ← scope.typeOf value with
  | .tensor _ => Lowered.unsupported (.tensorLocal name)
  | type => return type

/-- Lowers one statement of a kernel and binds the local that it assigns. -/
def lowerStmt (c : KernelContext) (scope : TypeScope α) (s : Stmt α) :
    Lowered (TypeScope α × Stmt α) :=
  match s with
  | .assign name value => do
    let type ← localType scope name value
    let value ← c.resolve value
    return (scope.bind name type, .assign name value)
  | .accumulate name value => do
    let _ ← localType scope name value
    let value ← c.resolve value
    let _ ← scope.lookup name
    return (scope, .accumulate name value)
  | .tensorWrite target indices _ value accumulate =>
    if !c.targets.contains target then Lowered.unsupported (.notTarget target)
    else if !accumulate then Outcome.fail (.nonAccumulatingWrite target)
    else do
      c.checkWrite scope target indices value
      let indices ← c.resolveList indices
      let value ← c.resolve value
      return (scope, .tensorWrite target indices none value true)
  | other => Lowered.unsupported (.kernelStatement other.form)

/-- Lowers the statements of a kernel in order. -/
def lowerBody (c : KernelContext) : TypeScope α → List (Stmt α) → Lowered (List (Stmt α))
  | _, [] => .ok []
  | scope, s :: rest => do
    let (scope, s) ← c.lowerStmt scope s
    let rest ← c.lowerBody scope rest
    return s :: rest

end KernelContext

/-- Checks the types of the variables that a kernel over a set binds. -/
def KernelVars.check (k : KernelVars) (set : SetDecl) : Lowered Unit := do
  Outcome.failIf (k.element.type ≠ .element set.name)
    (.unsupportedConstruct (.kernelElement k.element.name k.element.type set.name))
  match k.endpoints with
  | none => .ok ()
  | some ep =>
    Outcome.failIf (!set.isRelation || ep.type ≠ .endpoints set.name)
      (.unsupportedConstruct (.kernelEndpoints ep.name ep.type set.name))

/-- Checks that a target of an assembly is a tensor with a descriptor. -/
def Func.checkTarget (f : Func α) (storages : Storages) (target : VarName) : Lowered Unit := do
  let _ ← Outcome.orFail (.unknownVariable target) (f.tensorType? target)
  Outcome.failIf (!storages.contains target) (.missingStorage target)

/-- The scope in which a kernel is checked. -/
def Func.kernelScope (f : Func α) (k : KernelVars) : TypeScope α :=
  let scope := (TypeScope.ofFunc f).bindVariable k.element
  match k.endpoints with
  | some ep => scope.bindVariable ep
  | none => scope

/-- The loop of an assembly. -/
def Func.lowerAssembly (f : Func α) (storages : Storages) (targets : List VarName)
    (set : SetName) (kernel : KernelVars) (body : List (Stmt α)) : Lowered (Stmt α) := do
  let decl ← Outcome.orFail (.unknownSet set) (f.set? set)
  kernel.check decl
  targets.forM (f.checkTarget storages)
  let context : KernelContext := ⟨storages, targets, decl, kernel⟩
  let body ← context.lowerBody (f.kernelScope kernel) body
  return .loop (.elements decl.name kernel.element.name) body

/-- The targets of a list that have not been set to zero yet, without repetitions. -/
def freshTargets (zeroed : List VarName) : List VarName → List VarName
  | [] => []
  | target :: rest =>
    if zeroed.contains target then freshTargets zeroed rest
    else target :: freshTargets (zeroed ++ [target]) rest

/-- Lowers the assemblies among statements, `zeroed` being the targets set to zero so far. -/
def Func.lowerAssembliesFrom (f : Func α) (storages : Storages) :
    (zeroed : List VarName) → List (Stmt α) → Lowered (List (Stmt α))
  | _, [] => .ok []
  | zeroed, .assemble targets set kernel body :: rest => do
    let loop ← f.lowerAssembly storages targets set kernel body
    let fresh := freshTargets zeroed targets
    let rest ← f.lowerAssembliesFrom storages (zeroed ++ fresh) rest
    return fresh.map Stmt.zero ++ loop :: rest
  | zeroed, other :: rest => do
    Outcome.failIf (other.children.any Stmt.isAssemble) (.unsupportedConstruct .nestedAssembly)
    let rest ← f.lowerAssembliesFrom storages zeroed rest
    return other :: rest

/-- The function with its assemblies lowered. -/
def Func.lowerAssemblies (f : Func α) (storages : Storages) : Lowered (Func α) := do
  return { f with body := ← f.lowerAssembliesFrom storages [] f.body }

end GraphTensor
