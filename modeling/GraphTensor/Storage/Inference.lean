import GraphTensor.Lowering.Terms
import GraphTensor.Storage.Basic
set_option autoImplicit false

/-! # Storage inference

A tensor without dimensions lives in a register and one with a single dimension is dense. A tensor
with two is sparse when there is evidence of the pattern that its places range over, and dense
otherwise (`Inference.storageOf`). Evidence (`Evidence`) comes from kernel writes, whose indices
range over a pattern induced by the set of the assembly (`Inference.observeWrite`), and from index
expressions each of whose terms has a sparse operand with just the free indices, which masks the
term (`Inference.observeIndex`). Two patterns for one tensor are merged if one holds the other
(`mergePatterns`), and are a conflict otherwise.

The evidence of index expressions is gathered in rounds until a round finds nothing to report
(`Inference.propagate`). A variable passes through at most two stages of evidence, a diagonal and
then the pattern of a relation (`PatternRef.stage`), so the number of stages still ahead of the
variables (`Evidence.headroom`) bounds the rounds that change anything. A round can also report
evidence that changes nothing, when a diagonal comes up again after the relation that holds it;
every later round would report the same, and the outcome is `Fault.divergence`. -/

namespace GraphTensor

-- sums are those of numbers alone, whatever else has a zero
attribute [local instance (high)] Zero.ofOfNat0

/-- Patterns found for variables so far. -/
abbrev Evidence : Type :=
  Table VarName PatternRef

/-- The pattern that holds both of two pieces of evidence for a variable. -/
def mergePatterns (var : VarName) (a b : PatternRef) : Except LowerError PatternRef :=
  if a.subsetOf b then .ok b
  else if b.subsetOf a then .ok a
  else .error (.conflictingTopology var a b)

/-- Adds a piece of evidence for a variable. -/
def Evidence.merge (e : Evidence) (var : VarName) (pattern : PatternRef) :
    Except LowerError Evidence :=
  match e.get? var with
  | none => .ok (e.insert var pattern)
  | some current => do
    return e.insert var (← mergePatterns var current pattern)

/-- The stages of evidence that a pattern has passed. -/
def PatternRef.stage (p : PatternRef) : Nat :=
  if p.isDiagonal then 1 else 2

/-- The stages of evidence that are still ahead of some variables. -/
def Evidence.headroom (e : Evidence) (vars : List VarName) : Nat :=
  (vars.map fun var => 2 - ((e.get? var).map PatternRef.stage).getD 0).sum

section

variable {α : Type}

/-- A pattern can lie on the dimensions of a variable: they are its rows and columns, a diagonal is
    that of its own set, and the pattern of a relation is one that its endpoints induce. -/
def Func.checkInduces (f : Func α) (var : VarName) (pattern : PatternRef) (type : TensorType) :
    Except LowerError Unit :=
  let incompatible : LowerError := .incompatibleTopology var pattern type
  if type.dims ≠ [.set pattern.rows, .set pattern.cols] then .error incompatible
  else
    match pattern.source with
    | .diagonal set =>
      if pattern.rows = set ∧ pattern.cols = set then .ok () else .error incompatible
    | .relation relation =>
      match f.set? relation with
      | none => .error (.unknownSet relation)
      | some decl =>
        match decl.endpoints with
        | none => .error incompatible
        | some ep =>
          if pattern = .square relation ep.set ∨ pattern = .incidence relation ep.set ∨
              pattern = .coincidence relation ep.set then .ok ()
          else .error incompatible

/-- A write of an entry: the tensor and its indices. -/
def Stmt.entryWrite? : Stmt α → Option (VarName × List (Expr α))
  | .tensorWrite tensor indices _ _ _ => some (tensor, indices)
  | _ => none

/-- The pattern that a kernel write with two indices ranges over. -/
def SetDecl.writtenPattern? (d : SetDecl) (kernel : KernelVars) :
    List (Expr α) → Option PatternRef
  | [row, col] => do
    let row ← kernel.role? row
    let col ← kernel.role? col
    d.inducedPattern? row col
  | _ => none

/-- What inference works with: the function, its tensors, and the descriptors given beforehand. -/
structure Inference (α : Type) where
  /-- The function. -/
  func : Func α
  /-- Its tensors. -/
  tensors : Table VarName TensorType
  /-- The descriptors given beforehand, which evidence does not touch. -/
  seed : Storages

namespace Inference

/-- The pattern known for a variable. -/
def patternOf? (inf : Inference α) (e : Evidence) (var : VarName) : Option PatternRef :=
  match inf.seed.get? var with
  | some storage => storage.pattern?
  | none => e.get? var

/-! ## Evidence of assemblies -/

/-- Adds the evidence of one kernel write. -/
def observeWrite (inf : Inference α) (decl : SetDecl) (kernel : KernelVars) (e : Evidence)
    (write : VarName × List (Expr α)) : Except LowerError Evidence :=
  let (var, indices) := write
  if inf.seed.contains var then .ok e
  else
    match inf.tensors.get? var, decl.writtenPattern? kernel indices with
    | some type, some pattern => do
      inf.func.checkInduces var pattern type
      e.merge var pattern
    | _, _ => .ok e

/-- Adds the evidence of one statement, if it is an assembly. -/
def observeAssembly (inf : Inference α) (e : Evidence) (s : Stmt α) : Except LowerError Evidence :=
  match s with
  | .assemble _ set kernel body =>
    match inf.func.set? set with
    | none => .error (.unknownSet set)
    | some decl =>
      ((Stmt.substmtsOfList body).filterMap Stmt.entryWrite?).foldlM
        (inf.observeWrite decl kernel) e
  | _ => .ok e

/-- The evidence of all assemblies. -/
def assemblyEvidence (inf : Inference α) : Except LowerError Evidence :=
  inf.func.body.foldlM inf.observeAssembly Table.empty

/-! ## Evidence of index expressions -/

/-- The pattern that masks a term: that of an operand with just the free indices. A diagonal among
    several is taken before the first of the others. -/
def termMask? (inf : Inference α) (e : Evidence) (free : List IndexVar) (t : Term α) :
    Option PatternRef :=
  let masks := t.tensors.filterMap fun (_, operand) =>
    if operand.names = free.map IndexVar.name then inf.patternOf? e operand.tensor else none
  (masks.find? PatternRef.isDiagonal).or masks.head?

/-- The pattern that masks a sum of terms, if every term is masked; the masks are merged from the
    left up to the first term without one. -/
def sumMask (inf : Inference α) (e : Evidence) (var : VarName) (free : List IndexVar) :
    Option PatternRef → List (Term α) → Except LowerError (Option PatternRef)
  | mask, [] => .ok mask
  | mask, t :: rest =>
    match inf.termMask? e free t with
    | none => .ok none
    | some new =>
      match mask with
      | none => inf.sumMask e var free (some new) rest
      | some current => do
        let merged ← mergePatterns var current new
        inf.sumMask e var free (some merged) rest

/-- Adds the evidence of one statement, if it assigns an index expression with two free indices to a
    tensor about which neither the seed nor an assembly has decided; says whether there was anything
    to add. A body that does not expand is left to lowering to report. -/
def observeIndex [Scalar α] (inf : Inference α) (decided : List VarName) (e : Evidence)
    (s : Stmt α) : Except LowerError (Evidence × Bool) :=
  match s with
  | .assign var (.index free body) =>
    if inf.seed.contains var || decided.contains var || free.length ≠ 2 then .ok (e, false)
    else
      match inf.tensors.get? var, body.terms with
      | some type, .ok terms => do
        match ← inf.sumMask e var free none terms with
        | none => return (e, false)
        | some mask =>
          if e.get? var = some mask then return (e, false)
          else
            inf.func.checkInduces var mask type
            return (← e.merge var mask, true)
      | _, _ => .ok (e, false)
  | _ => .ok (e, false)

/-- One round over a list of statements; says whether any had something to add. -/
def round [Scalar α] (inf : Inference α) (decided : List VarName) :
    List (Stmt α) → Evidence → Except LowerError (Evidence × Bool)
  | [], e => .ok (e, false)
  | s :: rest, e => do
    let (e, first) ← inf.observeIndex decided e s
    let (e, later) ← inf.round decided rest e
    return (e, first || later)

/-- Rounds until one has nothing to add. -/
def propagate [Scalar α] (inf : Inference α) (decided : List VarName) (e : Evidence) :
    Lowered Evidence :=
  match inf.round decided inf.func.body e with
  | .error cause => Outcome.fail cause
  | .ok (_, false) => .ok e
  | .ok (next, true) =>
    if next.headroom inf.tensors.keys < e.headroom inf.tensors.keys then
      inf.propagate decided next
    else .error .divergence
termination_by e.headroom inf.tensors.keys

/-! ## Descriptors -/

/-- Checks a descriptor given beforehand. -/
def checkSeed (inf : Inference α) (entry : VarName × TensorStorage) : Except LowerError Unit :=
  let (var, storage) := entry
  match inf.tensors.get? var with
  | none => .error (.unknownVariable var)
  | some type =>
    if storage.block ≠ type.block then
      .error (.shapeMismatch (.storageOf var) (.shape type.block) (.shape storage.block))
    else
      match storage.kind with
      | .sparse pattern => inf.func.checkInduces var pattern type
      | _ => .ok ()

/-- The descriptor of a tensor, the evidence being complete. -/
def storageOf (inf : Inference α) (e : Evidence) (var : VarName) (type : TensorType) :
    TensorStorage :=
  match inf.seed.get? var with
  | some storage => storage
  | none =>
    match type.rank with
    | 0 => ⟨.register, type.block⟩
    | 1 => ⟨.dense, type.block⟩
    | _ =>
      match e.get? var with
      | some pattern => ⟨.sparse pattern, type.block⟩
      | none => ⟨.dense, type.block⟩

end Inference

variable [Scalar α]

/-- The descriptors of a function's tensors, in the order of their declaration, with those given
    beforehand taken over once they are checked. -/
def Func.inferStorageWith (f : Func α) (seed : Storages) : Lowered Storages := do
  let inf : Inference α := ⟨f, f.tensors, seed⟩
  Outcome.ofExcept (seed.entries.forM inf.checkSeed)
  let assembled ← Outcome.ofExcept inf.assemblyEvidence
  let evidence ← inf.propagate assembled.keys assembled
  return ⟨inf.tensors.entries.map fun (var, type) => (var, inf.storageOf evidence var type)⟩

/-- The descriptors of a function's tensors. -/
def Func.inferStorage (f : Func α) : Lowered Storages :=
  f.inferStorageWith Table.empty

end

end GraphTensor
