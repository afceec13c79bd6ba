import GraphTensor.Lowering.Role
import GraphTensor.Outcome
set_option autoImplicit false

/-! # Errors of storage inference and lowering

An error (`LowerError`) names its cause by the parts of the program it concerns: a mismatch has a
`Site` at which it shows and two instances of `Description`, what the site should have and what it
has; a construct that is refused is an `Unsupported`, and one that a pass has left behind is a
`Leftover`. `LowerError.message` words all of them, and the wording of a part stands beside the
part.

Two kinds of errors say that a pass left work undone; all others are errors of the program, which is
what `LowerError.isConfiguration` tells. `Lowered` is what passes come to. -/

namespace GraphTensor

/-- The part of a program in which a mismatch shows. -/
inductive Site where
  /-- The descriptor given for a variable. -/
  | storageOf (var : VarName)
  /-- A block constant. -/
  | blockLiteral
  /-- An operation. -/
  | operation (op : BinaryOp)
  /-- A negative. -/
  | negation
  /-- A part of an index expression without indices. -/
  | coefficient
  /-- What a kernel adds to a tensor. -/
  | contribution (target : VarName)
  /-- A product in an index expression. -/
  | productInto (target : VarName)
  /-- An index expression. -/
  | contractionInto (target : VarName)
  /-- The free indices of an index expression. -/
  | destination (target : VarName)
  /-- An operand of an index expression. -/
  | operand (tensor : VarName)
  /-- An entry that is read. -/
  | readOf (tensor : VarName)
  /-- An entry that a kernel writes. -/
  | writeTo (target : VarName)
deriving DecidableEq, Repr

/-- The name of a site in messages. -/
def Site.text : Site → String
  | storageOf var => s!"storage of '{var}'"
  | blockLiteral => "block literal"
  | operation op => op.text
  | negation => "negation"
  | coefficient => "index expression coefficient"
  | contribution target => s!"contribution to '{target}'"
  | productInto target => s!"product in contraction into '{target}'"
  | contractionInto target => s!"contraction into '{target}'"
  | destination target => s!"destination '{target}'"
  | operand tensor => s!"operand '{tensor}'"
  | readOf tensor => s!"read of '{tensor}'"
  | writeTo target => s!"assembly write to '{target}'"

/-- What a site has, or should have. -/
inductive Description where
  /-- A block of a shape. -/
  | shape (shape : BlockShape)
  /-- A value of a type. -/
  | type (type : ValueType)
  /-- A domain. -/
  | domain (domain : IndexDomain)
  /-- A number of values. -/
  | values (count : Nat)
  /-- A number of dimensions. -/
  | rank (count : Nat)
  /-- Any block. -/
  | anyBlock
  /-- Any block or an integer. -/
  | blockOrInt
deriving DecidableEq, Repr

/-- The wording of a description. -/
def Description.text : Description → String
  | shape s => s.text
  | type t => t.text
  | domain d => d.text
  | values count => s!"{count} values"
  | rank count => s!"rank {count}"
  | anyBlock => "float block"
  | blockOrInt => "float block or int"

/-- The index, or the indices, that a mismatch is about. -/
inductive IndexLabel where
  /-- All of them. -/
  | count (count : Nat)
  /-- The one with a name. -/
  | named (name : String)
  /-- The one at a place. -/
  | place (place : Nat)
  /-- The one with a role in a kernel. -/
  | role (role : IndexRole) (set : SetName)
deriving DecidableEq, Repr

/-- The wording of an index. -/
def IndexLabel.text : IndexLabel → String
  | count n => s!"{n} indices"
  | named name => name
  | place k => s!"#{k}"
  | role r set => r.text set

/-- A way in which an index expression breaks the summation convention. -/
inductive Malformation where
  /-- The free indices do not match the dimensions of the destination. -/
  | freeCount (count rank : Nat)
  /-- A free index is named twice. -/
  | repeatedFree (name : String)
  /-- An operand has another number of indices than dimensions. -/
  | operandRank (tensor : VarName) (rank count : Nat)
  /-- A term has no factors. -/
  | emptyTerm
  /-- A term lacks a free index. -/
  | missingFree (name : String)
  /-- A summed index does not come in a pair. -/
  | summedCount (name : String) (count : Nat)
deriving DecidableEq, Repr

/-- The wording of a malformation. -/
def Malformation.text : Malformation → String
  | freeCount count rank => s!"{count} free indices for a rank-{rank} destination"
  | repeatedFree name => s!"free index '{name}' repeated"
  | operandRank tensor rank count =>
    s!"'{tensor}' has rank {rank} but is indexed by {count} indices"
  | emptyTerm => "empty product term"
  | missingFree name => s!"free index '{name}' does not appear in every term"
  | summedCount name count =>
    s!"summed index '{name}' appears {count} times, expected exactly twice"

/-- The reason why a term may have entries outside the pattern of its destination. -/
inductive MaskFailure where
  /-- An operand with the right indices has a pattern that is not known to be smaller. -/
  | notContained (operand : VarName)
  /-- No sparse operand has the right indices. -/
  | noOperand
deriving DecidableEq, Repr

/-- The wording of a reason. -/
def MaskFailure.text : MaskFailure → String
  | notContained operand =>
    s!"operand '{operand}' is stored on a pattern that is not contained in the destination's"
  | noOperand => "a term has no sparse operand restricted to the destination pattern"

/-- A construct that lowering does not accept. -/
inductive Unsupported where
  /-- A division by an indexed tensor. -/
  | divisionByIndexed
  /-- An indexed tensor where terms cannot be expanded. -/
  | indexedInside (form : String)
  /-- An endpoint of something that has none. -/
  | endpointThrough (var : VarName) (type : ValueType)
  /-- A field of something that is no element. -/
  | fieldOn (var : VarName) (type : ValueType)
  /-- A field of truth values where numbers are needed. -/
  | notFloatField (set : SetName) (field : FieldName)
  /-- An index expression out of place. -/
  | strayIndexExpression
  /-- A variable that is no tensor. -/
  | notTensor (var : VarName) (type : ValueType)
  /-- A set that is no relation. -/
  | noEndpoints (set : SetName)
  /-- A slot past the arity. -/
  | slotOutOfRange (slot : Nat) (set : SetName) (arity : Nat)
  /-- An element that is given by something else. -/
  | elementIndex (type : ValueType)
  /-- An assembly in another statement. -/
  | nestedAssembly
  /-- A kernel element of the wrong type. -/
  | kernelElement (var : VarName) (type : ValueType) (set : SetName)
  /-- Kernel endpoints of the wrong type. -/
  | kernelEndpoints (var : VarName) (type : ValueType) (set : SetName)
  /-- A local of a kernel that is a tensor. -/
  | tensorLocal (var : VarName)
  /-- A statement that a kernel may not hold. -/
  | kernelStatement (form : String)
  /-- A write of a kernel to something that is no target. -/
  | notTarget (var : VarName)
  /-- An index of a kernel write that has no role. -/
  | indexWithoutRole (place : Nat) (target : VarName)
  /-- An index of a kernel write that is no element. -/
  | writeIndexType (type : ValueType)
  /-- A field of an element other than the kernel's. -/
  | notKernelElement (var : VarName)
  /-- A read of a target in its own kernel. -/
  | readsOwnTarget (target : VarName)
  /-- An expression that a kernel may not hold. -/
  | kernelExpression (form : String)
  /-- A matrix in a register. -/
  | registerMatrix (var : VarName)
  /-- An index that no loop binds. -/
  | unboundIndex (name : String)
deriving DecidableEq, Repr

/-- The wording of a construct. -/
def Unsupported.text : Unsupported → String
  | divisionByIndexed => "division by an indexed tensor"
  | indexedInside form => s!"indexed tensor inside {form}"
  | endpointThrough var type => s!"endpoint lookup through '{var}' of type {type.text}"
  | fieldOn var type => s!"field access on '{var}' of type {type.text}"
  | notFloatField set field => s!"field '{set}.{field}' is not a float field"
  | strayIndexExpression => "index expression outside a tensor assignment"
  | notTensor var type => s!"'{var}' of type {type.text} used as a tensor"
  | noEndpoints set => s!"set '{set}' has no endpoints"
  | slotOutOfRange slot set arity => s!"endpoint slot {slot} of '{set}' with arity {arity}"
  | elementIndex type => s!"element index of type {type.text}"
  | nestedAssembly => "nested assembly"
  | kernelElement var type set =>
    s!"kernel element '{var}' of type {type.text} in assembly over '{set}'"
  | kernelEndpoints var type set =>
    s!"kernel endpoints '{var}' of type {type.text} in assembly over '{set}'"
  | tensorLocal var => s!"kernel local '{var}' bound to a tensor"
  | kernelStatement form => s!"statement in assembly kernel: {form}"
  | notTarget var => s!"assembly kernel writes '{var}', which is not one of its targets"
  | indexWithoutRole place target =>
    s!"assembly write index #{place} of '{target}' is neither the element nor one of its endpoints"
  | writeIndexType type => s!"assembly write index of type {type.text}"
  | notKernelElement var => s!"field access on '{var}', which is not the kernel element"
  | readsOwnTarget target => s!"assembly kernel reads its own target '{target}'"
  | kernelExpression form => s!"expression in assembly kernel: {form}"
  | registerMatrix var => s!"solve with register '{var}' as system matrix"
  | unboundIndex name => s!"unbound index '{name}'"

/-- Something that no pass should have left in a program. -/
inductive Leftover where
  /-- An assembly that comes to the last pass. -/
  | assemblyReached
  /-- An access with the wrong number of indices. -/
  | access (tensor : VarName) (count : Nat)
  /-- An access to a sparse tensor with the wrong number of indices. -/
  | sparseAccess (tensor : VarName) (count : Nat)
  /-- A write of an entry. -/
  | tensorWrite (tensor : VarName)
  /-- An assembly. -/
  | assembly (set : SetName)
  /-- A read of an entry. -/
  | tensorRead (tensor : VarName)
  /-- A part of an index expression. -/
  | indexExpression
  /-- An endpoint of a kernel. -/
  | kernelEndpoint (var : VarName)
  /-- A field of a kernel's element. -/
  | kernelField (element : VarName) (field : FieldName)
deriving DecidableEq, Repr

/-- The wording of a leftover. -/
def Leftover.text : Leftover → String
  | assemblyReached => "assembly reached tensor-access lowering"
  | access tensor count => s!"access to '{tensor}' with {count} indices"
  | sparseAccess tensor count => s!"sparse access to '{tensor}' with {count} indices"
  | tensorWrite tensor => s!"tensor write to '{tensor}'"
  | assembly set => s!"assembly over '{set}'"
  | tensorRead tensor => s!"tensor read of '{tensor}'"
  | indexExpression => "index expression"
  | kernelEndpoint var => s!"kernel endpoint reference '{var}'"
  | kernelField element field => s!"kernel field reference '{element}.{field}'"

/-- An error of storage inference or lowering. -/
inductive LowerError where
  /-- Two patterns for one variable, neither of which is known to hold the other. -/
  | conflictingTopology (var : VarName) (first second : PatternRef)
  /-- A pattern that cannot lie on the dimensions of a variable. -/
  | incompatibleTopology (var : VarName) (pattern : PatternRef) (type : TensorType)
  /-- An index over another domain than its dimension. -/
  | indexDomainMismatch (site : Site) (index : IndexLabel) (expected found : Description)
  /-- A kernel write that is not known to lie in the pattern of its target. -/
  | patternIncomplete (target : VarName) (set : SetName) (row col : IndexRole)
      (pattern : PatternRef)
  /-- A sparse destination that would need more entries than its pattern has. -/
  | patternMismatch (target : VarName) (pattern : PatternRef) (reason : MaskFailure)
  /-- Blocks that do not fit. -/
  | shapeMismatch (site : Site) (expected found : Description)
  /-- An index expression against the summation convention. -/
  | malformedIndexExpression (var : VarName) (reason : Malformation)
  /-- A kernel write that does not add. -/
  | nonAccumulatingWrite (target : VarName)
  /-- A set that is not declared. -/
  | unknownSet (set : SetName)
  /-- A field that its set does not declare. -/
  | unknownField (set : SetName) (field : FieldName)
  /-- A variable that is not declared. -/
  | unknownVariable (var : VarName)
  /-- A construct that lowering does not accept. -/
  | unsupportedConstruct (construct : Unsupported)
  /-- A tensor without a descriptor. -/
  | missingStorage (var : VarName)
  /-- A construct that a pass should have removed. -/
  | unloweredAccess (leftover : Leftover)
deriving DecidableEq, Repr

namespace LowerError

/-- The error lies in the program, and not in a pass that left work undone. -/
def isConfiguration : LowerError → Bool
  | missingStorage _ => false
  | unloweredAccess _ => false
  | _ => true

/-- The message of an error. -/
def message : LowerError → String
  | conflictingTopology var first second =>
    s!"variable '{var}' is indexed by conflicting topologies {first.text} and {second.text}"
  | incompatibleTopology var pattern type =>
    s!"topology {pattern.text} cannot index variable '{var}' of type {type.text}"
  | indexDomainMismatch site index expected found =>
    s!"index '{index.text}' in {site.text} ranges over {found.text}, expected {expected.text}"
  | patternIncomplete target set row col pattern =>
    s!"assembly over '{set}' writes '{target}' at ({row.text set}, {col.text set}), " ++
      s!"outside pattern {pattern.text}"
  | patternMismatch target pattern reason =>
    s!"cannot write '{target}' with pattern {pattern.text}: {reason.text}"
  | shapeMismatch site expected found =>
    s!"shape mismatch in {site.text}: expected {expected.text}, found {found.text}"
  | malformedIndexExpression var reason =>
    s!"malformed index expression for '{var}': {reason.text}"
  | nonAccumulatingWrite target =>
    s!"assembly kernel assigns to '{target}' instead of accumulating into it"
  | unknownSet set => s!"unknown set: {set}"
  | unknownField set field => s!"set '{set}' has no field '{field}'"
  | unknownVariable var => s!"unknown variable: {var}"
  | unsupportedConstruct construct => s!"unsupported construct: {construct.text}"
  | missingStorage var => s!"no storage descriptor for '{var}'"
  | unloweredAccess leftover =>
    s!"unlowered construct remains after lowering: {leftover.text}"

end LowerError

/-- What storage inference and lowering come to. -/
abbrev Lowered (β : Type) : Type :=
  Outcome LowerError β

/-- The error of an unsupported construct. -/
def Lowered.unsupported {β : Type} (construct : Unsupported) : Lowered β :=
  Outcome.fail (.unsupportedConstruct construct)

/-- The declaration of a set, or the error that it is unknown. -/
def Func.findSet {α : Type} (f : Func α) (name : SetName) : Lowered SetDecl :=
  Outcome.orFail (.unknownSet name) (f.set? name)

end GraphTensor
