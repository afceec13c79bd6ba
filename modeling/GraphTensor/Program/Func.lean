import GraphTensor.Program.Stmt
import GraphTensor.Table
set_option autoImplicit false

/-! # Functions

A function (`Func`) declares sets with their fields, and variables as parameters, locals and
results, and has a body of statements. Sets are kept in a `SetTable`, which carries the proof that
each declaration stands under its own name; variables are lists, in which names may repeat, and then
`Func.varType?` finds the first.

The builder functions (`Func.withSet`, `Func.withResult`, `Func.withStmt` and their like) append one
declaration or statement each. `Func.withAssembly` names the variables of a kernel after the set it
runs over (`Func.kernelVars`) and hands them to whoever writes the kernel, who refers to them by
`KernelVars.elementExpr`, `KernelVars.endpointExpr` and `KernelVars.fieldExpr`. -/

namespace GraphTensor

/-- The type of a field of a set. -/
inductive FieldType where
  /-- A block for each element. -/
  | float (block : BlockShape)
  /-- A truth value for each element. -/
  | bool
deriving DecidableEq, Repr

/-- The endpoints that a relation declares. -/
structure EndpointDecl where
  /-- The set of the endpoints. -/
  set : SetName
  /-- The number of endpoints of an element. -/
  arity : Nat
deriving DecidableEq, Repr

/-- The declaration of a set. -/
structure SetDecl where
  /-- The name of the set. -/
  name : SetName
  /-- Its endpoints, if it is a relation. -/
  endpoints : Option EndpointDecl
  /-- Its fields. -/
  fields : Table FieldName FieldType
deriving DecidableEq, Repr

namespace SetDecl

/-- A set without endpoints or fields. -/
def plain (name : SetName) : SetDecl :=
  ⟨name, none, Table.empty⟩

/-- A relation without fields. -/
def relation (name endpointSet : SetName) (arity : Nat) : SetDecl :=
  ⟨name, some ⟨endpointSet, arity⟩, Table.empty⟩

/-- The declaration with a field. -/
def withField (d : SetDecl) (field : FieldName) (type : FieldType) : SetDecl :=
  { d with fields := d.fields.insert field type }

/-- The set is a relation. -/
def isRelation (d : SetDecl) : Bool :=
  d.endpoints.isSome

end SetDecl

/-- Declarations of sets, each under its own name. -/
structure SetTable where
  /-- The declarations by name. -/
  table : Table SetName SetDecl
  /-- The name of a declaration is the one it stands under. -/
  named : ∀ entry ∈ table.entries, entry.2.name = entry.1
deriving DecidableEq, Repr

namespace SetTable

/-- No sets. -/
def empty : SetTable :=
  ⟨Table.empty, fun _ h => nomatch h⟩

/-- The declaration of a set. -/
def get? (t : SetTable) (name : SetName) : Option SetDecl :=
  t.table.get? name

/-- The declarations, in the order of their names' first insertion. -/
def decls (t : SetTable) : List SetDecl :=
  t.table.values

theorem named_put {d : SetDecl} {entries : List (SetName × SetDecl)}
    (h : ∀ entry ∈ entries, entry.2.name = entry.1) :
    ∀ entry ∈ Table.put d.name d entries, entry.2.name = entry.1 := by
  induction entries with
  | nil => simp [Table.put]
  | cons e rest ih =>
    obtain ⟨k, d'⟩ := e
    have hrest := ih fun entry hentry => h entry (List.mem_cons_of_mem _ hentry)
    by_cases hk : k = d.name
    · intro entry hentry
      simp only [Table.put, hk, beq_self_eq_true, if_true, List.mem_cons] at hentry
      rcases hentry with rfl | hentry
      · rfl
      · exact h entry (List.mem_cons_of_mem _ hentry)
    · have hne : (k == d.name) = false := by simpa using hk
      intro entry hentry
      simp only [Table.put, hne, Bool.false_eq_true, if_false, List.mem_cons] at hentry
      rcases hentry with rfl | hentry
      · exact h _ (List.mem_cons_self ..)
      · exact hrest entry hentry

/-- The declarations with one more, which takes the place of an earlier one of its name. -/
def insert (t : SetTable) (d : SetDecl) : SetTable :=
  ⟨t.table.insert d.name d, named_put t.named⟩

end SetTable

/-- A function. -/
structure Func (α : Type) where
  /-- The name. -/
  name : FuncName
  /-- The sets it declares. -/
  sets : SetTable
  /-- The variables whose values the caller supplies. -/
  params : List Variable
  /-- The variables of the function alone. -/
  locals : List Variable
  /-- The variables whose values the caller gets back. -/
  results : List Variable
  /-- The statements. -/
  body : List (Stmt α)
deriving Repr

namespace Func

variable {α : Type}

/-- All declared variables: parameters, locals, results. -/
def allVars (f : Func α) : List Variable :=
  f.params ++ f.locals ++ f.results

/-- The type of the first variable with a name. -/
def varType? (f : Func α) (name : VarName) : Option ValueType :=
  (f.allVars.find? (·.name == name)).map Variable.type

/-- The tensor type of the first variable with a name. -/
def tensorType? (f : Func α) (name : VarName) : Option TensorType :=
  (f.varType? name).bind ValueType.asTensor?

/-- The declaration of a set. -/
def set? (f : Func α) (name : SetName) : Option SetDecl :=
  f.sets.get? name

/-- The variables of tensor type with their types; of two with one name the later type counts. -/
def tensors (f : Func α) : Table VarName TensorType :=
  Table.ofList (f.allVars.filterMap fun v => v.type.asTensor?.map fun t => (v.name, t))

/-! ## Building a function -/

/-- The function with nothing declared. -/
def named (name : FuncName) : Func α :=
  ⟨name, SetTable.empty, [], [], [], []⟩

/-- Declares a set. -/
def withSet (f : Func α) (d : SetDecl) : Func α :=
  { f with sets := f.sets.insert d }

/-- Declares a parameter. -/
def withParam (f : Func α) (name : VarName) (type : ValueType) : Func α :=
  { f with params := f.params ++ [⟨name, type⟩] }

/-- Declares a local tensor. -/
def withLocal (f : Func α) (name : VarName) (type : TensorType) : Func α :=
  { f with locals := f.locals ++ [⟨name, .tensor type⟩] }

/-- Declares a resulting tensor. -/
def withResult (f : Func α) (name : VarName) (type : TensorType) : Func α :=
  { f with results := f.results ++ [⟨name, .tensor type⟩] }

/-- Appends a statement. -/
def withStmt (f : Func α) (s : Stmt α) : Func α :=
  { f with body := f.body ++ [s] }

/-- The variables of a kernel over a set: the element, and the endpoints if the set is declared as a
    relation by now. -/
def kernelVars (f : Func α) (set : SetName) : KernelVars where
  element := ⟨s!"{set}.e", .element set⟩
  endpoints :=
    if (f.set? set).any SetDecl.isRelation then some ⟨s!"{set}.ep", .endpoints set⟩ else none

/-- Appends an assembly whose kernel is written for the variables it is given. -/
def withAssembly (f : Func α) (targets : List VarName) (set : SetName)
    (body : KernelVars → List (Stmt α)) : Func α :=
  let kernel := f.kernelVars set
  f.withStmt (.assemble targets set kernel (body kernel))

end Func

namespace KernelVars

variable {α : Type}

/-- The element at hand. -/
def elementExpr (k : KernelVars) : Expr α :=
  .var k.element.name

/-- An endpoint of the element at hand. Over a set without endpoints it refers to the element
    itself, which lowering does not accept. -/
def endpointExpr (k : KernelVars) (slot : Nat) : Expr α :=
  .endpoint (k.endpoints.getD k.element).name slot

/-- A field of the element at hand. -/
def fieldExpr (k : KernelVars) (field : FieldName) : Expr α :=
  .elementField k.element.name field

end KernelVars

/-- A contribution of a kernel to an entry of a tensor. -/
def Stmt.contribute {α : Type} (tensor : VarName) (indices : List (Expr α)) (value : Expr α) :
    Stmt α :=
  .tensorWrite tensor indices none value true

end GraphTensor
