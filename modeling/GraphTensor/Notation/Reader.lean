import GraphTensor.Json.View
import GraphTensor.Storage.Basic
set_option autoImplicit false

/-! # Reading programs in JSON

A program is written in JSON as nested lists, each starting with a word for its form. A domain is
the text of a set or an extent (`Notation.domain?`), a shape the list of its sizes
(`Notation.shape?`). Some forms are abbreviations: the diagonal and the square pattern of a set, a
contribution of a kernel, and inside a kernel its element, an endpoint of it and a field of it.

`Notation.expr?` and `Notation.stmt?` read expressions and statements by recursion on the value,
with the variables of the kernel around them for the abbreviations. A function (`Notation.func?`) is
a list of builder steps, carried out in order (`Notation.step?`), and variables of any type that are
appended after them (`Notation.lateStep?`). -/

namespace GraphTensor

namespace Notation

/-! ## Types and references -/

/-- Reads a block shape. -/
def shape? (j : Json) : Option BlockShape := do
  match ← j.list? Json.count? with
  | [] => some .scalar
  | [n] => some (.vector n)
  | [r, c] => some (.matrix r c)
  | _ => none

/-- Reads a domain. -/
def domain? : Json → Option IndexDomain
  | .string (some set) => some (.set set)
  | j => j.count?.map .dense

/-- Reads a type. -/
def type? (j : Json) : Option ValueType :=
  match j with
  | .string (some "int") => some .int
  | .string (some "bool") => some .bool
  | .string (some "float") => some .float
  | j => do
    match ← j.tagged? with
    | ("block", [s]) => some (.block (← shape? s))
    | ("tensor", [dims, s]) => some (.tensor ⟨← dims.list? domain?, ← shape? s⟩)
    | ("element", [set]) => some (.element (← set.str?))
    | ("endpoints", [set]) => some (.endpoints (← set.str?))
    | _ => none

/-- Reads a variable. -/
def typedVar? (j : Json) : Option Variable := do
  let (name, type) ← j.pair? Json.str? type?
  some ⟨name, type⟩

/-- Reads a reference to a pattern. -/
def patternRef? (j : Json) : Option PatternRef := do
  match ← j.list? Json.str? with
  | ["relation", relation, rows, cols] => some ⟨.relation relation, rows, cols⟩
  | ["diagonal", set, rows, cols] => some ⟨.diagonal set, rows, cols⟩
  | ["diagonal", set] => some (.diagonal set)
  | ["square", relation, set] => some (.square relation set)
  | _ => none

/-- Reads a search strategy. -/
def search? : Json → Option Search
  | .string (some "binary") => some .binary
  | .string (some "linear") => some .linear
  | _ => none

/-- Reads an index variable. -/
def indexVar? (j : Json) : Option IndexVar := do
  let (name, domain) ← j.pair? Json.str? domain?
  some ⟨name, domain⟩

/-- Reads a descriptor with the variable it is for. -/
def storage? (j : Json) : Option (VarName × TensorStorage) := do
  match ← j.items? with
  | [var, kind, s] =>
    let kind ← match kind with
      | .string (some "dense") => some .dense
      | .string (some "register") => some .register
      | other => (patternRef? other).map StorageKind.sparse
    some (← var.str?, ⟨kind, ← shape? s⟩)
  | _ => none

/-- Reads a table of descriptors; a later one for a variable takes the place of an earlier one. -/
def storages? (j : Json) : Option Storages := do
  some (Table.ofList (← j.list? storage?))

/-! ## Expressions and statements -/

/-- The word for an operation. -/
def operation? : String → Option BinaryOp
  | "+" => some .add
  | "-" => some .sub
  | "*" => some .mul
  | "/" => some .div
  | _ => none

mutual

/-- Reads an expression, inside a kernel with the given variables if there are any. -/
def expr? (kernel : Option KernelVars) (j : Json) : Option (Expr Float) :=
  match j with
  | .array (.string (some tag) :: args) =>
    match tag, args with
    | "float", [x] => do some (.literal (.float (← x.double?)))
    | "int", [n] => do some (.literal (.int (← n.int?)))
    | "bool", [b] => do some (.literal (.bool (← b.bool?)))
    | "block", [s, xs] => do
      some (.literal (.block (← shape? s) (← xs.list? Json.double?).toArray))
    | "var", [v] => do some (.var (← v.str?))
    | "endpoint", [v, slot] => do some (.endpoint (← v.str?) (← slot.count?))
    | "element_field", [v, f] => do some (.elementField (← v.str?) (← f.str?))
    | "endpoint_of", [s, e, slot] => do
      some (.endpointOf (← s.str?) (← expr? kernel e) (← slot.count?))
    | "field_load", [s, f, e] => do
      some (.fieldLoad (← s.str?) (← f.str?) (← expr? kernel e))
    | "field", [s, f] => do some (.field (← s.str?) (← f.str?))
    | "neg", [a] => do some (.neg (← expr? kernel a))
    | "index", [free, body] => do
      some (.index (← free.list? indexVar?) (← expr? kernel body))
    | "indexed", [t, indices] => do some (.indexed ⟨← t.str?, ← indices.list? indexVar?⟩)
    | "read", [t, .array indices] => do
      some (.tensorRead (← t.str?) (← exprs? kernel indices) none)
    | "read", [t, .array indices, position] => do
      some (.tensorRead (← t.str?) (← exprs? kernel indices) (← position.optional? Json.str?))
    | "set_size", [s] => do some (.setSize (← s.str?))
    | "locate", [p, row, col, search] => do
      some (.locate (← patternRef? p) (← expr? kernel row) (← expr? kernel col) (← search? search))
    | "load", [b, offset, s] => do
      some (.load (← b.str?) (← expr? kernel offset) (← shape? s))
    | "sparse_load", [b, position, s] => do
      some (.sparseLoad (← b.str?) (← expr? kernel position) (← shape? s))
    | "el", [] => kernel.map KernelVars.elementExpr
    | "ep", [slot] => do some ((← kernel).endpointExpr (← slot.count?))
    | "ef", [f] => do some ((← kernel).fieldExpr (← f.str?))
    | tag, [a, b] => do
      some (.binary (← operation? tag) (← expr? kernel a) (← expr? kernel b))
    | _, _ => none
  | _ => none
termination_by structural j

/-- Reads a list of expressions. -/
def exprs? (kernel : Option KernelVars) (js : List Json) : Option (List (Expr Float)) :=
  match js with
  | [] => some []
  | j :: rest => do
    let e ← expr? kernel j
    let rest ← exprs? kernel rest
    some (e :: rest)
termination_by structural js

end

/-- Reads a boundary condition. -/
def boundary? (j : Json) : Option BoundaryCondition := do
  match ← j.list? Json.str? with
  | [set, marker, values] => some ⟨set, marker, values⟩
  | _ => none

/-- Reads the rest of a solve. -/
def solve? : String → List Json → Option SolveTask
  | "direct", [matrix, rhs, result, boundary] => do
    some (.direct ⟨← matrix.str?, ← rhs.str?, ← result.str?, ← boundary.optional? boundary?⟩)
  | "schur", [primary, coupling, derived, rhsPrimary, rhsDerived, resultPrimary, resultDerived] =>
    do
    some (.schur ⟨← primary.str?, ← coupling.str?, ← derived.optional? Json.str?,
      ← rhsPrimary.str?, ← rhsDerived.str?, ← resultPrimary.str?, ← resultDerived.str?⟩)
  | _, _ => none

/-- Reads the rest of a loop's header. -/
def loop? (kernel : Option KernelVars) : String → List Json → Option (Loop Float)
  | "for_elements", [set, var] => do some (.elements (← set.str?) (← var.str?))
  | "for_range", [var, extent] => do some (.range (← var.str?) (← domain? extent))
  | "for_pattern", [p, row, col, position] => do
    some (.pattern (← patternRef? p) (← row.str?) (← col.str?) (← position.str?))
  | "for_row", [p, row, col, position] => do
    some (.row (← patternRef? p) (← expr? kernel row) (← col.str?) (← position.str?))
  | "for_intersect", [left, right, leftRow, rightRow, col, leftPosition, rightPosition] => do
    some (.intersect (← patternRef? left) (← patternRef? right) (← expr? kernel leftRow)
      (← expr? kernel rightRow) (← col.str?) (← leftPosition.str?) (← rightPosition.str?))
  | _, _ => none

mutual

/-- Reads a statement, inside a kernel with the given variables if there are any. -/
def stmt? (kernel : Option KernelVars) (j : Json) : Option (Stmt Float) :=
  match j with
  | .array (.string (some tag) :: args) =>
    match tag, args with
    | "assign", [v, e] => do some (.assign (← v.str?) (← expr? kernel e))
    | "accumulate", [v, e] => do some (.accumulate (← v.str?) (← expr? kernel e))
    | "write", [t, indices, position, value, accumulate] => do
      some (.tensorWrite (← t.str?) (← indices.list? (expr? kernel))
        (← position.optional? Json.str?) (← expr? kernel value) (← accumulate.bool?))
    | "add", [t, indices, value] => do
      some (.contribute (← t.str?) (← indices.list? (expr? kernel)) (← expr? kernel value))
    | "assemble", [targets, set, element, endpoints, .array body] => do
      some (.assemble (← targets.list? Json.str?) (← set.str?)
        ⟨← typedVar? element, ← endpoints.optional? typedVar?⟩ (← stmts? kernel body))
    | "zero", [v] => do some (.zero (← v.str?))
    | "field_write", [s, f, v] => do some (.fieldWrite (← s.str?) (← f.str?) (← v.str?))
    | "store", [b, offset, value, accumulate] => do
      some (.store (← b.str?) (← expr? kernel offset) (← expr? kernel value) (← accumulate.bool?))
    | "sparse_store", [b, position, value, accumulate, s] => do
      some (.sparseStore (← b.str?) (← expr? kernel position) (← expr? kernel value)
        (← accumulate.bool?) (← shape? s))
    | "direct", args => (solve? "direct" args).map .solve
    | "schur", args => (solve? "schur" args).map .solve
    | tag, [a, b, .array body] => do
      some (.loop (← loop? kernel tag [a, b]) (← stmts? kernel body))
    | tag, [a, b, c, d, .array body] => do
      some (.loop (← loop? kernel tag [a, b, c, d]) (← stmts? kernel body))
    | tag, [a, b, c, d, e, f, g, .array body] => do
      some (.loop (← loop? kernel tag [a, b, c, d, e, f, g]) (← stmts? kernel body))
    | _, _ => none
  | _ => none
termination_by structural j

/-- Reads a list of statements. -/
def stmts? (kernel : Option KernelVars) (js : List Json) : Option (List (Stmt Float)) :=
  match js with
  | [] => some []
  | j :: rest => do
    let s ← stmt? kernel j
    let rest ← stmts? kernel rest
    some (s :: rest)
termination_by structural js

end

/-! ## Functions -/

/-- Reads the type of a field. -/
def fieldType? : Json → Option FieldType
  | .string (some "bool") => some .bool
  | j => (shape? j).map .float

/-- Reads the declaration of a set; a later field takes the place of an earlier one of its name. -/
def setDecl? (name endpoints fields : Json) : Option SetDecl := do
  let name ← name.str?
  let decl : SetDecl := match ← endpoints.optional? fun e => e.pair? Json.str? Json.count? with
    | some (set, arity) => .relation name set arity
    | none => .plain name
  some ((← fields.list? fun f => f.pair? Json.str? fieldType?).foldl
    (fun d (field, type) => d.withField field type) decl)

/-- Adds what one step of a function's text declares or does. -/
def step? (f : Func Float) (j : Json) : Option (Func Float) := do
  match ← j.tagged? with
  | ("set", [name, endpoints, fields]) => some (f.withSet (← setDecl? name endpoints fields))
  | ("param", [name, type]) => some (f.withParam (← name.str?) (← type? type))
  | ("local", [name, dims, s]) =>
    some (f.withLocal (← name.str?) ⟨← dims.list? domain?, ← shape? s⟩)
  | ("result", [name, dims, s]) =>
    some (f.withResult (← name.str?) ⟨← dims.list? domain?, ← shape? s⟩)
  | ("local_var", _) => some f
  | ("result_var", _) => some f
  | ("assemble", [targets, set, body]) =>
    let targets ← targets.list? Json.str?
    let set ← set.str?
    let body ← body.list? (stmt? (some (f.kernelVars set)))
    some (f.withAssembly targets set fun _ => body)
  | ("stmt", [s]) => some (f.withStmt (← stmt? none s))
  | _ => some (f.withStmt (← stmt? none j))

/-- Adds the variable of any type that a step declares; these come after all that other steps
    declare. -/
def lateStep? (f : Func Float) (j : Json) : Option (Func Float) := do
  match ← j.tagged? with
  | ("local_var", [name, type]) =>
    some { f with locals := f.locals ++ [⟨← name.str?, ← type? type⟩] }
  | ("result_var", [name, type]) =>
    some { f with results := f.results ++ [⟨← name.str?, ← type? type⟩] }
  | _ => some f

/-- Reads a function: its name, and its declarations and statements as steps. -/
def func? (j : Json) : Option (Func Float) := do
  let name ← (← j.member? "id").str?
  let steps ← (← j.member? "steps").items?
  let f ← steps.foldlM step? (Func.named name)
  steps.foldlM lateStep? f

end Notation

end GraphTensor
