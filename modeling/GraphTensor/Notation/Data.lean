import GraphTensor.Machine.Buffer
import GraphTensor.Binding.Basic
import GraphTensor.Notation.Reader
import GraphTensor.Notation.Writer
set_option autoImplicit false

/-! # Data in JSON

What a program runs on and what it comes to are written like the program itself: values and buffers
as lists that start with a word, the data of a set as an object. `Notation.bindings?` reads what a
run is given, `Notation.value?` and `Notation.fieldData?` its parts; `Notation.ofValue`,
`Notation.ofFields` and `Notation.ofBuffer` write what it comes to, and `Notation.ofPattern`,
`Notation.ofTopology` and `Notation.ofBlockMatrix` the structures below it. How numbers are written
is left to the caller, as it is for programs. -/

namespace GraphTensor

namespace Notation

/-! ## Reading -/

/-- Reads the numbers of a list. -/
def numbers? (j : Json) : Option (Array Float) :=
  (j.list? Json.double?).map List.toArray

/-- Reads the counts of a list. -/
def counts? (j : Json) : Option (Array Nat) :=
  (j.list? Json.count?).map List.toArray

/-- Reads a value. -/
def value? (j : Json) : Option (Value Float) := do
  match ← j.tagged? with
  | ("float", [x]) => some (.scalar (← x.double?))
  | ("int", [n]) => some (.int (← n.int?))
  | ("bool", [b]) => some (.bool (← b.bool?))
  | ("block", [s, xs]) => some (.block (← BlockValue.ofArray? (← shape? s) (← numbers? xs)))
  | ("miss", []) => some .miss
  | _ => none

/-- Reads a field of a set with its name. -/
def fieldData? (j : Json) : Option (FieldName × FieldData Float) := do
  match ← j.items? with
  | [name, .string (some "bool"), flags] =>
    some (← name.str?, .bool (← flags.list? Json.bool?))
  | [name, s, values] => some (← name.str?, .float (← shape? s) (← numbers? values))
  | _ => none

/-- Reads the size or the endpoints of a set. -/
def setShape? (j : Json) : Option (SetData Float) := do
  match j.present? "len", j.present? "subset" with
  | some n, _ => some (.plain (← n.count?))
  | none, some parents => some (.subset (← counts? parents))
  | none, none =>
    some (.relation (← (← j.member? "arity").count?) (← counts? (← j.member? "tuples")))

/-- Reads the data of a set; a later field takes the place of an earlier one of its name. -/
def setData? (j : Json) : Option (SetData Float) := do
  let data ← setShape? j
  let fields ← match j.present? "fields" with
    | some fields => fields.list? fieldData?
    | none => some []
  some (fields.foldl (fun data (name, values) => data.withField name values) data)

/-- Reads the entries under a name of an object; there are none if the name is missing. -/
def entries? {β : Type} (j : Json) (name : String) (read : Json → Option β) :
    Option (List (String × β)) :=
  match j.present? name with
  | some entries => entries.list? fun e => e.pair? Json.str? read
  | none => some []

/-- Reads bindings. -/
def bindings? (j : Json) : Option (Bindings Float) := do
  some ⟨Table.ofList (← entries? j "sets" setData?), Table.ofList (← entries? j "params" value?)⟩

/-! ## Writing -/

variable {α : Type}

/-- Writes numbers. -/
def ofNumbers (number : α → Json) (xs : Array α) : Json :=
  .list number xs.toList

/-- Writes counts. -/
def ofCounts (ns : List Nat) : Json :=
  .list .ofNat ns

/-- Writes a value. -/
def ofValue (number : α → Json) : Value α → Json
  | .block b => .tagged "block" [ofShape b.shape, ofNumbers number b.data]
  | .int n => .tagged "int" [.ofInt n]
  | .bool b => .tagged "bool" [.bool b]
  | .miss => .tagged "miss" []

/-- Writes the values of a field. -/
def ofFieldData (number : α → Json) : FieldData α → Json
  | .float block values => .array [ofShape block, ofNumbers number values]
  | .bool flags => .tagged "bool" [.list .bool flags]

/-- Writes all fields that are bound, set after set. -/
def ofFields (number : α → Json) (b : Bindings α) : Json :=
  .array (b.sets.entries.flatMap fun (set, data) =>
    data.fields.entries.map fun (field, values) =>
      .array [.str set, .str field, ofFieldData number values])

/-- Writes a pattern. -/
def ofPattern (p : Pattern) : Json :=
  .record [("rows", .ofNat p.rows), ("cols", .ofNat p.cols), ("nnz", .ofNat p.stored),
    ("offsets", ofCounts p.offsets.toList), ("indices", ofCounts p.indices.toList)]

/-- Writes a topology. -/
def ofTopology (t : Topology) : Json :=
  .record [("relation", .str t.relation), ("endpoint_set", .str t.endpointSet),
    ("endpoint_count", .ofNat t.endpointCount), ("arity", .ofNat t.arity), ("len", .ofNat t.size),
    ("empty", .bool t.isEmpty), ("tuples", .list ofCounts t.elements)]

/-- Writes a matrix of blocks. -/
def ofBlockMatrix (number : α → Json) (m : BlockMatrix α) : Json :=
  .record [("pattern", ofPattern m.pattern), ("block", ofShape m.block),
    ("values", ofNumbers number m.values)]

/-- Writes a buffer. -/
def ofBuffer (number : α → Json) : Buffer α → Json
  | .dense block values => .tagged "dense" [ofShape block, ofNumbers number values]
  | .sparse matrix => .tagged "sparse" [ofBlockMatrix number matrix]
  | .register b => .tagged "register" [ofShape b.shape, ofNumbers number b.data]

end Notation

end GraphTensor
