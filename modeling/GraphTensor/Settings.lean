import GraphTensor.Json.View
import GraphTensor.Lowering.Basic
import GraphTensor.Solve.Factorization
set_option autoImplicit false

/-! # Settings in JSON

Options of lowering, settings of solves and block shapes are read from JSON values
(`LowerOptions.ofJson?`, `SolverConfig.ofJson?`, `BlockShape.ofJson?`). The notation is that of the
serialised types:

* a record is an object, in which unknown names are passed over, missing ones leave the standard
  value and known ones may occur once, or a list of its values in order, which may end early
  (`Json.record?`);
* a choice is the text of its name, or an object with the name as its only member; the value of the
  member is null where the choice carries nothing (`Json.choice?`).

Only shapes are written back (`BlockShape.toJson`), in the same notation. -/

namespace GraphTensor

namespace Json

/-! ## Parts -/

/-- A choice: its name and what it carries, null for a name by itself. -/
def choice? : Json → Option (String × Json)
  | string (some name) => some (name, null)
  | object [(some name, value)] => some (name, value)
  | _ => none

/-- A choice that carries nothing. -/
def name? (j : Json) : Option String :=
  match j.choice? with
  | some (name, null) => some name
  | _ => none

/-- The values under a name, in the order in which they come. -/
def valuesOf (members : List (Option String × Json)) (name : String) : List Json :=
  (members.filter fun m => m.1 == some name).map Prod.snd

/-- The value under a name that may occur once: `none` if it occurs again. -/
def atMostOne? (members : List (Option String × Json)) (name : String) : Option (Option Json) :=
  match valuesOf members name with
  | [] => some none
  | [value] => some (some value)
  | _ => none

/-- The values of a record with the given names, each of which may be missing. -/
def record? (names : List String) : Json → Option (List (Option Json))
  | object members =>
    if members.all fun m => m.1.isSome then names.mapM (atMostOne? members) else none
  | array items =>
    if names.length < items.length then none
    else some ((List.range names.length).map fun k => items[k]?)
  | _ => none

/-- A value that is read if it is there, and else the standard one. -/
def orStandard {β : Type} (standard : β) (read : Json → Option β) : Option Json → Option β
  | none => some standard
  | some value => read value

end Json

/-! ## Settings -/

/-- Reads a search strategy. -/
def Search.ofJson? (j : Json) : Option Search :=
  match j.name? with
  | some "binary" => some .binary
  | some "linear" => some .linear
  | _ => none

/-- Reads the options of lowering. -/
def LowerOptions.ofJson? (j : Json) : Option LowerOptions := do
  match ← j.record? ["search"] with
  | [search] =>
    let search ← Json.orStandard standard.search Search.ofJson? search
    some ⟨search⟩
  | _ => none

/-- Reads a method of factorization. -/
def FactorMethod.ofJson? (j : Json) : Option FactorMethod :=
  match j.name? with
  | some "lu" => some .lu
  | some "cholesky" => some .cholesky
  | _ => none

/-- Reads the settings of a solve. -/
def SolverConfig.ofJson? (j : Json) : Option (SolverConfig Float) := do
  match ← j.record? ["factorization", "pivot_tolerance"] with
  | [method, tolerance] =>
    let method ← Json.orStandard standard.method FactorMethod.ofJson? method
    let tolerance ← Json.orStandard standard.tolerance Json.float? tolerance
    some ⟨method, tolerance⟩
  | _ => none

/-! ## Block shapes -/

namespace BlockShape

/-- Reads a block shape. -/
def ofJson? (j : Json) : Option BlockShape :=
  match j with
  | .string (some "Scalar") => some .scalar
  | .object [(some "Scalar", .null)] => some .scalar
  | .object [(some "Vector", n)] => n.count?.map .vector
  | .object [(some "Matrix", .array [r, c])] => do
    let r ← r.count?
    let c ← c.count?
    some (.matrix r c)
  | _ => none

/-- The JSON value of a block shape. -/
def toJson : BlockShape → Json
  | scalar => .str "Scalar"
  | vector n => .record [("Vector", .ofNat n)]
  | matrix r c => .record [("Matrix", .array [.ofNat r, .ofNat c])]

end BlockShape

end GraphTensor
