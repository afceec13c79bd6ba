import GraphTensor.Decimal.Basic
set_option autoImplicit false

/-! # JSON values

A value (`Json`) keeps what its text says: a number is the decimal that is written, and an object
lists its members in order, repeated names included. What a reader of settings makes of a number or
of a repeated name is decided where it is read, by the functions of the views.

The builders at the end are what writers use: `Json.ofNat` and `Json.ofInt` for counts and integers,
`Json.record` for objects, `Json.tagged` for a list whose first item says what the rest of it is,
and `Json.nullable` for what may be missing. -/

namespace GraphTensor

/-- A JSON value. -/
inductive Json where
  /-- The word null. -/
  | null
  /-- A truth value. -/
  | bool (value : Bool)
  /-- A number, and whether it is written without point and exponent. -/
  | number (value : Decimal) (integral : Bool)
  /-- A string; there is no text if it names half of a surrogate pair. -/
  | string (text : Option String)
  /-- A list of values. -/
  | array (items : List Json)
  /-- Named values in the order in which they are written. -/
  | object (members : List (Option String × Json))
deriving Repr, Inhabited

namespace Json

/-- The string with a text. -/
def str (text : String) : Json :=
  string (some text)

/-- The number that a count is. -/
def ofNat (n : Nat) : Json :=
  number ⟨false, n, 0⟩ true

/-- The number that an integer is. -/
def ofInt (n : Int) : Json :=
  number ⟨n < 0, n.natAbs, 0⟩ true

/-- The object with the given members. -/
def record (members : List (String × Json)) : Json :=
  object (members.map fun (name, value) => (some name, value))

/-- A list that starts with a word, which says what the rest of it is. -/
def tagged (tag : String) (rest : List Json) : Json :=
  array (str tag :: rest)

/-- The list of the values of elements. -/
def list {α : Type} (f : α → Json) (items : List α) : Json :=
  array (items.map f)

/-- A value, or null where there is none. -/
def nullable {α : Type} (f : α → Json) : Option α → Json
  | some a => f a
  | none => null

end Json

end GraphTensor
