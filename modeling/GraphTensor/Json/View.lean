import GraphTensor.Json.Basic
import GraphTensor.Word
set_option autoImplicit false

/-! # Looking into JSON values

A reader of some notation takes values apart with the functions here. Each gives `none` for a value
of another form, so a reader is a chain of them in the option monad. Numbers have one view for each
kind of number that is asked for: `Json.count?` and `Json.int?` for words, where a fraction or an
exponent is refused, and `Json.float?` and `Json.double?` for doubles. `Json.tagged?` takes apart
what `Json.tagged` builds, and `Json.member?` reads the first of several members with one name. -/

namespace GraphTensor

namespace Json

variable {α β : Type}

/-- The text of a string. -/
def str? : Json → Option String
  | string text => text
  | _ => none

/-- A truth value. -/
def bool? : Json → Option Bool
  | bool b => some b
  | _ => none

/-- A count: an integer without sign that is a word. -/
def count? : Json → Option Nat
  | number d integral =>
    if integral && !d.negative && d.digits < Word.bound then some d.digits else none
  | _ => none

/-- An integer that is a signed word. -/
def int? : Json → Option Int
  | number d integral =>
    if integral then SignedWord.ofInt? (if d.negative then -d.digits else d.digits) else none
  | _ => none

/-- A number, rounded to the nearest double; there is none for a number beyond all doubles. -/
def float? : Json → Option Float
  | number d _ => d.toFloat?
  | _ => none

/-- A double: a number, or the name of one that no number writes. -/
def double? : Json → Option Float
  | string (some "nan") => some (0.0 / 0.0)
  | string (some "inf") => some (1.0 / 0.0)
  | string (some "-inf") => some (-1.0 / 0.0)
  | j => j.float?

/-- The items of a list. -/
def items? : Json → Option (List Json)
  | array items => some items
  | _ => none

/-- The items of a list, each of them read. -/
def list? (read : Json → Option α) (j : Json) : Option (List α) := do
  (← j.items?).mapM read

/-- The two items of a list of two. -/
def pair? (first : Json → Option α) (second : Json → Option β) : Json → Option (α × β)
  | array [a, b] => do
    let a ← first a
    let b ← second b
    some (a, b)
  | _ => none

/-- A value that may be null. -/
def optional? (read : Json → Option α) : Json → Option (Option α)
  | null => some none
  | j => (read j).map some

/-- The word at the start of a list, and the rest of the list. -/
def tagged? : Json → Option (String × List Json)
  | array (string (some tag) :: rest) => some (tag, rest)
  | _ => none

/-- The value of the first member with a name. -/
def member? (name : String) : Json → Option Json
  | object members => (members.find? fun m => m.1 == some name).map Prod.snd
  | _ => none

/-- The value of the first member with a name, unless it is null. -/
def present? (name : String) (j : Json) : Option Json :=
  match j.member? name with
  | some null => none
  | other => other

end Json

end GraphTensor
