import GraphTensor.Json.Basic
set_option autoImplicit false

/-! # Writing a JSON text

A value is written without blanks (`Json.text`). Quotes, backslashes and control characters of a
string are escaped (`Json.charText`) and all else stands for itself; a string without text is
written as half of a surrogate pair, which is what such a string was read from. Numbers are written
as the decimals they are (`Json.numberText`), so a text that was read comes out with the digits it
had. -/

namespace GraphTensor

namespace Json

/-- The hexadecimal digit of a number below sixteen. -/
def hexDigit (n : Nat) : Char :=
  if n < 10 then Char.ofNat ('0'.toNat + n) else Char.ofNat ('a'.toNat + (n - 10))

/-- A character as it stands in a string. -/
def charText (c : Char) : List Char :=
  if c = '"' then ['\\', '"']
  else if c = '\\' then ['\\', '\\']
  else if c.toNat < 0x20 then
    ['\\', 'u', '0', '0', hexDigit (c.toNat / 16), hexDigit (c.toNat % 16)]
  else [c]

/-- A string in its quotes. -/
def quoted : Option String → String
  | some text => String.ofList ('"' :: text.toList.flatMap charText ++ ['"'])
  | none => "\"\\ud800\""

/-- A number: its digits, and its power of ten unless it is an integer. -/
def numberText (value : Decimal) (integral : Bool) : String :=
  let sign := if value.negative then "-" else ""
  let power := if integral then "" else s!"e{value.exponent}"
  s!"{sign}{value.digits}{power}"

mutual

/-- The text of a value. -/
def text (j : Json) : String :=
  match j with
  | null => "null"
  | bool true => "true"
  | bool false => "false"
  | number value integral => numberText value integral
  | string s => quoted s
  | array [] => "[]"
  | array (item :: items) => "[" ++ item.text ++ itemsText items ++ "]"
  | object [] => "\x7b\x7d"
  | object ((name, value) :: members) =>
    "\x7b" ++ quoted name ++ ":" ++ value.text ++ membersText members ++ "\x7d"
termination_by structural j

/-- The text of the items after the first. -/
def itemsText (items : List Json) : String :=
  match items with
  | [] => ""
  | item :: rest => "," ++ item.text ++ itemsText rest
termination_by structural items

/-- The text of the members after the first. -/
def membersText (members : List (Option String × Json)) : String :=
  match members with
  | [] => ""
  | (name, value) :: rest => "," ++ quoted name ++ ":" ++ value.text ++ membersText rest
termination_by structural members

end

end Json

end GraphTensor
