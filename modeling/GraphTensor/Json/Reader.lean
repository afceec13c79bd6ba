import GraphTensor.Json.Token
set_option autoImplicit false

/-! # Reading a JSON text

A value is read off the front of a list of tokens and leaves a shorter list, so that lists and
objects of any depth are read by recursion on what is left: the three readers `Json.readValue?`,
`Json.readItems?` and `Json.readMembers?` answer the tokens that remain as `Json.Fewer`, which
carries the proof that they are fewer. A text is a value if reading it leaves nothing
(`Json.ofText?`). -/

namespace GraphTensor

namespace Json

/-- Tokens that are fewer than the given ones. -/
abbrev Fewer (ts : List JsonToken) : Type :=
  { rest : List JsonToken // rest.length < ts.length }

/-- The next of the tokens that are left, and what is left after it. -/
def Fewer.next? {ts : List JsonToken} : Fewer ts → Option (JsonToken × Fewer ts)
  | ⟨[], _⟩ => none
  | ⟨t :: rest, h⟩ => some (t, ⟨rest, Nat.lt_of_succ_lt h⟩)

mutual

/-- Reads one value. -/
def readValue? (ts : List JsonToken) : Option (Json × Fewer ts) :=
  match ts with
  | .null :: rest => some (.null, ⟨rest, Nat.lt_succ_self _⟩)
  | .bool b :: rest => some (.bool b, ⟨rest, Nat.lt_succ_self _⟩)
  | .number d integral :: rest => some (.number d integral, ⟨rest, Nat.lt_succ_self _⟩)
  | .string text :: rest => some (.string text, ⟨rest, Nat.lt_succ_self _⟩)
  | .mark '[' :: .mark ']' :: rest =>
    some (.array [], ⟨rest, Nat.lt_succ_of_lt (Nat.lt_succ_self _)⟩)
  | .mark '{' :: .mark '}' :: rest =>
    some (.object [], ⟨rest, Nat.lt_succ_of_lt (Nat.lt_succ_self _)⟩)
  | .mark '[' :: rest => do
    let (items, ⟨after, h⟩) ← readItems? rest
    some (.array items, ⟨after, Nat.lt_succ_of_lt h⟩)
  | .mark '{' :: rest => do
    let (members, ⟨after, h⟩) ← readMembers? rest
    some (.object members, ⟨after, Nat.lt_succ_of_lt h⟩)
  | _ => none
termination_by (ts.length, 0)

/-- Reads the values of a list that has at least one, and its closing bracket. -/
def readItems? (ts : List JsonToken) : Option (List Json × Fewer ts) := do
  let (item, after) ← readValue? ts
  match after.next? with
  | some (.mark ']', rest) => some ([item], rest)
  | some (.mark ',', ⟨rest, h⟩) =>
    let (items, ⟨last, hl⟩) ← readItems? rest
    some (item :: items, ⟨last, Nat.lt_trans hl h⟩)
  | _ => none
termination_by (ts.length, 1)

/-- Reads the members of an object that has at least one, and its closing brace. -/
def readMembers? (ts : List JsonToken) : Option (List (Option String × Json) × Fewer ts) :=
  match ts with
  | .string name :: .mark ':' :: start => do
    let (item, after) ← readValue? start
    match after.next? with
    | some (.mark '}', ⟨rest, h⟩) =>
      some ([(name, item)], ⟨rest, Nat.lt_succ_of_lt (Nat.lt_succ_of_lt h)⟩)
    | some (.mark ',', ⟨rest, h⟩) =>
      have : rest.length < start.length + 1 + 1 := Nat.lt_succ_of_lt (Nat.lt_succ_of_lt h)
      let (members, ⟨last, hl⟩) ← readMembers? rest
      some ((name, item) :: members, ⟨last, Nat.lt_trans hl this⟩)
    | _ => none
  | _ => none
termination_by (ts.length, 1)

end

/-- The value that a text writes, with nothing but blanks around it. -/
def ofText? (text : String) : Option Json := do
  let tokens ← JsonToken.ofChars? text.toList
  match ← readValue? tokens with
  | (value, ⟨[], _⟩) => some value
  | _ => none

end Json

end GraphTensor
