set_option autoImplicit false

/-! # Tables in insertion order

A `Table` maps keys to values and lists its entries in the order in which their keys first came in;
a lookup (`Table.get?`) takes the first entry of a key. Inserting under a key that is present
(`Table.insert`) replaces the value and keeps the place, so no key comes twice in a table that
insertions have built, and `Table.keys` and `Table.values` are as much part of what a table says as
its lookups are: errors are reported in this order, and storage is listed in it.

The lemmas say what one insertion does to the keys and to a lookup; all else about tables is proved
from these two. -/

namespace GraphTensor

/-- Entries in the order of their keys' first insertion. -/
structure Table (κ α : Type) where
  /-- The entries, first inserted first. -/
  entries : List (κ × α)
deriving DecidableEq, Repr

namespace Table

variable {κ α : Type}

/-- The table without entries. -/
def empty : Table κ α :=
  ⟨[]⟩

instance : Inhabited (Table κ α) := ⟨empty⟩

/-- The keys, first inserted first. -/
def keys (t : Table κ α) : List κ :=
  t.entries.map Prod.fst

/-- The values, in the order of their keys. -/
def values (t : Table κ α) : List α :=
  t.entries.map Prod.snd

/-- The number of entries. -/
def size (t : Table κ α) : Nat :=
  t.entries.length

variable [BEq κ]

/-- The value of the first entry under a key in a list of entries. -/
def find? (key : κ) : List (κ × α) → Option α
  | [] => none
  | (k, a) :: rest => if k == key then some a else find? key rest

/-- A list of entries with the value under a key replaced, or an entry added at the end. -/
def put (key : κ) (value : α) : List (κ × α) → List (κ × α)
  | [] => [(key, value)]
  | (k, a) :: rest => if k == key then (k, value) :: rest else (k, a) :: put key value rest

/-- The value under a key. -/
def get? (t : Table κ α) (key : κ) : Option α :=
  find? key t.entries

/-- A key is present. -/
def contains (t : Table κ α) (key : κ) : Bool :=
  (t.get? key).isSome

/-- The table with a value under a key: in the key's place if it is present, else at the end. -/
def insert (t : Table κ α) (key : κ) (value : α) : Table κ α :=
  ⟨put key value t.entries⟩

/-- The table of a list of entries, inserted from the left. -/
def ofList (entries : List (κ × α)) : Table κ α :=
  entries.foldl (fun t e => t.insert e.1 e.2) empty

/-- The place of a key among the keys. -/
def indexOf? (t : Table κ α) (key : κ) : Option Nat :=
  t.keys.findIdx? (· == key)

/-- Putting a value under a key keeps the keys in their places and adds a new one at the end. -/
theorem map_fst_put (key : κ) (value : α) (entries : List (κ × α)) :
    (put key value entries).map Prod.fst =
      if (find? key entries).isSome then entries.map Prod.fst
      else entries.map Prod.fst ++ [key] := by
  induction entries with
  | nil => simp [put, find?]
  | cons e rest ih =>
    obtain ⟨k, a⟩ := e
    by_cases hk : (k == key) = true
    · simp [put, find?, hk]
    · by_cases hf : (find? key rest).isSome = true <;> simp [put, find?, hk, ih, hf]

theorem keys_insert (t : Table κ α) (key : κ) (value : α) :
    (t.insert key value).keys = if t.contains key then t.keys else t.keys ++ [key] :=
  map_fst_put key value t.entries

section Lawful

variable [LawfulBEq κ]

theorem find?_put (key other : κ) (value : α) (entries : List (κ × α)) :
    find? other (put key value entries) =
      if key == other then some value else find? other entries := by
  induction entries with
  | nil => simp [put, find?]
  | cons e rest ih =>
    obtain ⟨k, a⟩ := e
    by_cases hk : k = key
    · subst hk
      by_cases ho : k = other <;> simp [put, find?, ho]
    · by_cases ho : k = other
      · subst ho
        have : ¬ key = k := fun h => hk h.symm
        simp [put, find?, hk, this]
      · simp [put, find?, hk, ho, ih]

/-- Looking a key up after an insertion finds the inserted value under its key, and what was there
    before under any other. -/
theorem get?_insert (t : Table κ α) (key other : κ) (value : α) :
    (t.insert key value).get? other = if key == other then some value else t.get? other :=
  find?_put key other value t.entries

end Lawful

end Table

end GraphTensor
