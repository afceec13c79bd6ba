import GraphTensor.Table
set_option autoImplicit false

/-! # Tables as finite maps

What a `Table` holds under each key decides what later passes see of it. Here are the facts about
look-up that the theory needs beyond those stated with the definition: inserting what is there
already changes nothing (`Table.insert_eq_self`), a key is present just if it is listed, and a table
that is made from a list finds what the list has under each key, if the keys differ
(`Table.get?_ofList`). -/

namespace GraphTensor

namespace Table

variable {κ α : Type} [BEq κ] [LawfulBEq κ]

theorem put_eq_self {key : κ} {value : α} {entries : List (κ × α)}
    (h : find? key entries = some value) : put key value entries = entries := by
  induction entries with
  | nil => simp [find?] at h
  | cons e rest ih =>
      obtain ⟨k, a⟩ := e
      by_cases hk : k = key
      · simp only [find?, hk, beq_self_eq_true, if_true, Option.some.injEq] at h
        simp [put, hk, h]
      · have hne : (k == key) = false := by simpa using hk
        simp only [find?, hne, Bool.false_eq_true, if_false] at h
        simp [put, hne, ih h]

theorem insert_eq_self {t : Table κ α} {key : κ} {value : α} (h : t.get? key = some value) :
    t.insert key value = t := by
  simp only [insert, put_eq_self (show find? key t.entries = some value from h)]

theorem find?_eq_some_mem {key : κ} {value : α} {entries : List (κ × α)}
    (h : find? key entries = some value) : (key, value) ∈ entries := by
  induction entries with
  | nil => simp [find?] at h
  | cons e rest ih =>
      obtain ⟨k, a⟩ := e
      by_cases hk : k = key
      · simp only [find?, hk, beq_self_eq_true, if_true, Option.some.injEq] at h
        simp [hk, h]
      · have hne : (k == key) = false := by simpa using hk
        simp only [find?, hne, Bool.false_eq_true, if_false] at h
        exact List.mem_cons_of_mem _ (ih h)

theorem mem_keys_of_get? {t : Table κ α} {key : κ} {value : α} (h : t.get? key = some value) :
    key ∈ t.keys :=
  List.mem_map.2 ⟨(key, value), find?_eq_some_mem h, rfl⟩

/-- Looking a key up in entries whose values are computed from their keys and old values. -/
theorem find?_map {β : Type} (g : κ → α → β) (key : κ) (entries : List (κ × α)) :
    find? key (entries.map fun e => (e.1, g e.1 e.2)) = (find? key entries).map (g key) := by
  induction entries with
  | nil => rfl
  | cons e rest ih =>
      obtain ⟨k, a⟩ := e
      by_cases hk : k = key
      · simp [find?, hk]
      · have hne : (k == key) = false := by simpa using hk
        simp only [List.map_cons, find?, hne, Bool.false_eq_true, if_false, ih]

theorem find?_eq_none_iff {key : κ} {entries : List (κ × α)} :
    find? key entries = none ↔ key ∉ entries.map Prod.fst := by
  induction entries with
  | nil => simp [find?]
  | cons e rest ih =>
      obtain ⟨k, a⟩ := e
      by_cases hk : k = key
      · simp [find?, hk]
      · have hne : (k == key) = false := by simpa using hk
        simp only [find?, hne, Bool.false_eq_true, if_false, ih, List.map_cons, List.mem_cons,
          not_or]
        exact ⟨fun h => ⟨fun heq => hk heq.symm, h⟩, fun h => h.2⟩

/-- Entries under different keys are found in their table as they are found in the list. -/
theorem get?_ofList {entries : List (κ × α)} (h : (entries.map Prod.fst).Nodup) (key : κ) :
    (ofList entries).get? key = find? key entries := by
  have hfold : ∀ (entries : List (κ × α)) (t : Table κ α), (entries.map Prod.fst).Nodup →
      (entries.foldl (fun t e => t.insert e.1 e.2) t).get? key =
        (find? key entries).or (t.get? key) := by
    intro entries
    induction entries with
    | nil => intro t _; rfl
    | cons e rest ih =>
        intro t hnodup
        obtain ⟨k, a⟩ := e
        rw [List.map_cons, List.nodup_cons] at hnodup
        rw [List.foldl_cons, ih _ hnodup.2, get?_insert]
        by_cases hk : k = key
        · have hnone : find? key rest = none := find?_eq_none_iff.2 (hk ▸ hnodup.1)
          simp [find?, hk, hnone]
        · simp [find?, hk]
  rw [ofList, hfold entries empty h]
  cases find? key entries <;> rfl

end Table

end GraphTensor
