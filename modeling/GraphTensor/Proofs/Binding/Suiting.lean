import GraphTensor.Binding.Basic
import GraphTensor.Proofs.Outcome
set_option autoImplicit false

/-! # Bindings that suit a function

What `Bindings.check` says, as a proposition. Bindings pass the check of a function just if every
declared set is bound, its endpoints fit their declaration, every field that is bound has the
declared type and a value for each element, and every parameter is bound.

`Bindings.SetSuits` and `Bindings.FieldSuits` say this of one set and of one field. The checks are
unfolded here once, from the field (`Bindings.checkField_eq_ok_iff`) to the set and to the whole,
and later modules read off what a run may rely on: `Bindings.FieldSuits.size_values` is the number
of numbers that a field has. -/

namespace GraphTensor

namespace Bindings

variable {α : Type} {b : Bindings α} {set : SetName} {field : FieldName}

theorem set_eq_ok_iff {data : SetData α} : b.set set = .ok data ↔ b.sets.get? set = some data :=
  Outcome.orFail_eq_ok_iff

theorem field_eq_ok_iff {data : SetData α} {values : FieldData α} (h : b.set set = .ok data) :
    b.field set field = .ok values ↔ data.fields.get? field = some values := by
  rw [Bindings.field, h]
  exact Outcome.orFail_eq_ok_iff

/-- The values of a field are of the declared type, one for each of a number of elements. -/
def FieldSuits (type : FieldType) (count : Nat) (values : FieldData α) : Prop :=
  values.kind = type.kind ∧ values.covers count = .ok true

/-- Blocks that suit a field are as many as its set has elements, and their numbers are a word. -/
theorem FieldSuits.size_values {type : FieldType} {count : Nat} {block : BlockShape}
    {values : Array α} (h : FieldSuits type count (.float block values)) :
    values.size = count * block.length ∧ count * block.length < Word.bound := by
  obtain ⟨length, hlength, hcovers⟩ := Outcome.bind_eq_ok_iff.1 h.2
  obtain ⟨_, rfl⟩ := Word.ofNat?_eq_some_iff.1 (Outcome.orAbort_eq_ok_iff.1 hlength)
  obtain ⟨expected, hexpected, hcovers⟩ := Outcome.bind_eq_ok_iff.1 hcovers
  obtain ⟨hword, rfl⟩ := Word.ofNat?_eq_some_iff.1 (Outcome.orAbort_eq_ok_iff.1 hexpected)
  exact ⟨eq_of_beq (Except.ok.inj hcovers), hword⟩

theorem FieldSuits.scalars {count : Nat} {block : BlockShape} {values : Array α}
    (h : FieldSuits (.float .scalar) count (.float block values)) :
    block = .scalar ∧ values.size = count ∧ count < Word.bound := by
  obtain rfl := Quality.shape.inj h.1
  have hsize := h.size_values
  rw [BlockShape.length, Nat.mul_one] at hsize
  exact ⟨rfl, hsize⟩

theorem FieldSuits.length_flags {count : Nat} {flags : List Bool}
    (h : FieldSuits .bool count (.bool flags : FieldData α)) : flags.length = count :=
  eq_of_beq (Except.ok.inj h.2)

theorem checkField_eq_ok_iff {data : SetData α} {type : FieldType} :
    checkField set data field type = .ok () ↔
      ∀ values, data.fields.get? field = some values → FieldSuits type data.size values := by
  unfold checkField
  cases data.fields.get? field with
  | none => simp
  | some values =>
      simp only [Option.some.injEq, forall_eq', FieldSuits]
      constructor
      · intro h
        obtain ⟨_, hkind, h⟩ := Outcome.bind_eq_ok_iff.1 h
        obtain ⟨complete, hcovers, hcomplete⟩ := Outcome.bind_eq_ok_iff.1 h
        have hkind := Outcome.failIf_eq_ok_iff.1 hkind
        have hcomplete := Outcome.failIf_eq_ok_iff.1 hcomplete
        simp only [bne_eq_false_iff_eq, Bool.not_eq_eq_eq_not, Bool.not_false] at hkind hcomplete
        exact ⟨hkind, hcomplete ▸ hcovers⟩
      · rintro ⟨hkind, hcovers⟩
        refine Outcome.bind_eq_ok_iff.2 ⟨(), Outcome.failIf_eq_ok_iff.2 ?_,
          Outcome.bind_eq_ok_iff.2 ⟨true, hcovers, rfl⟩⟩
        exact bne_eq_false_iff_eq.2 hkind

/-- The data of a set suits its declaration. -/
structure SetSuits (b : Bindings α) (decl : SetDecl) (data : SetData α) : Prop where
  /-- The data is that bound. -/
  bound : b.set decl.name = .ok data
  /-- The endpoints fit. -/
  endpoints : checkEndpoints decl data = .ok ()
  /-- The fields that are bound fit. -/
  fields : ∀ entry ∈ decl.fields.entries, ∀ values, b.field decl.name entry.1 = .ok values →
    FieldSuits entry.2 data.size values

theorem checkSet_eq_ok_iff {decl : SetDecl} :
    b.checkSet decl = .ok () ↔ ∃ data, b.SetSuits decl data := by
  rw [checkSet, Outcome.bind_eq_ok_iff]
  constructor
  · rintro ⟨data, hdata, h⟩
    obtain ⟨_, hendpoints, hfields⟩ := Outcome.bind_eq_ok_iff.1 h
    refine ⟨data, hdata, hendpoints, fun entry hentry values hvalues => ?_⟩
    exact checkField_eq_ok_iff.1 (Except.forM_eq_ok_iff.1 hfields entry hentry) values
      ((field_eq_ok_iff hdata).1 hvalues)
  · rintro ⟨data, hdata, hendpoints, hfields⟩
    refine ⟨data, hdata, Outcome.bind_eq_ok_iff.2 ⟨(), hendpoints, ?_⟩⟩
    refine Except.forM_eq_ok_iff.2 fun entry hentry => ?_
    exact checkField_eq_ok_iff.2 fun values hvalues =>
      hfields entry hentry values ((field_eq_ok_iff hdata).2 hvalues)

/-- **What the check of bindings says.** -/
theorem check_eq_ok_iff {f : Func α} :
    b.check f = .ok () ↔ (∀ decl ∈ f.sets.decls, ∃ data, b.SetSuits decl data) ∧
      ∀ p ∈ f.params, ∃ value, b.param p.name = .ok value := by
  have hparam : ∀ p : Variable, (do
      let _ ← b.param p.name
      .ok () : Ran Unit) = .ok () ↔ ∃ value, b.param p.name = .ok value := by
    intro p
    rw [Outcome.bind_eq_ok_iff]
    exact ⟨fun ⟨value, h, _⟩ => ⟨value, h⟩, fun ⟨value, h⟩ => ⟨value, h, rfl⟩⟩
  rw [check, Outcome.bind_eq_ok_iff]
  constructor
  · rintro ⟨_, hsets, hparams⟩
    exact ⟨fun decl hdecl => checkSet_eq_ok_iff.1 (Except.forM_eq_ok_iff.1 hsets decl hdecl),
      fun p hp => (hparam p).1 (Except.forM_eq_ok_iff.1 hparams p hp)⟩
  · rintro ⟨hsets, hparams⟩
    exact ⟨(), Except.forM_eq_ok_iff.2 fun decl hdecl => checkSet_eq_ok_iff.2 (hsets decl hdecl),
      Except.forM_eq_ok_iff.2 fun p hp => (hparam p).2 (hparams p hp)⟩

end Bindings

end GraphTensor
