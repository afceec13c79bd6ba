import GraphTensor.Proofs.Machine.Changes
import GraphTensor.Proofs.Machine.Frames
set_option autoImplicit false

/-! # Memories that differ in locals and sums

Two memories may differ in some locals and in the numbers of some buffers, and be alike otherwise
(`Memory.Alike`). A statement that reads none of these takes them to memories that are alike again,
and adds the same numbers to the buffers of both (`Memory.Alongside`).

`Memory.Adds` says that a run adds numbers to a buffer, whatever they are, and `Memory.Scoped` that
a computation keeps all of this up. It goes through folds, and so through bodies and loops, while
the set of hidden locals may shrink: a local that gets the same value in both memories is hidden no
longer. Here are the single statements; their composition is that of the scope of a kernel. -/

namespace GraphTensor

variable {α : Type}

namespace Buffer

theorem SameLayout.symm {b b' : Buffer α} (h : b.SameLayout b') : b'.SameLayout b := by
  obtain ⟨values, hsize, rfl⟩ := h
  refine ⟨b.values, by rw [values_withValues hsize, hsize], ?_⟩
  rw [withValues_withValues b hsize rfl, withValues_self]

theorem SameLayout.size_values {b b' : Buffer α} (h : b.SameLayout b') :
    b'.values.size = b.values.size := by
  obtain ⟨values, hsize, rfl⟩ := h
  rw [values_withValues hsize, hsize]

variable [Scalar α]

/-- The buffer with numbers added to it, each array of them from a place on. -/
def plus (b : Buffer α) (additions : List (Nat × Array α)) : Buffer α :=
  additions.foldl (fun b (start, data) => b.withValues (Slot.write b.values start data true)) b

theorem plus_append (b : Buffer α) (first second : List (Nat × Array α)) :
    b.plus (first ++ second) = (b.plus first).plus second :=
  List.foldl_append

theorem sameLayout_plus (b : Buffer α) (additions : List (Nat × Array α)) :
    b.SameLayout (b.plus additions) := by
  induction additions generalizing b with
  | nil => exact .refl b
  | cons addition rest ih =>
      have hfirst : b.SameLayout (b.plus [addition]) := ⟨_, Slot.size_write .., rfl⟩
      exact hfirst.trans (ih _)

/-- What is stored in addition is added, from where the buffer's slot starts. -/
theorem store_eq_ok {var : VarName} {b b' : Buffer α} {offset : Int} {value : BlockValue α} :
    b.store var offset value true = .ok b' ↔
      ∃ start, Slot.locate var b.values.size offset value.shape.length = .ok start ∧
        b' = b.plus [(start, value.data)] := by
  constructor
  · intro h
    obtain ⟨start, hstart, h⟩ := Outcome.bind_eq_ok_iff.1 h
    exact ⟨start, hstart, (Except.ok.inj h).symm⟩
  · rintro ⟨start, hstart, rfl⟩
    exact Outcome.bind_eq_ok_iff.2 ⟨start, hstart, rfl⟩

end Buffer

/-! ## Alike memories -/

namespace Memory

theorem AgreeOn.refl {names : List VarName} (mem : Memory α) : mem.AgreeOn names mem :=
  fun _ _ => ⟨rfl, rfl⟩

/-- Two memories differ at most in the locals `hidden` and in the numbers of the buffers `summed`. -/
structure Alike (hidden summed : List VarName) (mem other : Memory α) : Prop where
  /-- Any other local is the same. -/
  locals : ∀ name, name ∉ hidden → other.locals.get? name = mem.locals.get? name
  /-- Any other buffer is the same. -/
  buffers : ∀ name, name ∉ summed → other.buffers.get? name = mem.buffers.get? name
  /-- The buffers have the same layouts. -/
  layouts : ∀ name b, mem.buffers.get? name = some b →
    ∃ b', other.buffers.get? name = some b' ∧ b.SameLayout b'
  /-- The same variables have buffers. -/
  absent : ∀ name, mem.buffers.get? name = none → other.buffers.get? name = none

variable {hidden summed : List VarName} {mem mem' mem'' other other' other'' : Memory α}
  {name : VarName}

theorem Alike.refl (mem : Memory α) : mem.Alike hidden summed mem :=
  ⟨fun _ _ => rfl, fun _ _ => rfl, fun _ b hb => ⟨b, hb, .refl b⟩, fun _ => id⟩

theorem Alike.mono {hidden' : List VarName} (h : mem.Alike hidden summed other)
    (hsub : hidden ⊆ hidden') : mem.Alike hidden' summed other :=
  ⟨fun name hname => h.locals name fun hmem => hname (hsub hmem), h.buffers, h.layouts, h.absent⟩

theorem Alike.agreeOn {names : List VarName} (h : mem.Alike hidden summed other)
    (hnames : ∀ name ∈ names, name ∉ hidden ∧ name ∉ summed) : mem.AgreeOn names other :=
  fun name hname => ⟨h.locals name (hnames name hname).1, h.buffers name (hnames name hname).2⟩

/-- A local that gets the same value in both memories is hidden no longer. -/
theorem Alike.withLocal (h : mem.Alike hidden summed other) (name : VarName) (value : Value α) :
    (mem.withLocal name value).Alike (hidden.filter (· ≠ name)) summed
      (other.withLocal name value) where
  locals := fun var hvar => by
    simp only [Memory.withLocal, Table.get?_insert]
    split
    · rfl
    · next hne =>
        refine h.locals var fun hmem => hvar (List.mem_filter.2 ⟨hmem, decide_eq_true ?_⟩)
        rintro rfl
        exact hne (beq_self_eq_true _)
  buffers := h.buffers
  layouts := h.layouts
  absent := h.absent

variable [Scalar α]

/-- A run adds numbers to a buffer, if there is one. -/
def Adds (name : VarName) (additions : List (Nat × Array α)) (mem mem' : Memory α) : Prop :=
  mem'.buffers.get? name = (mem.buffers.get? name).map (·.plus additions)

theorem Adds.of_eq (h : mem'.buffers.get? name = mem.buffers.get? name) : Adds name [] mem mem' := by
  rw [Adds, h]
  cases mem.buffers.get? name <;> rfl

theorem Adds.trans {first second : List (Nat × Array α)} (h : Adds name first mem mem')
    (h' : Adds name second mem' mem'') : Adds name (first ++ second) mem mem'' := by
  rw [Adds, h', h]
  cases mem.buffers.get? name with
  | none => rfl
  | some b => simp [Buffer.plus_append]

theorem adds_withBuffer {b : Buffer α} (hb : mem.buffers.get? name = some b)
    (additions : List (Nat × Array α)) :
    Adds name additions mem (mem.withBuffer name (b.plus additions)) := by
  simp [Adds, withBuffer, Table.get?_insert, hb]

/-- Two runs end in memories that are alike, and both add the same numbers to each summed buffer. -/
structure Alongside (hidden summed : List VarName) (mem other mem' other' : Memory α) : Prop where
  /-- The memories are alike. -/
  alike : mem'.Alike hidden summed other'
  /-- The additions are the same. -/
  adds : ∀ name ∈ summed, ∃ additions, Adds name additions mem mem' ∧
    Adds name additions other other'

theorem Alongside.refl (h : mem.Alike hidden summed other) :
    Alongside hidden summed mem other mem other :=
  ⟨h, fun _ _ => ⟨[], .of_eq rfl, .of_eq rfl⟩⟩

theorem Alongside.mono {hidden' : List VarName} (h : Alongside hidden summed mem other mem' other')
    (hsub : hidden ⊆ hidden') : Alongside hidden' summed mem other mem' other' :=
  ⟨h.alike.mono hsub, h.adds⟩

theorem Alongside.trans {hidden' : List VarName} (h : Alongside hidden summed mem other mem' other')
    (h' : Alongside hidden' summed mem' other' mem'' other'') :
    Alongside hidden' summed mem other mem'' other'' where
  alike := h'.alike
  adds := fun name hname => by
    obtain ⟨first, hmem, hother⟩ := h.adds name hname
    obtain ⟨second, hmem', hother'⟩ := h'.adds name hname
    exact ⟨first ++ second, hmem.trans hmem', hother.trans hother'⟩

/-- Giving a local the same value in both memories adds nothing to their buffers. -/
theorem Alike.alongside_withLocal (h : mem.Alike hidden summed other) (name : VarName)
    (value : Value α) :
    Alongside (hidden.filter (· ≠ name)) summed mem other (mem.withLocal name value)
      (other.withLocal name value) :=
  ⟨h.withLocal name value, fun _ _ => ⟨[], .of_eq rfl, .of_eq rfl⟩⟩

/-- Adding the same numbers to a summed buffer keeps memories alike. -/
theorem Alike.alongside_plus {b b' : Buffer α} (h : mem.Alike hidden summed other)
    (hname : name ∈ summed) (hb : mem.buffers.get? name = some b)
    (hb' : other.buffers.get? name = some b') (hlayout : b.SameLayout b')
    (additions : List (Nat × Array α)) :
    Alongside hidden summed mem other (mem.withBuffer name (b.plus additions))
      (other.withBuffer name (b'.plus additions)) where
  alike := {
    locals := h.locals
    buffers := fun var hvar => by
      have hne : name ≠ var := fun heq => hvar (heq ▸ hname)
      simpa [withBuffer, Table.get?_insert, hne] using h.buffers var hvar
    layouts := fun var found hfound => by
      simp only [withBuffer, Table.get?_insert] at hfound ⊢
      split at hfound
      · next heq =>
          obtain rfl := Option.some.inj hfound
          exact ⟨_, if_pos heq, (b.sameLayout_plus additions).symm.trans
            (hlayout.trans (b'.sameLayout_plus additions))⟩
      · next hne =>
          rw [if_neg hne]
          exact h.layouts var found hfound
    absent := fun var hvar => by
      simp only [withBuffer, Table.get?_insert] at hvar ⊢
      split at hvar
      · cases hvar
      · next hne =>
          rw [if_neg hne]
          exact h.absent var hvar }
  adds := fun var _ => by
    by_cases heq : name = var
    · subst heq
      exact ⟨additions, adds_withBuffer hb additions, adds_withBuffer hb' additions⟩
    · exact ⟨[], .of_eq (by simp [withBuffer, Table.get?_insert, heq]),
        .of_eq (by simp [withBuffer, Table.get?_insert, heq])⟩

/-- A computation keeps to its scope: what the hidden locals and the summed buffers hold beforehand
    does not matter to it, apart from what it leaves of them, and to the latter it only adds. -/
def Scoped (hidden summed : List VarName) (run : Memory α → Ran (Memory α)) : Prop :=
  ∀ mem other mem', (∀ name ∈ hidden, mem.buffers.get? name = none) →
    mem.Alike hidden summed other → run mem = .ok mem' →
      ∃ other', run other = .ok other' ∧ Alongside hidden summed mem other mem' other'

theorem Scoped.foldlM {ι : Type} {step : Memory α → ι → Ran (Memory α)}
    (hstep : ∀ i, Scoped hidden summed fun mem => step mem i)
    (hnone : ∀ {mem mem' i}, step mem i = .ok mem' → ∀ name, mem.buffers.get? name = none →
      mem'.buffers.get? name = none) (is : List ι) :
    Scoped hidden summed fun mem => is.foldlM step mem := by
  intro mem other mem' hhidden halike hexec
  induction is generalizing mem other with
  | nil =>
      obtain rfl := Except.ok.inj hexec
      exact ⟨other, rfl, .refl halike⟩
  | cons i rest ih =>
      simp only [List.foldlM_cons, Outcome.bind_eq_ok_iff] at hexec ⊢
      obtain ⟨middle, hmiddle, hexec⟩ := hexec
      obtain ⟨other', hother', hpair⟩ := hstep i mem other middle hhidden halike hmiddle
      obtain ⟨other'', hother'', hpair'⟩ := ih middle other'
        (fun name hname => hnone hmiddle name (hhidden name hname)) hpair.alike hexec
      exact ⟨other'', ⟨other', hother', hother''⟩, hpair.trans hpair'⟩

end Memory

/-! ## Steps -/

namespace Machine

open Memory

variable [Scalar α] {m : Machine α} {hidden summed : List VarName} {mem mem' other : Memory α}
  {name : VarName}

theorem fillers_congr {value : Expr α} (h : mem.AgreeOn value.reads other) (var : VarName) :
    m.fillers other var value = m.fillers mem var value := by
  unfold fillers
  simp only [eval_congr value h]
  split
  · rfl
  · next read => rw [(h read (List.mem_singleton_self read)).2]
  · rfl

/-- What is stored into a dense buffer that is summed is added to it. -/
theorem alongside_store {offset : Int} {value : BlockValue α} (h : mem.Alike hidden summed other)
    (hname : name ∈ summed) (hexec : store mem name offset value true = .ok mem') :
    ∃ other', store other name offset value true = .ok other' ∧
      Alongside hidden summed mem other mem' other' := by
  obtain ⟨values, sum, hb, hsum, rfl⟩ := store_eq_ok_iff.1 hexec
  obtain ⟨b', hb', hlayout⟩ := h.layouts name _ hb
  obtain ⟨start, hstart, rfl⟩ := Buffer.store_eq_ok.1 hsum
  have hsize := hlayout.size_values
  have hpair := h.alongside_plus hname hb hb' hlayout [(start, value.data)]
  obtain ⟨values', _, rfl⟩ := hlayout
  have hstore := Buffer.store_eq_ok.2 ⟨start, hsize ▸ hstart, rfl⟩
  exact ⟨_, store_eq_ok_iff.2 ⟨_, _, hb', hstore, rfl⟩, hpair⟩

theorem alongside_sparseStore {position : Int} {value : BlockValue α}
    (h : mem.Alike hidden summed other) (hname : name ∈ summed)
    (hexec : sparseStore mem name position value true = .ok mem') :
    ∃ other', sparseStore other name position value true = .ok other' ∧
      Alongside hidden summed mem other mem' other' := by
  obtain ⟨matrix, sum, hb, hsum, rfl⟩ := sparseStore_eq_ok_iff.1 hexec
  obtain ⟨b', hb', hlayout⟩ := h.layouts name _ hb
  obtain ⟨start, hstart, rfl⟩ := Buffer.store_eq_ok.1 hsum
  have hsize := hlayout.size_values
  have hpair := h.alongside_plus hname hb hb' hlayout [(start, value.data)]
  obtain ⟨values', _, rfl⟩ := hlayout
  have hstore := Buffer.store_eq_ok.2 ⟨start, hsize ▸ hstart, rfl⟩
  exact ⟨_, sparseStore_eq_ok_iff.2 ⟨_, _, hb', hstore, rfl⟩, hpair⟩

theorem alongside_execStore {offset value : Expr α} (h : mem.Alike hidden summed other)
    (hname : name ∈ summed) (hoffset : mem.AgreeOn offset.reads other)
    (hvalue : mem.AgreeOn value.reads other)
    (hexec : m.exec (.store name offset value true) mem = .ok mem') :
    ∃ other', m.exec (.store name offset value true) other = .ok other' ∧
      Alongside hidden summed mem other mem' other' := by
  obtain ⟨o, place, v, block, ho, hplace, hv, hblock, hexec⟩ := exec_store_eq_ok_iff.1 hexec
  obtain ⟨other', hstore, hpair⟩ := alongside_store h hname hexec
  refine ⟨other', exec_store_eq_ok_iff.2 ⟨o, place, v, block, ?_, hplace, ?_, hblock, hstore⟩, hpair⟩
  · exact (eval_congr offset hoffset).trans ho
  · exact (eval_congr value hvalue).trans hv

theorem alongside_execSparseStore {position value : Expr α} {shape : BlockShape}
    (h : mem.Alike hidden summed other) (hname : name ∈ summed)
    (hposition : mem.AgreeOn position.reads other) (hvalue : mem.AgreeOn value.reads other)
    (hexec : m.exec (.sparseStore name position value true shape) mem = .ok mem') :
    ∃ other', m.exec (.sparseStore name position value true shape) other = .ok other' ∧
      Alongside hidden summed mem other mem' other' := by
  obtain ⟨p, place, v, block, hp, hplace, hv, hblock, hshape, hexec⟩ :=
    exec_sparseStore_eq_ok_iff.1 hexec
  obtain ⟨other', hstore, hpair⟩ := alongside_sparseStore h hname hexec
  refine ⟨other', exec_sparseStore_eq_ok_iff.2
    ⟨p, place, v, block, ?_, hplace, ?_, hblock, hshape, hstore⟩, hpair⟩
  · exact (eval_congr position hposition).trans hp
  · exact (eval_congr value hvalue).trans hv

theorem alongside_fill {b : Buffer α} {value : Expr α} (h : mem.Alike hidden summed other)
    (hname : name ∈ summed) (hb : mem.buffers.get? name = some b)
    (hreads : mem.AgreeOn value.reads other) (hexec : m.assign mem name value true = .ok mem') :
    ∃ other', m.assign other name value true = .ok other' ∧
      Alongside hidden summed mem other mem' other' := by
  obtain ⟨b', hb', hlayout⟩ := h.layouts name b hb
  rw [assign, hb] at hexec
  obtain ⟨data, hdata, hsize, rfl⟩ := fill_eq_ok_iff.1 hexec
  refine ⟨_, ?_, h.alongside_plus hname hb hb' hlayout [(0, data)]⟩
  rw [assign, hb', fill_eq_ok_iff]
  exact ⟨data, (fillers_congr hreads name).trans hdata, hlayout.size_values ▸ hsize, rfl⟩

/-- An assignment to a local, or a sum into one that is not hidden, comes to the same value. -/
theorem alongside_bind {value : Expr α} {accumulate : Bool} (h : mem.Alike hidden summed other)
    (hnone : mem.buffers.get? name = none) (hhidden : accumulate = true → name ∉ hidden)
    (hreads : mem.AgreeOn value.reads other)
    (hexec : m.assign mem name value accumulate = .ok mem') :
    ∃ other', m.assign other name value accumulate = .ok other' ∧
      Alongside (hidden.filter (· ≠ name)) summed mem other mem' other' := by
  rw [assign, hnone] at hexec
  obtain ⟨v, w, hv, rfl, hw⟩ := bindLocal_eq_ok_iff.1 hexec
  refine ⟨_, ?_, h.alongside_withLocal name w⟩
  rw [assign, h.absent name hnone, bindLocal_eq_ok_iff]
  refine ⟨v, w, (eval_congr value hreads).trans hv, rfl, hw.imp_right ?_⟩
  -- what the local is bound to is the same in both memories
  rintro ⟨haccumulate, current, hcurrent, hsum⟩
  exact ⟨haccumulate, current, (h.locals name (hhidden haccumulate)).trans hcurrent, hsum⟩

/-- A sum into a summed buffer, or into a local that is not hidden. -/
theorem alongside_sum {value : Expr α} (h : mem.Alike hidden summed other) (hhidden : name ∉ hidden)
    (hsummed : name ∈ summed ∨ mem.buffers.get? name = none) (hreads : mem.AgreeOn value.reads other)
    (hexec : m.assign mem name value true = .ok mem') :
    ∃ other', m.assign other name value true = .ok other' ∧
      Alongside hidden summed mem other mem' other' := by
  cases hb : mem.buffers.get? name with
  | none =>
      obtain ⟨other', hexec', hpair⟩ := alongside_bind h hb (fun _ => hhidden) hreads hexec
      exact ⟨other', hexec', hpair.mono fun _ hmem => (List.mem_filter.1 hmem).1⟩
  | some b =>
      -- a variable with a buffer is one of those summed
      have hname := hsummed.resolve_right fun hnone => by rw [hb] at hnone; cases hnone
      exact alongside_fill h hname hb hreads hexec

/-! ## Sums

A statement that adds to a variable does so to every buffer, if only nothing. -/

theorem adds_of_alongside {var : VarName} (hchanges : mem.Changes [var] [] mem')
    (hpair : ∃ other', Alongside [] [var] mem mem mem' other') (name : VarName) :
    ∃ additions, Adds name additions mem mem' := by
  obtain ⟨_, hpair⟩ := hpair
  by_cases heq : name = var
  · obtain ⟨additions, hadds, _⟩ := hpair.adds name (List.mem_singleton.2 heq)
    exact ⟨additions, hadds⟩
  · exact ⟨[], .of_eq (hchanges.buffer_eq (by simpa using heq))⟩

theorem adds_store {offset value : Expr α} {var : VarName}
    (hexec : m.exec (.store var offset value true) mem = .ok mem') (name : VarName) :
    ∃ additions, Adds name additions mem mem' := by
  obtain ⟨_, _, hpair⟩ := alongside_execStore (Alike.refl mem : mem.Alike [] [var] mem)
    (List.mem_singleton_self var) (.refl mem) (.refl mem) hexec
  exact adds_of_alongside (changes_exec _ hexec) ⟨_, hpair⟩ name

theorem adds_sparseStore {position value : Expr α} {shape : BlockShape} {var : VarName}
    (hexec : m.exec (.sparseStore var position value true shape) mem = .ok mem') (name : VarName) :
    ∃ additions, Adds name additions mem mem' := by
  obtain ⟨_, _, hpair⟩ := alongside_execSparseStore (Alike.refl mem : mem.Alike [] [var] mem)
    (List.mem_singleton_self var) (.refl mem) (.refl mem) hexec
  exact adds_of_alongside (changes_exec _ hexec) ⟨_, hpair⟩ name

theorem adds_assign {value : Expr α} {var : VarName}
    (hexec : m.assign mem var value true = .ok mem') (name : VarName) :
    ∃ additions, Adds name additions mem mem' := by
  obtain ⟨_, _, hpair⟩ := alongside_sum (.refl mem) (List.not_mem_nil (a := var))
    (Or.inl (List.mem_singleton_self var)) (.refl mem) hexec
  exact adds_of_alongside (changes_assign hexec) ⟨_, hpair⟩ name

end Machine

end GraphTensor
