import GraphTensor.Outcome
set_option autoImplicit false

/-! # Folds that may fail

A fold over a list in a computation that may fail keeps what each of its steps keeps
(`Except.foldlM_invariant`), and what each step keeps of the items done so far holds of all items at
the end (`Except.foldlM_prefix`). Passes, checks and runs are such folds, and most of what is said
of them goes through these two.

Two properties of single computations are propagated through their parts. `Outcome.Avoids` says that
no error of some kind comes out, with a lemma for each way of building a computation.
`Outcome.Settles` says that a value comes out that has a property, or an error, or an abort for a
reason that is named, and never nothing at all.

The instances at the top make statements about runs on given inputs decidable: whether a computation
has a value with a decidable property is found by running it. -/

namespace GraphTensor

theorem Except.bind_eq_ok {ε α β : Type} {o : Except ε α} {f : α → Except ε β} {b : β}
    (h : o >>= f = .ok b) : ∃ a, o = .ok a ∧ f a = .ok b := by
  cases o with
  | error cause => cases h
  | ok a => exact ⟨a, rfl, h⟩

theorem Except.pure_eq_ok_iff {ε α : Type} {a b : α} : (pure a : Except ε α) = .ok b ↔ b = a :=
  ⟨fun h => (Except.ok.inj h).symm, fun h => congrArg Except.ok h.symm⟩

theorem Outcome.check_bind_eq_ok_iff {ε β : Type} {check : Outcome ε Unit}
    {f : Unit → Outcome ε β} {b : β} :
    (check >>= f) = .ok b ↔ check = .ok () ∧ f () = .ok b := by
  simp only [Outcome.bind_eq_ok_iff]
  exact ⟨fun ⟨_, h⟩ => h, fun h => ⟨(), h⟩⟩

/-- A sequence of two computations fails in the first one or in the second one. -/
theorem Except.bind_eq_error {ε α β : Type} {o : Except ε α} {f : α → Except ε β} {e : ε}
    (h : o >>= f = .error e) : o = .error e ∨ ∃ a, o = .ok a ∧ f a = .error e := by
  cases o with
  | error cause => exact Or.inl (congrArg Except.error (Except.error.inj h))
  | ok a => exact Or.inr ⟨a, rfl, h⟩

/-- Where only a value is returned at the end, it is the computation that fails. -/
theorem Except.eq_error_of_bind_ok {ε α β : Type} {o : Except ε α} {g : α → β} {e : ε}
    (h : (o >>= fun a => .ok (g a)) = .error e) : o = .error e := by
  obtain ho | ⟨_, _, h⟩ := bind_eq_error h
  · exact ho
  · cases h

/-- Two continuations that agree on the value of a computation. -/
theorem Except.bind_congr {ε α β : Type} {o : Except ε α} {f g : α → Except ε β}
    (h : ∀ a, o = .ok a → f a = g a) : (o >>= f) = (o >>= g) := by
  cases o with
  | error cause => rfl
  | ok a => exact h a rfl

/-- Whether a computation succeeds with a value of some kind is decided by running it. -/
instance Except.decidableExistsOk {ε α : Type} (o : Except ε α) (p : α → Prop)
    [∀ a, Decidable (p a)] : Decidable (∃ a, o = .ok a ∧ p a) :=
  match o with
  | .error _ => .isFalse fun ⟨_, h, _⟩ => nomatch h
  | .ok a => decidable_of_iff (p a) ⟨fun h => ⟨a, rfl, h⟩, fun ⟨_, h, hp⟩ => Except.ok.inj h ▸ hp⟩

/-- So is whether it fails in some way. -/
instance Except.decidableExistsError {ε α : Type} (o : Except ε α) (p : ε → Prop)
    [∀ e, Decidable (p e)] : Decidable (∃ e, o = .error e ∧ p e) :=
  match o with
  | .error e => decidable_of_iff (p e)
      ⟨fun h => ⟨e, rfl, h⟩, fun ⟨_, h, hp⟩ => Except.error.inj h ▸ hp⟩
  | .ok _ => .isFalse fun ⟨_, h, _⟩ => nomatch h

/-- What every step of a fold keeps holds of the result, if there is one. -/
theorem Except.foldlM_invariant {ε α β : Type} {P : β → Prop} {f : β → α → Except ε β}
    (hstep : ∀ b a b', P b → f b a = .ok b' → P b') {b b' : β} {xs : List α} (hb : P b)
    (h : xs.foldlM f b = .ok b') : P b' := by
  induction xs generalizing b with
  | nil =>
      cases h
      exact hb
  | cons a rest ih =>
      rw [List.foldlM_cons] at h
      cases ha : f b a with
      | error cause => simp [ha, bind, Except.bind] at h
      | ok next =>
          simp only [ha, bind, Except.bind] at h
          exact ih (hstep b a next hb ha) h

/-- What every step of a fold keeps of the items done so far holds of all items, if there is a
    result. -/
theorem Except.foldlM_prefix {ε α β : Type} {P : List α → β → Prop} {f : β → α → Except ε β}
    {xs : List α} (hstep : ∀ done b a b', a ∈ xs → P done b → f b a = .ok b' → P (done ++ [a]) b')
    {b b' : β} (hb : P [] b) (h : xs.foldlM f b = .ok b') : P xs b' := by
  have hall : ∀ (done rest : List α) (b : β), done ++ rest = xs → P done b →
      rest.foldlM f b = .ok b' → P xs b' := by
    intro done rest
    induction rest generalizing done with
    | nil =>
        intro b heq hb h
        rw [List.append_nil] at heq
        cases h
        exact heq ▸ hb
    | cons a rest ih =>
        intro b heq hb h
        rw [List.foldlM_cons] at h
        have ha : a ∈ xs := heq ▸ List.mem_append_right done (List.mem_cons_self ..)
        cases hfa : f b a with
        | error cause => simp [hfa, bind, Except.bind] at h
        | ok next =>
            simp only [hfa, bind, Except.bind] at h
            exact ih (done ++ [a]) next (by simp [heq]) (hstep done b a next ha hb hfa) h
  exact hall [] xs b rfl hb h

/-- A fold that fails does so at one of its items, from a state that the steps before it lead to. -/
theorem Except.foldlM_error {ε α β : Type} {P : β → Prop} {f : β → α → Except ε β} {xs : List α}
    {cause : ε} (hstep : ∀ b a b', a ∈ xs → P b → f b a = .ok b' → P b') {b : β} (hb : P b)
    (h : xs.foldlM f b = .error cause) : ∃ a ∈ xs, ∃ b, P b ∧ f b a = .error cause := by
  induction xs generalizing b with
  | nil => cases h
  | cons a rest ih =>
      rw [List.foldlM_cons] at h
      cases ha : f b a with
      | error found =>
          simp only [ha, bind, Except.bind] at h
          exact ⟨a, List.mem_cons_self .., b, hb, h ▸ ha⟩
      | ok next =>
          simp only [ha, bind, Except.bind] at h
          have hnext := hstep b a next (List.mem_cons_self ..) hb ha
          obtain ⟨a', ha', b', hb', hfail⟩ :=
            ih (fun b a b' hmem => hstep b a b' (List.mem_cons_of_mem _ hmem)) hnext h
          exact ⟨a', List.mem_cons_of_mem _ ha', b', hb', hfail⟩

theorem Except.forM_eq_ok_iff {ε α : Type} {f : α → Except ε PUnit} {xs : List α} :
    xs.forM f = .ok ⟨⟩ ↔ ∀ a ∈ xs, f a = .ok ⟨⟩ := by
  induction xs with
  | nil => exact ⟨fun _ _ hmem => absurd hmem List.not_mem_nil, fun _ => rfl⟩
  | cons b rest ih =>
      change (f b >>= fun _ => rest.forM f) = .ok ⟨⟩ ↔ _
      cases hb : f b with
      | error cause => simp [bind, Except.bind, hb]
      | ok _ => simpa [bind, Except.bind, hb] using ih

theorem Except.forM_mem {ε α : Type} {f : α → Except ε PUnit} {xs : List α}
    (h : xs.forM f = .ok ⟨⟩) {a : α} (ha : a ∈ xs) : f a = .ok ⟨⟩ :=
  forM_eq_ok_iff.1 h a ha

theorem Except.mapM_eq_ok {ε α β : Type} {f : α → Except ε β} {xs : List α} {ys : List β}
    (h : xs.mapM f = .ok ys) :
    ys.length = xs.length ∧
      ∀ (i : Nat) (x : α), xs[i]? = some x → ∃ y, ys[i]? = some y ∧ f x = .ok y := by
  induction xs generalizing ys with
  | nil =>
      cases h
      exact ⟨rfl, fun i x hx => by cases hx⟩
  | cons a rest ih =>
      rw [List.mapM_cons] at h
      obtain ⟨b, hb, h⟩ := Except.bind_eq_ok h
      obtain ⟨bs, hbs, h⟩ := Except.bind_eq_ok h
      cases h
      obtain ⟨hlength, hrest⟩ := ih hbs
      refine ⟨congrArg (· + 1) hlength, fun i x hx => ?_⟩
      cases i with
      | zero =>
          obtain rfl := Option.some.inj hx
          exact ⟨b, rfl, hb⟩
      | succ i => exact hrest i x hx

namespace Outcome

variable {ε : Type}

theorem orAbort_bind {α β : Type} {o : Option α} {a : α} (h : o = some a)
    {f : α → Outcome ε β} : (orAbort o >>= f) = f a := by
  rw [h]
  rfl

theorem orFail_ne_abort {α : Type} {cause : ε} {o : Option α} : orFail cause o ≠ .error .abort := by
  cases o <;> nofun

theorem failIf_eq_ok_iff {condition : Bool} {cause : ε} :
    failIf condition cause = .ok () ↔ condition = false := by
  unfold failIf
  cases condition <;> simp

/-! ## Errors of a kind -/

/-- A computation does not end in an error of some kind. -/
structure Avoids {β : Type} (o : Outcome ε β) (bad : ε → Bool) : Prop where
  /-- An error is of another kind. -/
  error : ∀ cause, o = .error (.error cause) → bad cause = false

section

variable {bad : ε → Bool} {β γ : Type}

theorem avoids_ok (b : β) : Avoids (.ok b : Outcome ε β) bad :=
  ⟨fun _ h => nomatch h⟩

theorem avoids_abort : Avoids (.error .abort : Outcome ε β) bad :=
  ⟨fun _ h => nomatch h⟩

theorem avoids_fail {cause : ε} (hcause : bad cause = false) :
    Avoids (.error (.error cause) : Outcome ε β) bad := by
  refine ⟨fun found h => ?_⟩
  obtain rfl := Fault.error.inj (Except.error.inj h)
  exact hcause

theorem Avoids.mono {worse : ε → Bool} {o : Outcome ε β} (ho : o.Avoids bad)
    (h : ∀ cause, worse cause = true → bad cause = true) : o.Avoids worse :=
  ⟨fun cause herror => Bool.eq_false_iff.2 fun hworse =>
    Bool.eq_false_iff.1 (ho.error cause herror) (h cause hworse)⟩

theorem Avoids.bind {o : Outcome ε β} {g : β → Outcome ε γ} (ho : o.Avoids bad)
    (hg : ∀ b, o = .ok b → (g b).Avoids bad) : (o >>= g).Avoids bad := by
  cases o with
  | error fault => exact ⟨fun cause h => ho.error cause (congrArg Except.error (Except.error.inj h))⟩
  | ok b => exact hg b rfl

/-- A sequence of two computations that ends in such an error does so in the second one, if the first
    one never does. -/
theorem Avoids.exists_ok {o : Outcome ε β} {g : β → Outcome ε γ} {cause : ε} (ho : o.Avoids bad)
    (hcause : bad cause = true) (h : (o >>= g) = .error (.error cause)) :
    ∃ b, o = .ok b ∧ g b = .error (.error cause) := by
  refine (Except.bind_eq_error h).resolve_left fun hfirst => ?_
  cases (ho.error cause hfirst).symm.trans hcause

theorem Avoids.map {o : Outcome ε β} (ho : o.Avoids bad) (g : β → γ) :
    Avoids (Except.map g o) bad := by
  cases o with
  | error fault => exact ⟨fun cause h => ho.error cause (congrArg Except.error (Except.error.inj h))⟩
  | ok b => exact avoids_ok _

theorem avoids_orAbort (o : Option β) : Avoids (orAbort o : Outcome ε β) bad := by
  cases o with
  | none => exact avoids_abort
  | some b => exact avoids_ok b

theorem avoids_orFail {cause : ε} (o : Option β) (hcause : bad cause = false) :
    (orFail cause o).Avoids bad := by
  cases o with
  | none => exact avoids_fail hcause
  | some b => exact avoids_ok b

theorem avoids_failIf {cause : ε} (condition : Bool) (hcause : bad cause = false) :
    (failIf condition cause).Avoids bad := by
  unfold failIf
  split
  · exact avoids_fail hcause
  · exact avoids_ok ()

theorem avoids_require (condition : Bool) : Avoids (require condition : Outcome ε Unit) bad := by
  unfold require
  split
  · exact avoids_ok ()
  · exact avoids_abort

theorem avoids_forM {xs : List β} {f : β → Outcome ε PUnit} (h : ∀ b ∈ xs, (f b).Avoids bad) :
    Avoids (xs.forM f) bad := by
  induction xs with
  | nil => exact avoids_ok _
  | cons b rest ih =>
      obtain ⟨hb, hrest⟩ := List.forall_mem_cons.1 h
      exact Avoids.bind (o := f b) hb fun _ _ => ih hrest

end

/-! ## What a computation settles to -/

/-- A computation comes to a value with a property or to an error. It may abort only under a
    condition. -/
def Settles {β : Type} (o : Outcome ε β) (P : β → Prop) (Q : Prop) : Prop :=
  match o with
  | .ok b => P b
  | .error (.error _) => True
  | .error .abort => Q
  | .error .divergence => False

namespace Settles

variable {β γ : Type} {o : Outcome ε β} {P P' : β → Prop} {Q Q' : Prop}

theorem of_eq_ok {b : β} (ho : o.Settles P Q) (h : o = .ok b) : P b := by
  rw [h] at ho
  exact ho

theorem of_eq_abort (ho : o.Settles P Q) (h : o = .error .abort) : Q := by
  rw [h] at ho
  exact ho

theorem ne_divergence (ho : o.Settles P Q) : o ≠ .error .divergence := by
  rintro rfl
  exact ho

theorem abort_self (ho : o.Settles P Q) : o.Settles P (o = .error .abort) := by
  cases o with
  | ok b => exact ho
  | error fault =>
      cases fault with
      | error cause => trivial
      | abort => rfl
      | divergence => exact ho

theorem imp (ho : o.Settles P Q) (hP : ∀ b, P b → P' b) (hQ : Q → Q') : o.Settles P' Q' := by
  cases o with
  | ok b => exact hP b ho
  | error fault =>
      cases fault with
      | error cause => trivial
      | abort => exact hQ ho
      | divergence => exact ho

theorem bind {g : β → Outcome ε γ} {R : γ → Prop} (ho : o.Settles P Q)
    (hg : ∀ b, o = .ok b → P b → (g b).Settles R Q) : Settles (o >>= g) R Q := by
  cases o with
  | ok b => exact hg b rfl ho
  | error fault => cases fault <;> exact ho

theorem map {g : β → γ} {R : γ → Prop} (ho : o.Settles P Q) (hg : ∀ b, P b → R (g b)) :
    Settles (Except.map g o) R Q := by
  cases o with
  | ok b => exact hg b ho
  | error fault => cases fault <;> exact ho

end Settles

section

variable {β : Type} {P : β → Prop} {Q : Prop}

theorem settles_orFail {cause : ε} {o : Option β} (h : ∀ b, o = some b → P b) :
    (orFail cause o).Settles P Q := by
  cases o with
  | none => trivial
  | some b => exact h b rfl

theorem settles_orFail_bind {γ : Type} {cause : ε} {o : Option β} {g : β → Outcome ε γ}
    {R : γ → Prop} (hg : ∀ b, o = some b → (g b).Settles R Q) :
    Settles (orFail cause o >>= g) R Q := by
  cases o with
  | none => trivial
  | some b => exact hg b rfl

theorem settles_orAbort {o : Option β} (h : ∀ b, o = some b → P b) (hnone : o = none → Q) :
    Settles (orAbort o : Outcome ε β) P Q := by
  cases o with
  | none => exact hnone rfl
  | some b => exact h b rfl

end

end Outcome

end GraphTensor
