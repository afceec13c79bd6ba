import GraphTensor.Proofs.Storage.Descriptors
set_option autoImplicit false

/-! # The order of statements

Evidence is ordered by what it knows of each variable: nothing, a diagonal, or the pattern of a
relation that holds it (`Evidence.Below`). Assemblies add the same evidence in every order, because
each write of a kernel adds its pattern and is taken in by whatever is above the outcome
(`Evidence.Adds`, `Evidence.TakesIn`). Index expressions are worked through until nothing changes,
and what a round computes from partial knowledge stays.

As long as more knowledge only lets the mask of an assignment grow (`Inference.MasksGrow`), no
statement leads out of what is below evidence that all statements leave alone (`Inference.Closed`).
The rounds then end in the least such evidence, which does not depend on their order; this goes up
from one statement (`Inference.observeIndex_below`) over a round to all rounds
(`Inference.propagate_least`). A mask that more knowledge replaces by another one stays behind where
it was met too early. That no term has two operands that could mask it (`Func.SingleMasks`) is
enough for masks to grow, and can be read off the function. -/

namespace GraphTensor

/-! ## The order of patterns -/

namespace PatternRef

/-- A pattern is another one, or the diagonal in it. -/
def Within (p q : PatternRef) : Prop :=
  p = q ∨ p = .diagonal q.rows ∧ q.cols = q.rows ∧ q.isDiagonal = false

theorem Within.refl (p : PatternRef) : p.Within p :=
  Or.inl rfl

theorem Within.trans {p q r : PatternRef} (h : p.Within q) (h' : q.Within r) : p.Within r := by
  rcases h' with rfl | ⟨rfl, hr⟩
  · exact h
  · rcases h with rfl | ⟨_, _, hq⟩
    · exact Or.inr ⟨rfl, hr⟩
    · cases hq

theorem Within.antisymm {p q : PatternRef} (h : p.Within q) (h' : q.Within p) : p = q := by
  rcases h with rfl | ⟨rfl, _, hq⟩
  · rfl
  · rcases h' with h' | ⟨_, _, hp⟩
    · exact h'.symm
    · cases hp

theorem subsetOf_diagonal {q : PatternRef} (h : q.cols = q.rows) :
    (diagonal q.rows).subsetOf q = true := by
  simp [subsetOf, diagonal, isDiagonal, h]

theorem subsetOf_eq_false {p q : PatternRef} (hp : p.isDiagonal = false) (hne : p ≠ q) :
    p.subsetOf q = false := by
  simp [subsetOf, hp, hne]

end PatternRef

theorem mergePatterns_within {a b r : PatternRef} (ha : a.Within r) (hb : b.Within r)
    (var : VarName) : ∃ c, mergePatterns var a b = .ok c ∧ c.Within r := by
  unfold mergePatterns
  rcases hb with rfl | ⟨rfl, hcols, hr⟩
  · refine ⟨b, if_pos ?_, .refl b⟩
    rcases ha with rfl | ⟨rfl, hcols, _⟩
    · exact a.subsetOf_refl
    · exact PatternRef.subsetOf_diagonal hcols
  · rcases ha with rfl | ⟨rfl, _, _⟩
    · -- the diagonal comes second
      have hne : a ≠ .diagonal a.rows := fun heq => by
        rw [heq] at hr
        cases hr
      rw [PatternRef.subsetOf_eq_false hr hne, PatternRef.subsetOf_diagonal hcols]
      exact ⟨a, rfl, .refl a⟩
    · exact ⟨_, if_pos (PatternRef.subsetOf_refl _), Or.inr ⟨rfl, hcols, hr⟩⟩

/-- A diagonal is that of its own rows. -/
def PatternRef.Proper (p : PatternRef) : Prop :=
  p.isDiagonal = true → p = .diagonal p.rows

theorem PatternRef.Within.proper {p q : PatternRef} (h : p.Within q) (hq : q.Proper) :
    p.Proper := by
  rcases h with rfl | ⟨rfl, _⟩
  · exact hq
  · exact fun _ => rfl

theorem PatternRef.within_of_subsetOf {p q : PatternRef} (hp : p.Proper) (hq : q.Proper)
    (h : p.subsetOf q = true) : p.Within q := by
  by_cases heq : p = q
  · exact Or.inl heq
  · simp only [subsetOf, Bool.or_eq_true, beq_iff_eq, heq, false_or, Bool.and_eq_true] at h
    obtain ⟨⟨⟨hdiag, hsquare⟩, hrows⟩, _⟩ := h
    have hdiagonal : p = .diagonal q.rows := hrows ▸ hp hdiag
    refine Or.inr ⟨hdiagonal, hsquare.symm, ?_⟩
    by_contra hq'
    exact heq (hdiagonal.trans (hq (by simpa using hq')).symm)

theorem within_of_mergePatterns {var : VarName} {a b c : PatternRef} (ha : a.Proper)
    (hb : b.Proper) (h : mergePatterns var a b = .ok c) :
    a.Within c ∧ b.Within c ∧ c.Proper := by
  unfold mergePatterns at h
  split at h
  · next hsub =>
      obtain rfl := Except.ok.inj h
      exact ⟨PatternRef.within_of_subsetOf ha hb hsub, .refl b, hb⟩
  · split at h
    · next hsub =>
        obtain rfl := Except.ok.inj h
        exact ⟨.refl a, PatternRef.within_of_subsetOf hb ha hsub, ha⟩
    · cases h

section

variable {α : Type} {f : Func α} {tensors : Table VarName TensorType}

theorem PatternRef.Within.checkInduces {var : VarName} {type : TensorType} {p q : PatternRef}
    (h : p.Within q) (hq : f.checkInduces var q type = .ok ()) :
    f.checkInduces var p type = .ok () := by
  rcases h with rfl | ⟨rfl, hcols, _⟩
  · exact hq
  · have hdims := f.dims_of_checkInduces hq
    rw [hcols] at hdims
    simp [Func.checkInduces, PatternRef.diagonal, hdims]

/-! ## The order of evidence -/

namespace Evidence

variable {e e' r : Evidence} {var : VarName} {p q : PatternRef}

/-- Other evidence knows all that some evidence knows. -/
def Below (e e' : Evidence) : Prop :=
  ∀ var p, e.get? var = some p → ∃ q, e'.get? var = some q ∧ p.Within q

theorem Below.refl (e : Evidence) : e.Below e :=
  fun _ p h => ⟨p, h, .refl p⟩

theorem Below.trans (h : e.Below e') (h' : e'.Below r) : e.Below r := by
  intro var p hp
  obtain ⟨q, hq, hpq⟩ := h var p hp
  obtain ⟨s, hs, hqs⟩ := h' var q hq
  exact ⟨s, hs, hpq.trans hqs⟩

theorem Below.antisymm (h : e.Below e') (h' : e'.Below e) (var : VarName) :
    e.get? var = e'.get? var := by
  cases hp : e.get? var with
  | none =>
      cases hq : e'.get? var with
      | none => rfl
      | some q =>
          obtain ⟨p, hp', _⟩ := h' var q hq
          cases hp.symm.trans hp'
  | some p =>
      obtain ⟨q, hq, hpq⟩ := h var p hp
      obtain ⟨p', hp', hqp⟩ := h' var q hq
      obtain rfl := Option.some.inj (hp'.symm.trans hp)
      rw [hq, hpq.antisymm hqp]

theorem below_of_same (h : ∀ var, e.get? var = e'.get? var) : e.Below e' :=
  fun var p hp => ⟨p, (h var).symm.trans hp, .refl p⟩

theorem below_insert (h : ∀ held, e.get? var = some held → held.Within p) :
    e.Below (e.insert var p) := by
  intro other held hheld
  by_cases hvar : var = other
  · subst hvar
    exact ⟨p, by simp [Table.get?_insert], h held hheld⟩
  · exact ⟨held, by simp [Table.get?_insert, hvar, hheld], .refl held⟩

theorem Below.insert (h : e.Below r) (hr : r.get? var = some q) (hp : p.Within q) :
    Below (e.insert var p) r := by
  intro other held hheld
  by_cases hvar : var = other
  · subst hvar
    obtain rfl : p = held := by simpa [Table.get?_insert] using hheld
    exact ⟨q, hr, hp⟩
  · exact h other held (by simpa [Table.get?_insert, hvar] using hheld)

theorem Below.merge (h : e.Below r) (hr : r.get? var = some q) (hp : p.Within q) :
    ∃ e', e.merge var p = .ok e' ∧ e'.Below r := by
  unfold Evidence.merge
  split
  · exact ⟨_, rfl, h.insert hr hp⟩
  · next held hheld =>
      obtain ⟨q', hq', hheld'⟩ := h var held hheld
      obtain rfl := Option.some.inj (hq'.symm.trans hr)
      obtain ⟨c, hc, hcq⟩ := mergePatterns_within hheld' hp var
      exact ⟨_, by rw [hc]; rfl, h.insert hr hcq⟩

theorem below_of_merge {type : TensorType} (hc : e.Checked f tensors)
    (htype : tensors.get? var = some type) (hp : f.checkInduces var p type = .ok ())
    (h : e.merge var p = .ok e') :
    e.Below e' ∧ ∃ q, e'.get? var = some q ∧ p.Within q := by
  rcases merge_cases h with ⟨hnone, rfl⟩ | ⟨held, merged, hheld, hmerge, rfl⟩
  · refine ⟨below_insert fun held hheld => ?_, p, by simp [Table.get?_insert], .refl p⟩
    cases hnone.symm.trans hheld
  · obtain ⟨type', htype', hcheck⟩ := hc var held hheld
    obtain rfl := Option.some.inj (htype'.symm.trans htype)
    obtain ⟨hfirst, hsecond, _⟩ := within_of_mergePatterns
      (fun hd => f.eq_diagonal_of_checkInduces hcheck hd)
      (fun hd => f.eq_diagonal_of_checkInduces hp hd) hmerge
    refine ⟨below_insert fun held' hheld' => ?_, merged, by simp [Table.get?_insert], hsecond⟩
    exact Option.some.inj (hheld.symm.trans hheld') ▸ hfirst

/-- A step adds nothing to evidence: from whatever is below, it succeeds and stays below. -/
def TakesIn (r : Evidence) (step : Evidence → Except LowerError Evidence) : Prop :=
  ∀ e : Evidence, e.Below r → ∃ e', step e = .ok e' ∧ e'.Below r

theorem TakesIn.foldlM {β : Type} {step : Evidence → β → Except LowerError Evidence} {xs : List β}
    (h : ∀ x ∈ xs, r.TakesIn fun e => step e x) : r.TakesIn fun e => xs.foldlM step e := by
  induction xs with
  | nil => exact fun e he => ⟨e, rfl, he⟩
  | cons x rest ih =>
      intro e he
      obtain ⟨next, hnext, hbelow⟩ := h x (List.mem_cons_self ..) e he
      obtain ⟨e', he', hbelow'⟩ := ih (fun y hy => h y (List.mem_cons_of_mem _ hy)) next hbelow
      refine ⟨e', ?_, hbelow'⟩
      show List.foldlM step e (x :: rest) = _
      rw [List.foldlM_cons, show step e x = .ok next from hnext]
      exact he'

/-- A step that succeeds leads to evidence above, and whatever is above that takes the step in. -/
def Adds (f : Func α) (tensors : Table VarName TensorType)
    (step : Evidence → Except LowerError Evidence) : Prop :=
  ∀ e e' : Evidence, e.Checked f tensors → step e = .ok e' →
    e'.Checked f tensors ∧ e.Below e' ∧ ∀ r, e'.Below r → r.TakesIn step

/-- Steps one after another are taken in by whatever is above their outcome, each by itself. -/
theorem Adds.foldlM {β : Type} {step : Evidence → β → Except LowerError Evidence} {xs : List β}
    (h : ∀ x ∈ xs, Adds f tensors fun e => step e x) (hc : e.Checked f tensors)
    (hfold : xs.foldlM step e = .ok e') :
    e'.Checked f tensors ∧ e.Below e' ∧
      ∀ r, e'.Below r → ∀ x ∈ xs, r.TakesIn fun e => step e x := by
  induction xs generalizing e with
  | nil =>
      obtain rfl := Except.ok.inj hfold
      exact ⟨hc, .refl e, fun _ _ x hx => absurd hx List.not_mem_nil⟩
  | cons x rest ih =>
      rw [List.foldlM_cons] at hfold
      obtain ⟨next, hnext, hfold⟩ := Except.bind_eq_ok hfold
      obtain ⟨hchecked, hbelow, htakes⟩ := h x (List.mem_cons_self ..) e next hc hnext
      obtain ⟨hchecked', hbelow', htakes'⟩ :=
        ih (fun y hy => h y (List.mem_cons_of_mem _ hy)) hchecked hfold
      refine ⟨hchecked', hbelow.trans hbelow', fun r hr y hy => ?_⟩
      rcases List.mem_cons.1 hy with rfl | hy
      · exact htakes r (hbelow'.trans hr)
      · exact htakes' r hr y hy

theorem foldlM_of_perm {β : Type} {step : Evidence → β → Except LowerError Evidence}
    {xs ys : List β} (hperm : xs.Perm ys) (h : ∀ x ∈ xs, Adds f tensors fun e => step e x)
    (hc : e.Checked f tensors) (hfold : xs.foldlM step e = .ok r) :
    ∃ r', ys.foldlM step e = .ok r' ∧ ∀ var, r'.get? var = r.get? var := by
  obtain ⟨_, hbelow, htakes⟩ := Adds.foldlM h hc hfold
  obtain ⟨r', hr', hle⟩ := TakesIn.foldlM
    (fun y hy => htakes r (.refl r) y (hperm.mem_iff.2 hy)) e hbelow
  obtain ⟨_, hbelow', htakes'⟩ := Adds.foldlM (fun y hy => h y (hperm.mem_iff.2 hy)) hc hr'
  -- back in the first order, now from below the second outcome
  obtain ⟨r₂, hr₂, hle'⟩ := TakesIn.foldlM
    (fun x hx => htakes' r' (.refl r') x (hperm.mem_iff.1 hx)) e hbelow'
  obtain rfl := Except.ok.inj (hr₂.symm.trans hfold)
  exact ⟨r', hr', hle.antisymm hle'⟩

theorem adds_merge {type : TensorType} (htype : tensors.get? var = some type)
    (hp : f.checkInduces var p type = .ok ()) : Adds f tensors fun e => e.merge var p := by
  intro e e' hc h
  obtain ⟨hbelow, q, hq, hwithin⟩ := below_of_merge hc htype hp h
  refine ⟨checked_merge hc htype hp h, hbelow, fun r hr e₀ he₀ => ?_⟩
  obtain ⟨q', hq', hqq'⟩ := hr var q hq
  exact he₀.merge hq' (hwithin.trans hqq')

end Evidence

/-! ## Evidence of assemblies -/

namespace Inference

variable {inf : Inference α}

/-- A kernel write has nothing to add, or its pattern. -/
theorem observeWrite_idle_or (inf : Inference α) (decl : SetDecl) (kernel : KernelVars)
    (write : VarName × List (Expr α)) :
    (∀ e, inf.observeWrite decl kernel e write = .ok e) ∨
      ∃ type pattern, inf.tensors.get? write.1 = some type ∧ ∀ e : Evidence,
        inf.observeWrite decl kernel e write =
          inf.func.checkInduces write.1 pattern type >>= fun _ => e.merge write.1 pattern := by
  obtain ⟨var, indices⟩ := write
  unfold observeWrite
  by_cases hseed : inf.seed.contains var = true
  · exact Or.inl fun e => if_pos hseed
  · simp only [hseed, Bool.false_eq_true, if_false]
    split
    · next type pattern htype _ => exact Or.inr ⟨type, pattern, htype, fun e => rfl⟩
    · exact Or.inl fun e => rfl

theorem adds_observeWrite (decl : SetDecl) (kernel : KernelVars)
    (write : VarName × List (Expr α)) :
    Evidence.Adds inf.func inf.tensors fun e => inf.observeWrite decl kernel e write := by
  intro e e' hc h
  rcases inf.observeWrite_idle_or decl kernel write with hidle | ⟨type, pattern, htype, hadd⟩
  · obtain rfl := Except.ok.inj ((hidle e).symm.trans h)
    exact ⟨hc, .refl e, fun r _ e₀ he₀ => ⟨e₀, hidle e₀, he₀⟩⟩
  · obtain ⟨_, hcheck, hmerge⟩ := Except.bind_eq_ok ((hadd e).symm.trans h)
    obtain ⟨hchecked, hbelow, htakes⟩ := Evidence.adds_merge htype hcheck e e' hc hmerge
    refine ⟨hchecked, hbelow, fun r hr e₀ he₀ => ?_⟩
    obtain ⟨e₁, he₁, hbelow₁⟩ := htakes r hr e₀ he₀
    refine ⟨e₁, (hadd e₀).trans ?_, hbelow₁⟩
    rw [hcheck]
    exact he₁

theorem adds_observeAssembly (s : Stmt α) :
    Evidence.Adds inf.func inf.tensors fun e => inf.observeAssembly e s := by
  intro e e' hc h
  unfold observeAssembly at h ⊢
  split at h
  · next set kernel body =>
      split at h
      · cases h
      · next decl hdecl =>
          obtain ⟨hchecked, hbelow, htakes⟩ :=
            Evidence.Adds.foldlM (fun write _ => adds_observeWrite decl kernel write) hc h
          exact ⟨hchecked, hbelow, fun r hr => Evidence.TakesIn.foldlM (htakes r hr)⟩
  · obtain rfl := Except.ok.inj h
    exact ⟨hc, .refl e, fun r _ e₀ he₀ => ⟨e₀, rfl, he₀⟩⟩

theorem assembled_of_perm {body body' : List (Stmt α)} (hperm : body.Perm body') {e : Evidence}
    (h : body.foldlM inf.observeAssembly Table.empty = .ok e) :
    ∃ e', body'.foldlM inf.observeAssembly Table.empty = .ok e' ∧
      ∀ var, e'.get? var = e.get? var := by
  have hempty : Evidence.Checked Table.empty inf.func inf.tensors := fun _ _ h => nomatch h
  exact Evidence.foldlM_of_perm hperm (fun s _ => adds_observeAssembly s) hempty h

end Inference

end

/-! ## Evidence of index expressions -/

namespace Inference

variable {α : Type} [Scalar α] {inf : Inference α} {decided : List VarName}
  {lower upper r e e' : Evidence} {s : Stmt α}

/-- A statement has nothing to add, or the mask of what it assigns. -/
theorem observeIndex_idle_or (inf : Inference α) (decided : List VarName) (s : Stmt α) :
    (∀ e, inf.observeIndex decided e s = .ok (e, false)) ∨
      ∃ var free body type terms, s = .assign var (.index free body) ∧
        inf.Gathers decided var free ∧ inf.tensors.get? var = some type ∧
        body.terms = .ok terms ∧ ∀ e : Evidence, inf.observeIndex decided e s =
          inf.sumMask e var free none terms >>= fun mask =>
            match mask with
            | none => .ok (e, false)
            | some mask =>
              if e.get? var = some mask then .ok (e, false)
              else inf.func.checkInduces var mask type >>= fun _ =>
                e.merge var mask >>= fun e' => .ok (e', true) := by
  by_cases h : ∃ var free body type terms, s = .assign var (.index free body) ∧
      inf.Gathers decided var free ∧ inf.tensors.get? var = some type ∧ body.terms = .ok terms
  · obtain ⟨var, free, body, type, terms, rfl, hgathers, htype, hterms⟩ := h
    exact Or.inr ⟨var, free, body, type, terms, rfl, hgathers, htype, hterms,
      observeIndex_of_gathers hgathers htype hterms⟩
  · refine Or.inl fun e => ?_
    unfold observeIndex
    split
    · next var free body =>
        split
        · rfl
        · next hopen =>
            have hgathers : inf.Gathers decided var free := by
              simpa [Gathers, and_assoc] using hopen
            split
            · next type terms htype hterms =>
                exact absurd ⟨var, free, body, type, terms, rfl, hgathers, htype, hterms⟩ h
            · rfl
    · rfl

/-- Between lower and upper evidence, the mask of an assignment grows with what is known: it may
    appear, and a diagonal may give way to a pattern that holds it. -/
def MasksGrow (inf : Inference α) (lower upper : Evidence) : Prop :=
  ∀ var free body terms, .assign var (.index free body) ∈ inf.func.body →
    inf.Gathers lower.keys var free → body.terms = .ok terms →
      ∀ e e' mask', lower.Below e → e.Below e' → e'.Below upper →
        inf.sumMask e' var free none terms = .ok mask' →
          ∃ mask, inf.sumMask e var free none terms = .ok mask ∧
            ∀ p, mask = some p → ∃ q, mask' = some q ∧ p.Within q

/-- No statement changes the evidence. -/
def Closed (inf : Inference α) (decided : List VarName) (e : Evidence) : Prop :=
  ∀ s ∈ inf.func.body, ∃ reported, inf.observeIndex decided e s = .ok (e, reported)

theorem below_of_observeIndex {reported : Bool} (hc : e.Checked inf.func inf.tensors)
    (h : inf.observeIndex decided e s = .ok (e', reported)) : e.Below e' := by
  rcases observeIndex_cases h with ⟨rfl, _⟩ |
    ⟨_, _, _, _, _, _, _, _, htype, _, _, _, hcheck, hmerge, _⟩
  · exact .refl e'
  · exact (Evidence.below_of_merge hc htype hcheck hmerge).1

/-- **One statement** does not lead out of what is below evidence that no statement changes. -/
theorem observeIndex_below (hgrow : inf.MasksGrow lower upper) (hc : r.Checked inf.func inf.tensors)
    (hclosed : inf.Closed lower.keys r) (hupper : r.Below upper) (hs : s ∈ inf.func.body)
    (hlower : lower.Below e) (he : e.Below r) :
    ∃ e' reported, inf.observeIndex lower.keys e s = .ok (e', reported) ∧ e'.Below r := by
  rcases inf.observeIndex_idle_or lower.keys s with hidle |
    ⟨var, free, body, type, terms, rfl, hgathers, htype, hterms, hadd⟩
  · exact ⟨e, false, hidle e, he⟩
  · obtain ⟨reported, hunchanged⟩ := hclosed _ hs
    obtain ⟨mask', hmask', hr⟩ := Except.bind_eq_ok ((hadd r).symm.trans hunchanged)
    obtain ⟨mask, hmask, hwithin⟩ :=
      hgrow var free body terms hs hgathers hterms e r mask' hlower he hupper hmask'
    rw [hadd e, hmask]
    cases mask with
    | none => exact ⟨e, false, rfl, he⟩
    | some p =>
        obtain ⟨q, rfl, hpq⟩ := hwithin p rfl
        -- the mask at the closed evidence is held there already
        obtain ⟨held, hheld, hqheld⟩ : ∃ held, r.get? var = some held ∧ q.Within held := by
          by_cases hsame : r.get? var = some q
          · exact ⟨q, hsame, .refl q⟩
          · dsimp only at hr
            rw [if_neg hsame] at hr
            obtain ⟨_, hcheck, hr⟩ := Except.bind_eq_ok hr
            obtain ⟨r', hmerge, hr⟩ := Except.bind_eq_ok hr
            obtain ⟨rfl, _⟩ := Prod.mk.inj (Except.ok.inj hr)
            exact (Evidence.below_of_merge hc htype hcheck hmerge).2
        obtain ⟨type', htype', hcheck⟩ := hc var held hheld
        obtain rfl := Option.some.inj (htype'.symm.trans htype)
        have hcheck' := (hpq.trans hqheld).checkInduces hcheck
        obtain ⟨e', hmerge, hbelow⟩ := he.merge hheld (hpq.trans hqheld)
        by_cases hsame : e.get? var = some p
        · exact ⟨e, false, if_pos hsame, he⟩
        · refine ⟨e', true, (if_neg hsame).trans ?_, hbelow⟩
          rw [hcheck', hmerge]
          rfl

theorem round_below (hgrow : inf.MasksGrow lower upper) (hr : r.Checked inf.func inf.tensors)
    (hclosed : inf.Closed lower.keys r) (hupper : r.Below upper) {body : List (Stmt α)}
    (hbody : body ⊆ inf.func.body) (hc : e.Checked inf.func inf.tensors) (hlower : lower.Below e)
    (he : e.Below r) :
    ∃ e' reported, inf.round lower.keys body e = .ok (e', reported) ∧ lower.Below e' ∧
      e'.Below r := by
  induction body generalizing e with
  | nil => exact ⟨e, false, rfl, hlower, he⟩
  | cons s rest ih =>
      obtain ⟨hs, hrest⟩ := List.cons_subset.1 hbody
      obtain ⟨next, first, hnext, hbelow⟩ :=
        observeIndex_below hgrow hr hclosed hupper hs hlower he
      obtain ⟨e', later, he', hlower', hbelow'⟩ := ih hrest (observeIndex_step hc hnext).1
        (hlower.trans (below_of_observeIndex hc hnext)) hbelow
      refine ⟨e', first || later, ?_, hlower', hbelow'⟩
      rw [round, hnext]
      show (inf.round lower.keys rest next >>= _) = _
      rw [he']
      rfl

/-- What propagation ends in is below all evidence that no statement changes. -/
theorem propagate_least (hgrow : inf.MasksGrow lower upper) (hr : r.Checked inf.func inf.tensors)
    (hclosed : inf.Closed lower.keys r) (hupper : r.Below upper)
    (hc : e.Checked inf.func inf.tensors) (hlower : lower.Below e) (he : e.Below r)
    (h : inf.propagate lower.keys e = .ok e') : e'.Below r := by
  induction hn : e.headroom inf.tensors.keys using Nat.strong_induction_on generalizing e with
  | _ n ih =>
      rw [propagate] at h
      obtain ⟨next, reported, hround, hlower', hbelow⟩ :=
        round_below hgrow hr hclosed hupper (List.Subset.refl _) hc hlower he
      rw [hround] at h
      cases reported with
      | false => exact Except.ok.inj h ▸ he
      | true =>
          dsimp only at h
          split at h
          · next hless =>
              exact ih _ (hn ▸ hless) (round_step hc hround).1 hlower' hbelow h rfl
          · cases h

/-! ### Another order -/

theorem below_of_propagate (hc : e.Checked inf.func inf.tensors)
    (h : inf.propagate decided e = .ok e') : e.Below e' :=
  (propagate_invariant (P := fun now => now.Checked inf.func inf.tensors ∧ e.Below now)
    (fun _ _ _ _ _ ⟨hnow, hbelow⟩ hs =>
      ⟨(observeIndex_step hnow hs).1, hbelow.trans (below_of_observeIndex hnow hs)⟩)
    ⟨hc, .refl e⟩ h).2

theorem quiet_of_round {body : List (Stmt α)} (h : inf.round decided body e = .ok (e', false)) :
    ∀ s ∈ body, inf.observeIndex decided e s = .ok (e, false) := by
  induction body generalizing e with
  | nil => exact fun s hs => absurd hs List.not_mem_nil
  | cons s rest ih =>
      obtain ⟨next, first, later, hs, hrest, hreported⟩ := round_cons h
      obtain ⟨rfl, rfl⟩ : first = false ∧ later = false := by
        simpa using hreported.symm
      obtain rfl : next = e := by
        rcases observeIndex_cases hs with ⟨rfl, _⟩ |
          ⟨_, _, _, _, _, _, _, _, _, _, _, _, _, _, hreported⟩
        · rfl
        · cases hreported
      intro s' hs'
      rcases List.mem_cons.1 hs' with rfl | hs'
      · exact hs
      · exact ih hrest s' hs'

theorem quiet_of_propagate (h : inf.propagate decided e = .ok e') :
    ∀ s ∈ inf.func.body, inf.observeIndex decided e' s = .ok (e', false) := by
  induction hn : e.headroom inf.tensors.keys using Nat.strong_induction_on generalizing e with
  | _ n ih =>
      rw [propagate] at h
      split at h
      · cases h
      · next hround => exact Except.ok.inj h ▸ quiet_of_round hround
      · split at h
        · next hless => exact ih _ (hn ▸ hless) h rfl
        · cases h

omit [Scalar α] in
theorem sumMask_congr (h : ∀ var, e.get? var = e'.get? var) (var : VarName) (free : List IndexVar)
    (mask : Option PatternRef) (terms : List (Term α)) :
    inf.sumMask e var free mask terms = inf.sumMask e' var free mask terms := by
  have hpattern : ∀ var, inf.patternOf? e var = inf.patternOf? e' var := by
    intro var
    unfold patternOf?
    split
    · rfl
    · exact h var
  have hterm : ∀ t : Term α, inf.termMask? e free t = inf.termMask? e' free t := by
    intro t
    unfold termMask?
    simp only [hpattern]
  induction terms generalizing mask with
  | nil => rfl
  | cons t rest ih =>
      rw [sumMask, sumMask, hterm]
      simp only [ih]

theorem quiet_congr (hsame : ∀ var, e.get? var = e'.get? var)
    (h : inf.observeIndex decided e s = .ok (e, false)) :
    inf.observeIndex decided e' s = .ok (e', false) := by
  rcases inf.observeIndex_idle_or decided s with hidle |
    ⟨var, free, body, type, terms, rfl, _, _, _, hadd⟩
  · exact hidle e'
  · obtain ⟨mask, hmask, h⟩ := Except.bind_eq_ok ((hadd e).symm.trans h)
    rw [hadd e', ← sumMask_congr hsame, hmask]
    cases mask with
    | none => rfl
    | some p =>
        by_cases hheld : e.get? var = some p
        · exact if_pos ((hsame var).symm.trans hheld)
        · dsimp only at h
          rw [if_neg hheld] at h
          obtain ⟨_, _, h⟩ := Except.bind_eq_ok h
          obtain ⟨_, _, h⟩ := Except.bind_eq_ok h
          cases (Prod.mk.inj (Except.ok.inj h)).2

theorem observeIndex_congr {inf' : Inference α} {decided' : List VarName}
    (hseed : inf'.seed = inf.seed) (htensors : inf'.tensors = inf.tensors)
    (hcheck : ∀ var p type, inf'.func.checkInduces var p type = inf.func.checkInduces var p type)
    (hdecided : ∀ var, decided'.contains var = decided.contains var) (e : Evidence) (s : Stmt α) :
    inf'.observeIndex decided' e s = inf.observeIndex decided e s := by
  have hsum : ∀ var free mask terms,
      inf'.sumMask e var free mask terms = inf.sumMask e var free mask terms := by
    intro var free mask terms
    induction terms generalizing mask with
    | nil => rfl
    | cons t rest ih =>
        have hterm : inf'.termMask? e free t = inf.termMask? e free t := by
          simp only [termMask?, patternOf?, hseed]
        rw [sumMask, sumMask, hterm]
        simp only [ih]
  unfold observeIndex
  simp only [hseed, htensors, hcheck, hdecided, hsum]

theorem round_congr {inf' : Inference α} {decided' : List VarName}
    (h : ∀ e s, inf'.observeIndex decided' e s = inf.observeIndex decided e s)
    (body : List (Stmt α)) (e : Evidence) :
    inf'.round decided' body e = inf.round decided body e := by
  induction body generalizing e with
  | nil => rfl
  | cons s rest ih =>
      rw [round, round, h]
      simp only [ih]

/-- **Propagation in another order** ends as well, knowing the same: on the way it stays below the
    outcome of the first, and where it ends no statement changes anything. -/
theorem propagate_of_perm {inf' : Inference α} {decided' : List VarName}
    (hobserve : ∀ e s, inf'.observeIndex decided' e s = inf.observeIndex lower.keys e s)
    (htensors : inf'.tensors = inf.tensors) (hperm : inf.func.body.Perm inf'.func.body)
    (hgrow : inf.MasksGrow lower upper) (hchecked : lower.Checked inf.func inf.tensors)
    (hupper : inf.propagate lower.keys lower = .ok upper) (hc : e.Checked inf.func inf.tensors)
    (hlower : lower.Below e) (he : e.Below upper) :
    ∃ e', inf'.propagate decided' e = .ok e' ∧ ∀ var, e'.get? var = upper.get? var := by
  have hquiet := quiet_of_propagate hupper
  have hcupper := checked_propagate hchecked hupper
  have hclosed : inf.Closed lower.keys upper := fun s hs => ⟨false, hquiet s hs⟩
  have hend : ∀ {e : Evidence}, e.Checked inf.func inf.tensors → lower.Below e → e.Below upper →
      inf.Closed lower.keys e → ∀ var, e.get? var = upper.get? var := by
    intro e hc hlower he hclosed
    exact he.antisymm (propagate_least hgrow hc hclosed he hchecked (.refl lower) hlower hupper)
  induction hn : e.headroom inf.tensors.keys using Nat.strong_induction_on generalizing e with
  | _ n ih =>
      obtain ⟨next, reported, hround, hlower', hbelow⟩ := round_below hgrow hcupper hclosed
        (.refl upper) (fun s hs => hperm.mem_iff.2 hs) hc hlower he
      rw [propagate, round_congr hobserve, hround, htensors]
      cases reported with
      | false =>
          refine ⟨e, rfl, hend hc hlower he fun s hs => ⟨false, ?_⟩⟩
          exact quiet_of_round hround s (hperm.mem_iff.1 hs)
      | true =>
          obtain ⟨hchecked', hless | ⟨rfl, hunchanged, hreported⟩⟩ := round_step hc hround
          · obtain ⟨e', he', hsame⟩ := ih _ (hn ▸ hless) hchecked' hlower' hbelow rfl
            exact ⟨e', (if_pos hless).trans he', hsame⟩
          · -- a round that reports something leaves no evidence as it is that upper evidence equals
            have hsame := hend hc hlower he fun s hs => hunchanged s (hperm.mem_iff.1 hs)
            obtain ⟨s, hs, htrue⟩ := hreported rfl
            have hfalse := quiet_congr (fun var => (hsame var).symm)
              (hquiet s (hperm.mem_iff.2 hs))
            cases (Prod.mk.inj (Except.ok.inj (htrue.symm.trans hfalse))).2

end Inference

/-! ## Descriptors -/

variable {α : Type} [Scalar α] {f : Func α} {seed storages : Storages}

/-- The masks of a function's assignments grow between the evidence of its assemblies and the
    evidence that inference ends in. -/
def Func.MasksGrow (f : Func α) (seed : Storages) : Prop :=
  ∀ assembled evidence, seed.entries.forM (f.inference seed).checkSeed = .ok () →
    (f.inference seed).assemblyEvidence = .ok assembled →
    (f.inference seed).propagate assembled.keys assembled = .ok evidence →
      (f.inference seed).MasksGrow assembled evidence

/-- Descriptors that are inferred in one order are inferred in every other. -/
theorem Func.inferStorage_of_perm {body' : List (Stmt α)} (hperm : f.body.Perm body')
    (hgrow : f.MasksGrow seed) (h : f.inferStorageWith seed = .ok storages) :
    Func.inferStorageWith { f with body := body' } seed = .ok storages := by
  obtain ⟨assembled, evidence, hseed, hassembled, hevidence, rfl⟩ := inferStorageWith_eq_ok_iff.1 h
  let inf := f.inference seed
  let inf' := Func.inference { f with body := body' } seed
  obtain ⟨assembled', hassembled', hsame⟩ := inf.assembled_of_perm hperm hassembled
  have hkeys : ∀ var, assembled'.keys.contains var = assembled.keys.contains var := by
    intro var
    rw [Bool.eq_iff_iff, List.contains_iff_mem, List.contains_iff_mem, ← not_iff_not]
    have hnone : assembled'.get? var = none ↔ assembled.get? var = none := by rw [hsame var]
    exact (Table.find?_eq_none_iff.symm.trans hnone).trans Table.find?_eq_none_iff
  have hobserve : ∀ e s, inf'.observeIndex assembled'.keys e s =
      inf.observeIndex assembled.keys e s :=
    Inference.observeIndex_congr rfl rfl (fun _ _ _ => rfl) hkeys
  have hchecked := Inference.checked_assemblyEvidence hassembled
  have hchecked' : assembled'.Checked inf.func inf.tensors :=
    fun var p hp => hchecked var p ((hsame var).symm.trans hp)
  obtain ⟨evidence', hevidence', hfinal⟩ := Inference.propagate_of_perm hobserve rfl hperm
    (hgrow assembled evidence hseed hassembled hevidence) hchecked hevidence hchecked'
    (Evidence.below_of_same fun var => (hsame var).symm)
    ((Evidence.below_of_same hsame).trans (Inference.below_of_propagate hchecked hevidence))
  have hdescriptor : ∀ var type, inf'.storageOf evidence' var type =
      inf.storageOf evidence var type := by
    intro var type
    unfold Inference.storageOf
    rw [hfinal var]
    rfl
  refine inferStorageWith_eq_ok_iff.2 ⟨assembled', evidence', hseed, hassembled', hevidence', ?_⟩
  have hentries : inf'.tensors.entries.map (fun e => (e.1, inf'.storageOf evidence' e.1 e.2)) =
      inf.tensors.entries.map fun e => (e.1, inf.storageOf evidence e.1 e.2) :=
    List.map_congr_left fun e _ => by rw [hdescriptor]
  exact (congrArg Table.mk hentries).symm

/-! ### Terms with one mask -/

/-- The operands of a term with just the free indices, whose patterns could mask it. -/
def Term.maskers (t : Term α) (free : List IndexVar) : List (Nat × IndexedTensor) :=
  t.tensors.filter fun o => o.2.names = free.map IndexVar.name

/-- A statement assigns no sum in which a term has two operands that could mask it. -/
def Stmt.singlyMasked : Stmt α → Bool
  | .assign _ (.index free body) =>
    match body.terms with
    | .ok terms => terms.all fun t => (t.maskers free).length ≤ 1
    | .error _ => true
  | _ => true

/-- No term of an assignment has two operands that could mask it. -/
def Func.SingleMasks (f : Func α) : Prop :=
  ∀ s ∈ f.body, s.singlyMasked = true

namespace Inference

variable {inf : Inference α} {e e' : Evidence} {free : List IndexVar} {t : Term α}

omit [Scalar α] in
theorem termMask?_eq (h : (t.maskers free).length ≤ 1) (e : Evidence) :
    inf.termMask? e free t =
      (t.maskers free).head?.bind fun o => inf.patternOf? e o.2.tensor := by
  have hmasks : (t.tensors.filterMap fun o =>
      if o.2.names = free.map IndexVar.name then inf.patternOf? e o.2.tensor else none) =
      (t.maskers free).filterMap fun o => inf.patternOf? e o.2.tensor := by
    rw [Term.maskers, List.filterMap_filter]
    simp
  unfold termMask?
  dsimp only
  rw [hmasks]
  generalize t.maskers free = os at h
  cases os with
  | nil => rfl
  | cons o rest =>
      obtain rfl : rest = [] := List.eq_nil_of_length_eq_zero (by simpa using h)
      cases hp : inf.patternOf? e o.2.tensor with
      | none => simp [hp]
      | some p => cases hd : p.isDiagonal <;> simp [hp, hd]

omit [Scalar α] in
/-- With one mask for each term, the mask of the sum grows with the patterns that are known. -/
theorem sumMask_grows {var : VarName} {terms : List (Term α)}
    (hsingle : ∀ t ∈ terms, (t.maskers free).length ≤ 1)
    (hknown : ∀ var p, inf.patternOf? e var = some p →
      ∃ q, inf.patternOf? e' var = some q ∧ p.Within q ∧ q.Proper)
    {mask mask' out' : Option PatternRef} (hnone : mask = none → mask' = none)
    (hmask : ∀ p, mask = some p → ∃ q, mask' = some q ∧ p.Within q ∧ q.Proper)
    (h : inf.sumMask e' var free mask' terms = .ok out') :
    ∃ out, inf.sumMask e var free mask terms = .ok out ∧
      ∀ p, out = some p → ∃ q, out' = some q ∧ p.Within q := by
  induction terms generalizing mask mask' with
  | nil =>
      obtain rfl := Except.ok.inj h
      refine ⟨mask, rfl, fun p hp => ?_⟩
      obtain ⟨q, hq, hwithin, _⟩ := hmask p hp
      exact ⟨q, hq, hwithin⟩
  | cons t rest ih =>
      have ht := hsingle t (List.mem_cons_self ..)
      have hrest : ∀ t ∈ rest, (t.maskers free).length ≤ 1 :=
        fun t ht => hsingle t (List.mem_cons_of_mem _ ht)
      rw [sumMask]
      cases hp : inf.termMask? e free t with
      | none => exact ⟨none, rfl, fun p hp => nomatch hp⟩
      | some p =>
          obtain ⟨o, ho, hpattern⟩ := Option.bind_eq_some_iff.1 ((termMask?_eq ht e).symm.trans hp)
          obtain ⟨q, hq, hwithin, hproper⟩ := hknown _ p hpattern
          have hq : inf.termMask? e' free t = some q := by
            rw [termMask?_eq ht, ho]
            exact hq
          rw [sumMask, hq] at h
          cases hm : mask with
          | none =>
              rw [hnone hm] at h
              refine @ih hrest (some p) (some q) (fun h => nomatch h) (fun p' hp' => ?_) h
              exact ⟨q, rfl, Option.some.inj hp' ▸ hwithin, hproper⟩
          | some held =>
              obtain ⟨held', rfl, hheld, hproper'⟩ := hmask held hm
              dsimp only at h
              obtain ⟨merged', hmerged', h⟩ := Except.bind_eq_ok h
              obtain ⟨hleft, hright, hmerged⟩ := within_of_mergePatterns hproper' hproper hmerged'
              obtain ⟨merged, hmerge, hbelow⟩ :=
                mergePatterns_within (hheld.trans hleft) (hwithin.trans hright) var
              obtain ⟨out, hout, hgrows⟩ := @ih hrest (some merged) (some merged')
                (fun h => nomatch h)
                (fun p' hp' => ⟨merged', rfl, Option.some.inj hp' ▸ hbelow, hmerged⟩) h
              refine ⟨out, ?_, hgrows⟩
              dsimp only
              rw [hmerge]
              exact hout

end Inference

/-- Masks grow where no term has two of them. -/
theorem Func.SingleMasks.masksGrow (h : f.SingleMasks) (seed : Storages) : f.MasksGrow seed := by
  intro assembled evidence hseed hassembled hevidence var free body terms hs _ hterms e e' mask' _
    he he' hmask'
  have hchecked := Inference.checked_propagate (Inference.checked_assemblyEvidence hassembled)
    hevidence
  have hsingle : ∀ t ∈ terms, (t.maskers free).length ≤ 1 := by
    have hall := h _ hs
    simp only [Stmt.singlyMasked, hterms, List.all_eq_true, decide_eq_true_eq] at hall
    exact hall
  refine Inference.sumMask_grows hsingle ?_ (fun _ => rfl) (fun p hp => nomatch hp) hmask'
  intro var p hp
  unfold Inference.patternOf? at hp ⊢
  split at hp
  · next s hs =>
      refine ⟨p, hp, .refl p, ?_⟩
      obtain ⟨type, _, hsuits⟩ := Inference.suits_of_checkSeed
        (Except.forM_mem hseed (Table.find?_eq_some_mem hs))
      have hkind : s.kind = .sparse p := by
        unfold TensorStorage.pattern? at hp
        split at hp
        · next p' hkind =>
            rw [hkind, Option.some.inj hp]
        · cases hp
        · cases hp
      exact fun hd => Func.eq_diagonal_of_checkInduces (hsuits.pattern p hkind) hd
  · next hnone =>
      obtain ⟨q, hq, hpq⟩ := he var p hp
      obtain ⟨r, hr, hqr⟩ := he' var q hq
      obtain ⟨type, _, hcheck⟩ := hchecked var r hr
      exact ⟨q, hq, hpq, hqr.proper fun hd => Func.eq_diagonal_of_checkInduces hcheck hd⟩

/-! ### Two orders -/

/-- **Statement order does not matter** where masks only grow: in two orders of the same statements
    inference succeeds with the same descriptors or fails. -/
theorem Func.inferStorage_perm {body' : List (Stmt α)} (hperm : f.body.Perm body')
    (hgrow : f.MasksGrow seed) (hgrow' : Func.MasksGrow { f with body := body' } seed) :
    (∃ storages, f.inferStorageWith seed = .ok storages ∧
      Func.inferStorageWith { f with body := body' } seed = .ok storages) ∨
    ∃ cause cause', f.inferStorageWith seed = .error cause ∧
      Func.inferStorageWith { f with body := body' } seed = .error cause' := by
  cases h : f.inferStorageWith seed with
  | ok storages => exact Or.inl ⟨storages, rfl, inferStorage_of_perm hperm hgrow h⟩
  | error cause =>
      cases h' : Func.inferStorageWith { f with body := body' } seed with
      | error cause' => exact Or.inr ⟨cause, cause', rfl, rfl⟩
      | ok storages =>
          have hback := inferStorage_of_perm (f := { f with body := body' }) hperm.symm hgrow' h'
          cases h.symm.trans hback

/-- A function over vertices and two relations of them, whose last two statements assign index
    expressions. -/
def twoAssignments (first second : Stmt Float) : Func Float :=
  let square := TensorType.matrix "V" "V" .scalar
  let one : Expr Float := .literal (.float 1)
  let edges (tensor : VarName) (k : KernelVars) : List (Stmt Float) :=
    [.contribute tensor [k.endpointExpr 0, k.endpointExpr 1] one]
  (Func.named "f").withSet (.plain "V")
    |>.withSet (.relation "E" "V" 2)
    |>.withSet (.relation "F" "V" 2)
    |>.withLocal "a" square
    |>.withLocal "c" square
    |>.withLocal "d" square
    |>.withLocal "u" square
    |>.withLocal "b" square
    |>.withAssembly ["a"] "E" (edges "a")
    |>.withAssembly ["c"] "F" (edges "c")
    |>.withAssembly ["d"] "V" (fun k => [.contribute "d" [k.elementExpr, k.elementExpr] one])
    |>.withStmt first
    |>.withStmt second

/-- The assignment of an expression over two vertices. -/
def assignSquare (target : VarName) (body : (VarName → Expr Float) → Expr Float) : Stmt Float :=
  let indices : List IndexVar := [⟨"i", .set "V"⟩, ⟨"j", .set "V"⟩]
  .assign target (.index indices (body fun tensor => .indexed ⟨tensor, indices⟩))

/-- A chain of copies is stored over one pattern, in either order. -/
theorem copies_perm :
    let f := twoAssignments (assignSquare "b" fun entry => entry "u")
      (assignSquare "u" fun entry => entry "a")
    ∃ body' storages, f.body.Perm body' ∧ f.inferStorageWith Table.empty = .ok storages ∧
      Func.inferStorageWith { f with body := body' } Table.empty = .ok storages := by
  intro f
  have hsingle : f.SingleMasks := by
    unfold Func.SingleMasks
    decide +kernel
  have hperm : f.body.Perm f.body.reverse := (List.reverse_perm f.body).symm
  have hsingle' : Func.SingleMasks { f with body := f.body.reverse } :=
    fun s hs => hsingle s (hperm.mem_iff.2 hs)
  have hsucceeds : (f.inferStorageWith Table.empty).isOk = true := by decide +kernel
  rcases Func.inferStorage_perm hperm (hsingle.masksGrow _) (hsingle'.masksGrow _) with
    ⟨storages, h, h'⟩ | ⟨cause, cause', h, _⟩
  · exact ⟨f.body.reverse, storages, hperm, h, h'⟩
  · rw [h] at hsucceeds
    cases hsucceeds

/-- A sum is masked by two relations as long as it is not known that its terms share a diagonal:
    met too early it fails, and met later it is stored over the diagonal. -/
theorem lateDiagonal_conflicts :
    let sum := assignSquare "b" fun entry =>
      .binary .add (.binary .mul (entry "a") (entry "u")) (.binary .mul (entry "c") (entry "u"))
    let diagonal := assignSquare "u" fun entry => entry "d"
    let early := twoAssignments sum diagonal
    let late := twoAssignments diagonal sum
    late = { early with body := late.body } ∧ early.body.Perm late.body ∧
      early.inferStorageWith Table.empty =
        Outcome.fail (.conflictingTopology "b" (.square "E" "V") (.square "F" "V")) ∧
      ∃ storages, late.inferStorageWith Table.empty = .ok storages ∧
        storages.pattern? "b" = some (.diagonal "V") := by
  refine ⟨rfl, ?_, ?_, ?_⟩
  · show List.Perm (_ ++ [_] ++ [_]) (_ ++ [_] ++ [_])
    rw [List.append_assoc, List.append_assoc]
    exact List.Perm.append_left _ (List.Perm.swap ..)
  · decide +kernel
  · decide +kernel

end GraphTensor
