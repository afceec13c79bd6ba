import GraphTensor.Proofs.Outcome
import GraphTensor.Proofs.Table
import GraphTensor.Storage.Inference
import Mathlib.Tactic.Ring
set_option autoImplicit false

/-! # When the propagation of patterns settles

Evidence of index expressions is gathered in rounds. A round that changes the evidence moves a
variable on by a stage (`Evidence.stageOf`), from nothing to a diagonal or from a diagonal to the
pattern of a relation, and no variable has more than two stages. So propagation settles within two
rounds for each tensor, and one more, unless a round reports a change without making one.

That happens exactly where an assignment is masked by a diagonal alone and the pattern of a relation
is known for its destination (`Inference.MaskedBelow`): the diagonal differs from what is known, is
merged into it, and is reported again in every later round. `Inference.Stalled` is this situation,
and the main statement is that propagation goes on for ever just if some round ends in it.

The measure is `Evidence.headroom`, the number of stages that are still ahead. `Inference.after`
follows the rounds one by one, with their errors, so that going on for ever is a statement about all
of them, and `Inference.propagate_eq_divergence_iff` ties it to what propagation computes. -/

namespace GraphTensor

/-! ## Stages of evidence -/

theorem PatternRef.stage_pos (p : PatternRef) : 0 < p.stage := by
  unfold stage
  split <;> decide

theorem PatternRef.stage_le (p : PatternRef) : p.stage ≤ 2 := by
  unfold stage
  split <;> decide

namespace Evidence

/-- The stage that a variable has reached. -/
def stageOf (e : Evidence) (var : VarName) : Nat :=
  ((e.get? var).map PatternRef.stage).getD 0

theorem stageOf_le (e : Evidence) (var : VarName) : e.stageOf var ≤ 2 := by
  unfold stageOf
  cases e.get? var with
  | none => exact Nat.zero_le 2
  | some p => exact p.stage_le

theorem headroom_eq (e : Evidence) (vars : List VarName) :
    e.headroom vars = (vars.map fun var => 2 - e.stageOf var).sum :=
  rfl

theorem headroom_le (e : Evidence) (vars : List VarName) : e.headroom vars ≤ 2 * vars.length := by
  rw [headroom_eq]
  induction vars with
  | nil => simp
  | cons var rest ih =>
      simp only [List.map_cons, List.sum_cons, List.length_cons]
      omega

theorem stageOf_insert (e : Evidence) (var other : VarName) (p : PatternRef) :
    stageOf (e.insert var p) other = if var = other then p.stage else e.stageOf other := by
  unfold stageOf
  rw [Table.get?_insert]
  by_cases h : var = other <;> simp [h]

theorem headroom_le_headroom {e e' : Evidence} {vars : List VarName}
    (h : ∀ var ∈ vars, e.stageOf var ≤ e'.stageOf var) : e'.headroom vars ≤ e.headroom vars := by
  rw [headroom_eq, headroom_eq]
  induction vars with
  | nil => simp
  | cons var rest ih =>
      have hvar := h var (List.mem_cons_self ..)
      have hrest := ih fun v hv => h v (List.mem_cons_of_mem _ hv)
      simp only [List.map_cons, List.sum_cons]
      omega

theorem headroom_lt_headroom {e e' : Evidence} {vars : List VarName} {var : VarName}
    (h : ∀ var ∈ vars, e.stageOf var ≤ e'.stageOf var) (hvar : var ∈ vars)
    (hlt : e.stageOf var < e'.stageOf var) : e'.headroom vars < e.headroom vars := by
  rw [headroom_eq, headroom_eq]
  induction vars with
  | nil => simp at hvar
  | cons v rest ih =>
      have hv := h v (List.mem_cons_self ..)
      have hrest : ∀ w ∈ rest, e.stageOf w ≤ e'.stageOf w :=
        fun w hw => h w (List.mem_cons_of_mem _ hw)
      simp only [List.map_cons, List.sum_cons]
      rcases List.mem_cons.1 hvar with rfl | hmem
      · have hle := headroom_le_headroom hrest
        rw [headroom_eq, headroom_eq] at hle
        have := e'.stageOf_le var
        omega
      · have := ih hrest hmem
        omega

end Evidence

/-! ## One step -/

section

variable {α : Type}

/-- Every pattern in the evidence can lie on the dimensions of its variable. -/
def Evidence.Checked (e : Evidence) (f : Func α) (tensors : Table VarName TensorType) : Prop :=
  ∀ var p, e.get? var = some p →
    ∃ type, tensors.get? var = some type ∧ f.checkInduces var p type = .ok ()

/-- A diagonal that can lie on a tensor is that of its rows and columns. -/
theorem Func.eq_diagonal_of_checkInduces {f : Func α} {var : VarName} {p : PatternRef}
    {type : TensorType} (h : f.checkInduces var p type = .ok ()) (hd : p.isDiagonal = true) :
    p = .diagonal p.rows := by
  obtain ⟨source, rows, cols⟩ := p
  cases source with
  | relation set => simp [PatternRef.isDiagonal] at hd
  | diagonal set =>
      simp only [checkInduces] at h
      split at h
      · cases h
      · split at h
        · next hset =>
            obtain ⟨rfl, rfl⟩ := hset
            rfl
        · cases h

theorem Func.dims_of_checkInduces {f : Func α} {var : VarName} {p : PatternRef}
    {type : TensorType} (h : f.checkInduces var p type = .ok ()) :
    type.dims = [.set p.rows, .set p.cols] := by
  unfold checkInduces at h
  split at h
  · cases h
  · next hdims => exact not_not.1 hdims

/-- The pattern of a relation that can lie on a tensor is one of those that the relation's endpoints
    induce, and the relation is declared. -/
theorem Func.relation_of_checkInduces {f : Func α} {var : VarName} {p : PatternRef}
    {type : TensorType} {relation : SetName} (h : f.checkInduces var p type = .ok ())
    (hsource : p.source = .relation relation) :
    ∃ decl ep, f.set? relation = some decl ∧ decl.endpoints = some ep ∧
      (p = .square relation ep.set ∨ p = .incidence relation ep.set ∨
        p = .coincidence relation ep.set) := by
  unfold checkInduces at h
  rw [hsource] at h
  split at h
  · cases h
  · split at h
    · next heq => cases heq
    · next found heq =>
        obtain rfl := PatternSource.relation.inj heq
        split at h
        · cases h
        · next decl hdecl =>
            split at h
            · cases h
            · next ep hep =>
                split at h
                · next hone => exact ⟨decl, ep, hdecl, hep, hone⟩
                · cases h

/-- Merging two patterns that can lie on one tensor gives the first, or moves on from it to the next
    stage. -/
theorem mergePatterns_stage {f : Func α} {var : VarName} {type : TensorType}
    {a b merged : PatternRef} (ha : f.checkInduces var a type = .ok ())
    (hb : f.checkInduces var b type = .ok ()) (h : mergePatterns var a b = .ok merged) :
    merged = a ∧ (a = b ∨ (b.isDiagonal = true ∧ a.isDiagonal = false)) ∨
      merged = b ∧ a.stage < b.stage := by
  have hrows : IndexDomain.set a.rows = IndexDomain.set b.rows := by
    have := (f.dims_of_checkInduces ha).symm.trans (f.dims_of_checkInduces hb)
    exact (List.cons.inj this).1
  -- two diagonals over one set are the same
  have hsame : a.isDiagonal = true → b.isDiagonal = true → a = b := by
    intro hda hdb
    rw [f.eq_diagonal_of_checkInduces ha hda, f.eq_diagonal_of_checkInduces hb hdb,
      IndexDomain.set.inj hrows]
  unfold mergePatterns at h
  split at h
  · next hab =>
      injection h with h
      subst h
      by_cases heq : a = b
      · exact Or.inl ⟨heq.symm, Or.inl heq⟩
      · right
        have hda : a.isDiagonal = true := by
          simp only [PatternRef.subsetOf, Bool.or_eq_true, beq_iff_eq, heq, false_or,
            Bool.and_eq_true] at hab
          exact hab.1.1.1
        have hdb : b.isDiagonal = false := by
          by_contra hdb
          exact heq (hsame hda (by simpa using hdb))
        exact ⟨rfl, by simp [PatternRef.stage, hda, hdb]⟩
  · split at h
    · next hab hba =>
        injection h with h
        subst h
        have hne : ¬ b = a := by
          rintro rfl
          exact hab b.subsetOf_refl
        have hdb : b.isDiagonal = true := by
          simp only [PatternRef.subsetOf, Bool.or_eq_true, beq_iff_eq, hne, false_or,
            Bool.and_eq_true] at hba
          exact hba.1.1.1
        have hda : a.isDiagonal = false := by
          by_contra hda
          exact hne (hsame (by simpa using hda) hdb).symm
        exact Or.inl ⟨rfl, Or.inr ⟨hdb, hda⟩⟩
    · cases h

theorem Evidence.merge_cases {e e' : Evidence} {var : VarName} {p : PatternRef}
    (h : e.merge var p = .ok e') :
    (e.get? var = none ∧ e' = e.insert var p) ∨
      ∃ held merged, e.get? var = some held ∧ mergePatterns var held p = .ok merged ∧
        e' = e.insert var merged := by
  unfold merge at h
  split at h
  · next hnone =>
      cases h
      exact Or.inl ⟨hnone, rfl⟩
  · next held hheld =>
      cases hm : mergePatterns var held p with
      | error cause => simp [hm, bind, Except.bind] at h
      | ok merged =>
          simp only [hm, bind, Except.bind, pure, Except.pure, Except.ok.injEq] at h
          exact Or.inr ⟨held, merged, hheld, hm, h.symm⟩

theorem Evidence.checked_insert {e : Evidence} {f : Func α} {tensors : Table VarName TensorType}
    {var : VarName} {p : PatternRef} {type : TensorType} (hc : e.Checked f tensors)
    (htype : tensors.get? var = some type) (hp : f.checkInduces var p type = .ok ()) :
    Checked (e.insert var p) f tensors := by
  intro other q hq
  rw [Table.get?_insert] at hq
  by_cases h : var = other
  · subst h
    simp only [beq_self_eq_true, if_true, Option.some.injEq] at hq
    subst hq
    exact ⟨type, htype, hp⟩
  · have hne : (var == other) = false := by simpa using h
    simp only [hne, Bool.false_eq_true, if_false] at hq
    exact hc other q hq

theorem Evidence.headroom_insert_lt {e : Evidence} {vars : List VarName} {var : VarName}
    {p : PatternRef} (hvar : var ∈ vars) (hlt : e.stageOf var < p.stage) :
    headroom (e.insert var p) vars < e.headroom vars := by
  refine headroom_lt_headroom (fun other _ => ?_) hvar ?_
  · rw [stageOf_insert]
    by_cases h : var = other
    · subst h
      simpa using hlt.le
    · simp [h]
  · rw [stageOf_insert]
    simpa using hlt

theorem Evidence.checked_merge {f : Func α} {tensors : Table VarName TensorType} {e e' : Evidence}
    {var : VarName} {p : PatternRef} {type : TensorType} (hc : e.Checked f tensors)
    (htype : tensors.get? var = some type) (hp : f.checkInduces var p type = .ok ())
    (h : e.merge var p = .ok e') : e'.Checked f tensors := by
  rcases merge_cases h with ⟨_, rfl⟩ | ⟨held, merged, hheld, hmerge, rfl⟩
  · exact checked_insert hc htype hp
  · obtain ⟨type', htype', hcheck⟩ := hc var held hheld
    obtain rfl : type' = type := Option.some.inj (htype'.symm.trans htype)
    rcases mergePatterns_stage hcheck hp hmerge with ⟨rfl, _⟩ | ⟨rfl, _⟩
    · exact checked_insert hc htype hcheck
    · exact checked_insert hc htype hp

/-- Merging a pattern that is not yet what is known either leaves fewer stages ahead, or changes
    nothing because a diagonal comes after the pattern of a relation. -/
theorem Evidence.merge_step {f : Func α} {tensors : Table VarName TensorType} {e e' : Evidence}
    {var : VarName} {p : PatternRef} {type : TensorType} (hc : e.Checked f tensors)
    (htype : tensors.get? var = some type) (hp : f.checkInduces var p type = .ok ())
    (hne : e.get? var ≠ some p) (h : e.merge var p = .ok e') :
    e'.headroom tensors.keys < e.headroom tensors.keys ∨
      (e' = e ∧ p.isDiagonal = true ∧
        ∃ held, e.get? var = some held ∧ held.isDiagonal = false) := by
  have hmem := Table.mem_keys_of_get? htype
  rcases merge_cases h with ⟨hnone, rfl⟩ | ⟨held, merged, hheld, hmerge, rfl⟩
  · refine Or.inl (headroom_insert_lt hmem ?_)
    have hzero : e.stageOf var = 0 := by simp [stageOf, hnone]
    rw [hzero]
    exact p.stage_pos
  · obtain ⟨type', htype', hcheck⟩ := hc var held hheld
    obtain rfl : type' = type := Option.some.inj (htype'.symm.trans htype)
    have hstage : e.stageOf var = held.stage := by simp [stageOf, hheld]
    rcases mergePatterns_stage hcheck hp hmerge with ⟨rfl, hpq⟩ | ⟨rfl, hlt⟩
    · refine Or.inr ⟨Table.insert_eq_self hheld, ?_⟩
      rcases hpq with rfl | ⟨hdp, hdh⟩
      · exact absurd hheld hne
      · exact ⟨hdp, merged, hheld, hdh⟩
    · refine Or.inl (headroom_insert_lt hmem ?_)
      rw [hstage]
      exact hlt

/-! ## Evidence of assemblies -/

namespace Inference

theorem checked_observeWrite {inf : Inference α} {decl : SetDecl} {kernel : KernelVars}
    {e e' : Evidence} {write : VarName × List (Expr α)} (hc : e.Checked inf.func inf.tensors)
    (h : inf.observeWrite decl kernel e write = .ok e') : e'.Checked inf.func inf.tensors := by
  obtain ⟨var, indices⟩ := write
  simp only [observeWrite] at h
  split at h
  · cases h
    exact hc
  · split at h
    · next type pattern htype _ =>
        cases hcheck : inf.func.checkInduces var pattern type with
        | error cause => simp [hcheck, bind, Except.bind] at h
        | ok _ =>
            simp only [hcheck, bind, Except.bind] at h
            exact Evidence.checked_merge hc htype hcheck h
    · cases h
      exact hc

theorem checked_assemblyEvidence {inf : Inference α} {e : Evidence}
    (h : inf.assemblyEvidence = .ok e) : e.Checked inf.func inf.tensors := by
  have hstart : Evidence.Checked Table.empty inf.func inf.tensors := by
    intro var p hp
    cases hp
  have hstep : ∀ (e : Evidence) (s : Stmt α) (e' : Evidence), e.Checked inf.func inf.tensors →
      inf.observeAssembly e s = .ok e' → e'.Checked inf.func inf.tensors := by
    intro e s e' hc hs
    unfold observeAssembly at hs
    split at hs
    · split at hs
      · cases hs
      · exact Except.foldlM_invariant (fun _ _ _ => checked_observeWrite) hc hs
    · cases hs
      exact hc
  exact Except.foldlM_invariant hstep hstart h

end Inference

end

/-! ## One round -/

namespace Inference

variable {α : Type} [Scalar α]

/-- Evidence of an assignment counts: neither the seed nor an assembly has decided about the
    variable, and there are two free indices. -/
def Gathers (inf : Inference α) (decided : List VarName) (var : VarName) (free : List IndexVar) :
    Prop :=
  inf.seed.contains var = false ∧ decided.contains var = false ∧ free.length = 2

theorem observeIndex_of_gathers {inf : Inference α} {decided : List VarName} {var : VarName}
    {free : List IndexVar} {body : Expr α} {type : TensorType} {terms : List (Term α)}
    (hgathers : inf.Gathers decided var free) (htype : inf.tensors.get? var = some type)
    (hterms : body.terms = .ok terms) (e : Evidence) :
    inf.observeIndex decided e (.assign var (.index free body)) =
      inf.sumMask e var free none terms >>= fun mask =>
        match mask with
        | none => .ok (e, false)
        | some mask =>
          if e.get? var = some mask then .ok (e, false)
          else inf.func.checkInduces var mask type >>= fun _ =>
            e.merge var mask >>= fun e' => .ok (e', true) := by
  obtain ⟨hseed, hdecided, hlength⟩ := hgathers
  have hopen : ¬(inf.seed.contains var || decided.contains var || free.length ≠ 2) = true := by
    rw [hseed, hdecided, hlength]
    decide
  rw [observeIndex, if_neg hopen, htype, hterms]
  rfl

/-- What one statement adds to the evidence: nothing, or a pattern for the tensor that it assigns. -/
theorem observeIndex_cases {inf : Inference α} {decided : List VarName} {e e' : Evidence}
    {s : Stmt α} {reported : Bool} (h : inf.observeIndex decided e s = .ok (e', reported)) :
    (e' = e ∧ reported = false) ∨
      ∃ var free body type terms mask, s = .assign var (.index free body) ∧
        inf.Gathers decided var free ∧ inf.tensors.get? var = some type ∧
        body.terms = .ok terms ∧
        inf.sumMask e var free none terms = .ok (some mask) ∧ e.get? var ≠ some mask ∧
        inf.func.checkInduces var mask type = .ok () ∧ e.merge var mask = .ok e' ∧
        reported = true := by
  unfold observeIndex at h
  split at h
  · next var free body =>
      split at h
      · cases h; exact Or.inl ⟨rfl, rfl⟩
      · next hopen =>
        have hgathers : inf.Gathers decided var free := by
          simpa [Gathers, and_assoc] using hopen
        split at h
        · next type terms htype hterms =>
            cases hmask : inf.sumMask e var free none terms with
            | error cause => simp [hmask, bind, Except.bind] at h
            | ok found =>
                cases found with
                | none =>
                    simp only [hmask, bind, Except.bind, pure, Except.pure] at h
                    cases h; exact Or.inl ⟨rfl, rfl⟩
                | some mask =>
                    simp only [hmask, bind, Except.bind, pure, Except.pure] at h
                    split at h
                    · cases h; exact Or.inl ⟨rfl, rfl⟩
                    · next hne =>
                        cases hcheck : inf.func.checkInduces var mask type with
                        | error cause => simp [hcheck] at h
                        | ok _ =>
                            cases hmerge : e.merge var mask with
                            | error cause => simp [hcheck, hmerge] at h
                            | ok merged =>
                                simp only [hcheck, hmerge] at h
                                cases h
                                exact Or.inr ⟨var, free, body, type, terms, mask, rfl, hgathers,
                                  htype, hterms, hmask, hne, hcheck, hmerge, rfl⟩
        · cases h; exact Or.inl ⟨rfl, rfl⟩
  · cases h; exact Or.inl ⟨rfl, rfl⟩

/-- A statement assigns an index expression whose mask is a diagonal, while the pattern of a relation
    is known for its destination. -/
def MaskedBelow (inf : Inference α) (decided : List VarName) (e : Evidence) (s : Stmt α) : Prop :=
  ∃ var free body terms mask held, s = .assign var (.index free body) ∧
    inf.Gathers decided var free ∧ body.terms = .ok terms ∧
    inf.sumMask e var free none terms = .ok (some mask) ∧ mask.isDiagonal = true ∧
    e.get? var = some held ∧ held.isDiagonal = false

/-- A statement that reports a change leaves fewer stages ahead, or is an assignment that is masked
    by a diagonal although the pattern of a relation is known for its destination. -/
theorem observeIndex_step {inf : Inference α} {decided : List VarName} {e e' : Evidence}
    {s : Stmt α} {reported : Bool} (hc : e.Checked inf.func inf.tensors)
    (h : inf.observeIndex decided e s = .ok (e', reported)) :
    e'.Checked inf.func inf.tensors ∧
      (e'.headroom inf.tensors.keys < e.headroom inf.tensors.keys ∨
        (e' = e ∧ (reported = true → inf.MaskedBelow decided e s))) := by
  rcases observeIndex_cases h with
    ⟨rfl, rfl⟩ | ⟨var, free, body, type, terms, mask, rfl, hgathers, htype, hterms, hmask, hne,
      hcheck, hmerge, rfl⟩
  · exact ⟨hc, Or.inr ⟨rfl, by simp⟩⟩
  · have hc' := Evidence.checked_merge hc htype hcheck hmerge
    obtain hlt | ⟨rfl, hdiag, held, hheld, hrel⟩ := Evidence.merge_step hc htype hcheck hne hmerge
    · exact ⟨hc', Or.inl hlt⟩
    · exact ⟨hc', Or.inr ⟨rfl, fun _ =>
        ⟨var, free, body, terms, mask, held, rfl, hgathers, hterms, hmask, hdiag, hheld, hrel⟩⟩⟩

/-- A round over a list of statements is the first statement and then a round over the rest. -/
theorem round_cons {inf : Inference α} {decided : List VarName} {e e' : Evidence} {s : Stmt α}
    {rest : List (Stmt α)} {reported : Bool}
    (h : inf.round decided (s :: rest) e = .ok (e', reported)) :
    ∃ middle first later, inf.observeIndex decided e s = .ok (middle, first) ∧
      inf.round decided rest middle = .ok (e', later) ∧ reported = (first || later) := by
  simp only [round, bind, Except.bind, pure, Except.pure] at h
  split at h
  · cases h
  · next middle hfirst =>
      obtain ⟨middle, first⟩ := middle
      split at h
      · cases h
      · next last hlater =>
          obtain ⟨last, later⟩ := last
          cases h
          exact ⟨middle, first, later, hfirst, hlater, rfl⟩

/-- A round leaves fewer stages ahead, or no statement in it changes the evidence. -/
theorem round_step {inf : Inference α} {decided : List VarName} {body : List (Stmt α)}
    {e e' : Evidence} {reported : Bool} (hc : e.Checked inf.func inf.tensors)
    (h : inf.round decided body e = .ok (e', reported)) :
    e'.Checked inf.func inf.tensors ∧
      (e'.headroom inf.tensors.keys < e.headroom inf.tensors.keys ∨
        (e' = e ∧ (∀ s ∈ body, ∃ b, inf.observeIndex decided e s = .ok (e, b)) ∧
          (reported = true → ∃ s ∈ body, inf.observeIndex decided e s = .ok (e, true)))) := by
  induction body generalizing e reported with
  | nil =>
      cases h
      exact ⟨hc, Or.inr ⟨rfl, by simp, by simp⟩⟩
  | cons s rest ih =>
      obtain ⟨middle, first, later, hfirst, hlater, rfl⟩ := round_cons h
      obtain ⟨hcm, hm⟩ := observeIndex_step hc hfirst
      obtain ⟨hc', hr⟩ := ih hcm hlater
      refine ⟨hc', ?_⟩
      rcases hm with hm | ⟨rfl, _⟩
      · rcases hr with hr | ⟨rfl, _⟩
        · exact Or.inl (hr.trans hm)
        · exact Or.inl hm
      · rcases hr with hr | ⟨rfl, hrest, hreport⟩
        · exact Or.inl hr
        · refine Or.inr ⟨rfl, ?_, fun hreported => ?_⟩
          · intro t ht
            rcases List.mem_cons.1 ht with rfl | ht
            · exact ⟨first, hfirst⟩
            · exact hrest t ht
          · rcases Bool.or_eq_true_iff.1 hreported with rfl | rfl
            · exact ⟨s, List.mem_cons_self .., hfirst⟩
            · obtain ⟨t, ht, hobs⟩ := hreport rfl
              exact ⟨t, List.mem_cons_of_mem _ ht, hobs⟩

theorem round_invariant {inf : Inference α} {decided : List VarName} {body : List (Stmt α)}
    {e e' : Evidence} {reported : Bool} {P : Evidence → Prop}
    (hstep : ∀ s ∈ body, ∀ e e' reported, P e →
      inf.observeIndex decided e s = .ok (e', reported) → P e')
    (he : P e) (h : inf.round decided body e = .ok (e', reported)) : P e' := by
  induction body generalizing e reported with
  | nil => exact (Prod.mk.inj (Except.ok.inj h)).1 ▸ he
  | cons s rest ih =>
      obtain ⟨next, first, later, hs, hrest, _⟩ := round_cons h
      exact ih (fun t ht => hstep t (List.mem_cons_of_mem _ ht))
        (hstep s (List.mem_cons_self ..) e next first he hs) hrest

theorem propagate_invariant {inf : Inference α} {decided : List VarName} {e e' : Evidence}
    {P : Evidence → Prop}
    (hstep : ∀ s ∈ inf.func.body, ∀ e e' reported, P e →
      inf.observeIndex decided e s = .ok (e', reported) → P e')
    (he : P e) (h : inf.propagate decided e = .ok e') : P e' := by
  induction hn : e.headroom inf.tensors.keys using Nat.strong_induction_on generalizing e with
  | _ n ih =>
      rw [propagate] at h
      split at h
      · cases h
      · exact Except.ok.inj h ▸ he
      · next next hround =>
          split at h
          · next hless => exact ih _ (hn ▸ hless) (round_invariant hstep he hround) h rfl
          · cases h

theorem checked_propagate {inf : Inference α} {decided : List VarName} {e e' : Evidence}
    (hc : e.Checked inf.func inf.tensors) (h : inf.propagate decided e = .ok e') :
    e'.Checked inf.func inf.tensors :=
  propagate_invariant (P := fun e => e.Checked inf.func inf.tensors)
    (fun _ _ _ _ _ he hs => (observeIndex_step he hs).1) hc h

/-! ## All rounds -/

/-- What has come of propagation after a number of rounds: the evidence and whether another round is
    due, or the error of the last one. -/
def after (inf : Inference α) (decided : List VarName) (e : Evidence) :
    Nat → Except LowerError (Evidence × Bool)
  | 0 => .ok (e, true)
  | n + 1 =>
    match inf.after decided e n with
    | .ok (e, true) => inf.round decided inf.func.body e
    | settled => settled

/-- No further round is due: the last one has failed or had nothing to add. -/
def Settled : Except LowerError (Evidence × Bool) → Prop
  | .ok (_, due) => due = false
  | .error _ => True

/-- Rounds go on for ever from this evidence: no statement changes it any more, but one reports a
    diagonal below the pattern of a relation. -/
structure Stalled (inf : Inference α) (decided : List VarName) (e : Evidence) : Prop where
  /-- No statement changes the evidence. -/
  unchanged : ∀ s ∈ inf.func.body, ∃ reported, inf.observeIndex decided e s = .ok (e, reported)
  /-- A statement has a diagonal to report. -/
  masked : ∃ s ∈ inf.func.body, inf.MaskedBelow decided e s

theorem reported_of_maskedBelow {inf : Inference α} {decided : List VarName} {e : Evidence}
    {s : Stmt α} {reported : Bool} (hc : e.Checked inf.func inf.tensors)
    (hs : inf.MaskedBelow decided e s) (h : inf.observeIndex decided e s = .ok (e, reported)) :
    reported = true := by
  obtain ⟨var, free, body, terms, mask, held, rfl, ⟨hseed, hdecided, hfree⟩, hterms, hmask, hdiag,
    hheld, hrel⟩ := hs
  obtain ⟨type, htype, _⟩ := hc var held hheld
  have hne : e.get? var ≠ some mask := by
    rw [hheld]
    rintro ⟨rfl⟩
    rw [hdiag] at hrel
    cases hrel
  have hopen : var ∉ decided := by simpa using hdecided
  cases hcheck : inf.func.checkInduces var mask type with
  | error cause =>
      simp [observeIndex, hseed, hopen, hfree, htype, hterms, hmask, hne, hcheck, bind,
        Except.bind] at h
  | ok _ =>
      cases hmerge : e.merge var mask with
      | error cause =>
          simp [observeIndex, hseed, hopen, hfree, htype, hterms, hmask, hne, hcheck, hmerge,
            bind, Except.bind] at h
      | ok merged =>
          simp [observeIndex, hseed, hopen, hfree, htype, hterms, hmask, hne, hcheck, hmerge,
            bind, Except.bind, pure, Except.pure] at h
          exact h.2

/-- A round in which no statement changes the evidence reports what one of them reports. -/
theorem round_of_unchanged {inf : Inference α} {decided : List VarName} {body : List (Stmt α)}
    {e : Evidence} (h : ∀ s ∈ body, ∃ b, inf.observeIndex decided e s = .ok (e, b)) :
    ∃ reported, inf.round decided body e = .ok (e, reported) ∧
      ∀ s ∈ body, inf.observeIndex decided e s = .ok (e, true) → reported = true := by
  induction body with
  | nil => exact ⟨false, rfl, by simp⟩
  | cons s rest ih =>
      obtain ⟨first, hfirst⟩ := h s (List.mem_cons_self ..)
      obtain ⟨later, hlater, hreport⟩ := ih fun t ht => h t (List.mem_cons_of_mem _ ht)
      refine ⟨first || later, ?_, fun t ht hobs => ?_⟩
      · simp [round, hfirst, hlater, bind, Except.bind, pure, Except.pure]
      · rcases List.mem_cons.1 ht with rfl | ht
        · rw [hfirst] at hobs
          cases hobs
          exact Bool.true_or _
        · rw [hreport t ht hobs, Bool.or_true]

/-- A round from evidence that stalls ends where it began, with another round due. -/
theorem round_of_stalled {inf : Inference α} {decided : List VarName} {e : Evidence}
    (hc : e.Checked inf.func inf.tensors) (h : inf.Stalled decided e) :
    inf.round decided inf.func.body e = .ok (e, true) := by
  obtain ⟨reported, hround, hreport⟩ := round_of_unchanged h.unchanged
  obtain ⟨s, hs, hmasked⟩ := h.masked
  obtain ⟨b, hobs⟩ := h.unchanged s hs
  rw [hround, hreport s hs (reported_of_maskedBelow hc hmasked hobs ▸ hobs)]

/-- A round that is to be followed by another leaves fewer stages ahead, or stalls. -/
theorem round_lt_or_stalled {inf : Inference α} {decided : List VarName} {e e' : Evidence}
    (hc : e.Checked inf.func inf.tensors)
    (h : inf.round decided inf.func.body e = .ok (e', true)) :
    e'.headroom inf.tensors.keys < e.headroom inf.tensors.keys ∨
      (e' = e ∧ inf.Stalled decided e) := by
  obtain ⟨_, hlt | ⟨rfl, hunchanged, hreport⟩⟩ := round_step hc h
  · exact Or.inl hlt
  · obtain ⟨s, hs, hobs⟩ := hreport rfl
    obtain ⟨_, hlt | ⟨_, hmasked⟩⟩ := observeIndex_step hc hobs
    · exact absurd hlt (lt_irrefl _)
    · exact Or.inr ⟨rfl, hunchanged, s, hs, hmasked rfl⟩

theorem after_add {inf : Inference α} {decided : List VarName} {e e' : Evidence} {k : Nat}
    (h : inf.after decided e k = .ok (e', true)) (n : Nat) :
    inf.after decided e (k + n) = inf.after decided e' n := by
  induction n with
  | zero => exact h
  | succ n ih => rw [← Nat.add_assoc, after, ih]; rfl

theorem after_succ {inf : Inference α} {decided : List VarName} {e e' : Evidence}
    (h : inf.round decided inf.func.body e = .ok (e', true)) (n : Nat) :
    inf.after decided e (n + 1) = inf.after decided e' n := by
  rw [Nat.add_comm n 1]
  exact after_add (k := 1) h n

theorem after_eq_of_settled {inf : Inference α} {decided : List VarName} {e : Evidence} {n m : Nat}
    (h : Settled (inf.after decided e n)) (hnm : n ≤ m) :
    inf.after decided e m = inf.after decided e n := by
  induction m, hnm using Nat.le_induction with
  | base => rfl
  | succ m _ ih =>
      rw [after, ih]
      cases hn : inf.after decided e n with
      | error cause => rfl
      | ok found =>
          obtain ⟨e', due⟩ := found
          rw [hn] at h
          obtain rfl : due = false := h
          rfl

theorem after_of_stalled {inf : Inference α} {decided : List VarName} {e : Evidence}
    (hc : e.Checked inf.func inf.tensors) (h : inf.Stalled decided e) (n : Nat) :
    inf.after decided e n = .ok (e, true) := by
  induction n with
  | zero => rfl
  | succ n ih => rw [after_succ (round_of_stalled hc h), ih]

/-- **Two endings.** From checked evidence, propagation settles within one round more than there are
    stages ahead, or it stalls within that many rounds. -/
theorem settles_or_stalls {inf : Inference α} {e : Evidence}
    (hc : e.Checked inf.func inf.tensors) (decided : List VarName) :
    Settled (inf.after decided e (e.headroom inf.tensors.keys + 1)) ∨
      ∃ n e', inf.after decided e n = .ok (e', true) ∧ e'.Checked inf.func inf.tensors ∧
        inf.Stalled decided e' := by
  induction hk : e.headroom inf.tensors.keys using Nat.strong_induction_on generalizing e with
  | _ k ih =>
      cases hround : inf.round decided inf.func.body e with
      | error cause =>
          have hone : Settled (inf.after decided e 1) := by
            show Settled (inf.round decided inf.func.body e)
            rw [hround]
            trivial
          exact Or.inl (after_eq_of_settled hone (Nat.le_add_left 1 k) ▸ hone)
      | ok found =>
          obtain ⟨e', due⟩ := found
          cases due with
          | false =>
              have hone : Settled (inf.after decided e 1) := by
                show Settled (inf.round decided inf.func.body e)
                rw [hround]
                rfl
              exact Or.inl (after_eq_of_settled hone (Nat.le_add_left 1 k) ▸ hone)
          | true =>
              rcases round_lt_or_stalled hc hround with hlt | ⟨_, hstalled⟩
              · rcases ih _ (hk ▸ hlt) (round_step hc hround).1 rfl with hset | ⟨n, e'', hn, hc', hs⟩
                · left
                  rw [after_succ hround, after_eq_of_settled hset (by omega)]
                  exact hset
                · exact Or.inr ⟨n + 1, e'', by rw [after_succ hround, hn], hc', hs⟩
              · exact Or.inr ⟨0, e, rfl, hc, hstalled⟩

/-- Propagation as it is computed goes on for ever just if no number of rounds settles it. -/
theorem propagate_eq_divergence_iff {inf : Inference α} {decided : List VarName} {e : Evidence}
    (hc : e.Checked inf.func inf.tensors) :
    inf.propagate decided e = .error .divergence ↔
      ∀ n, ¬ Settled (inf.after decided e n) := by
  induction hk : e.headroom inf.tensors.keys using Nat.strong_induction_on generalizing e with
  | _ k ih =>
      rw [propagate]
      cases hround : inf.round decided inf.func.body e with
      | error cause =>
          refine ⟨fun h => by simp [Outcome.fail] at h, fun h => absurd ?_ (h 1)⟩
          show Settled (inf.round decided inf.func.body e)
          rw [hround]
          trivial
      | ok found =>
          obtain ⟨e', due⟩ := found
          cases due with
          | false =>
              refine ⟨fun h => by simp at h, fun h => absurd ?_ (h 1)⟩
              show Settled (inf.round decided inf.func.body e)
              rw [hround]
              rfl
          | true =>
              have hshift : (∀ n, ¬ Settled (inf.after decided e n)) ↔
                  ∀ n, ¬ Settled (inf.after decided e' n) := by
                refine ⟨fun h n => after_succ hround n ▸ h (n + 1), fun h n => ?_⟩
                cases n with
                | zero => exact fun h0 => Bool.noConfusion h0
                | succ n => exact after_succ hround n ▸ h n
              rcases round_lt_or_stalled hc hround with hlt | ⟨rfl, hstalled⟩
              · simp only [hlt, if_true]
                rw [hshift]
                exact ih _ (hk ▸ hlt) (round_step hc hround).1 rfl
              · simp only [lt_irrefl, if_false, true_iff]
                intro n
                rw [after_of_stalled hc hstalled]
                exact Bool.noConfusion

/-! ## Inference as a whole -/

/-- What has come of propagation, from the evidence of assemblies on, after a number of rounds. -/
def rounds (inf : Inference α) (n : Nat) : Except LowerError (Evidence × Bool) :=
  match inf.assemblyEvidence with
  | .ok assembled => inf.after assembled.keys assembled n
  | .error cause => .error cause

/-- The rounds come to evidence in which propagation stalls. -/
def Stalls (inf : Inference α) : Prop :=
  ∃ assembled n e, inf.assemblyEvidence = .ok assembled ∧
    inf.after assembled.keys assembled n = .ok (e, true) ∧ inf.Stalled assembled.keys e

theorem checked_after {inf : Inference α} {decided : List VarName} {e e' : Evidence} {n : Nat}
    {due : Bool} (hc : e.Checked inf.func inf.tensors)
    (h : inf.after decided e n = .ok (e', due)) : e'.Checked inf.func inf.tensors := by
  induction n generalizing e' due with
  | zero =>
      cases h
      exact hc
  | succ n ih =>
      rw [after] at h
      split at h
      · next middle hmiddle => exact (round_step (ih hmiddle) h).1
      · exact ih h

/-- The rounds settle in time unless they stall, and never settle if they do. -/
theorem rounds_settle {inf : Inference α} :
    (¬ inf.Stalls → Settled (inf.rounds (2 * inf.tensors.size + 1))) ∧
      (inf.Stalls → ∀ n, ¬ Settled (inf.rounds n)) := by
  constructor
  · intro hstalls
    unfold rounds
    cases hassembled : inf.assemblyEvidence with
    | error cause => trivial
    | ok assembled =>
        have hroom : assembled.headroom inf.tensors.keys ≤ 2 * inf.tensors.size := by
          simpa [Table.keys, Table.size] using assembled.headroom_le inf.tensors.keys
        have hends := settles_or_stalls (checked_assemblyEvidence hassembled) assembled.keys
        rcases hends with hset | ⟨n, e, hn, _, hstalled⟩
        · show Settled (inf.after assembled.keys assembled (2 * inf.tensors.size + 1))
          rw [after_eq_of_settled hset (by omega)]
          exact hset
        · exact absurd ⟨assembled, n, e, hassembled, hn, hstalled⟩ hstalls
  · rintro ⟨assembled, k, e, hassembled, hk, hstalled⟩ n hn
    have hc := checked_after (checked_assemblyEvidence hassembled) hk
    have hend : inf.after assembled.keys assembled (k + n) = .ok (e, true) := by
      rw [after_add hk, after_of_stalled hc hstalled]
    simp only [rounds, hassembled] at hn
    rw [← after_eq_of_settled hn (Nat.le_add_left n k), hend] at hn
    exact Bool.noConfusion hn

/-- Propagation from the evidence of assemblies, as it is computed, goes on for ever just if it
    stalls. -/
theorem propagate_assembled_iff {inf : Inference α} {assembled : Evidence}
    (h : inf.assemblyEvidence = .ok assembled) :
    inf.propagate assembled.keys assembled = .error .divergence ↔ inf.Stalls := by
  have hrounds : ∀ n, inf.rounds n = inf.after assembled.keys assembled n := by
    intro n
    simp only [rounds, h]
  rw [propagate_eq_divergence_iff (checked_assemblyEvidence h)]
  constructor
  · intro hnever
    by_contra hstalls
    exact hnever _ (hrounds _ ▸ rounds_settle.1 hstalls)
  · intro hstalls n
    exact hrounds n ▸ rounds_settle.2 hstalls n

end Inference

section

variable {α : Type} [Scalar α]

/-- The inference for a function with descriptors given beforehand. -/
def Func.inference (f : Func α) (seed : Storages) : Inference α :=
  ⟨f, f.tensors, seed⟩

open Inference in
/-- **When inference ends.** Propagation settles within two rounds for each tensor of the function,
    and one more, unless it stalls. If it stalls, no number of rounds settles it; and for descriptors
    beforehand that pass their check, this is just when inference goes on for ever. -/
theorem Func.inference_settles_or_stalls (f : Func α) (seed : Storages) :
    (¬ (f.inference seed).Stalls →
      Settled ((f.inference seed).rounds (2 * f.tensors.size + 1))) ∧
    ((f.inference seed).Stalls → ∀ n, ¬ Settled ((f.inference seed).rounds n)) ∧
    (f.inferStorageWith seed = .error .divergence ↔
      seed.entries.forM (f.inference seed).checkSeed = .ok () ∧ (f.inference seed).Stalls) := by
  refine ⟨rounds_settle.1, rounds_settle.2, ?_⟩
  have hinf : (⟨f, f.tensors, seed⟩ : Inference α) = f.inference seed := rfl
  simp only [inferStorageWith, hinf]
  cases hseed : seed.entries.forM (f.inference seed).checkSeed with
  | error cause => simp [Outcome.ofExcept, bind, Except.bind]
  | ok _ =>
      cases hassembled : (f.inference seed).assemblyEvidence with
      | error cause =>
          have hstalls : ¬ (f.inference seed).Stalls := by
            rintro ⟨assembled, _, _, h, _⟩
            rw [hassembled] at h
            cases h
          simp [Outcome.ofExcept, bind, Except.bind, hstalls]
      | ok assembled =>
          rw [← propagate_assembled_iff hassembled]
          cases hprop : (f.inference seed).propagate assembled.keys assembled with
          | error fault => simp [Outcome.ofExcept, bind, Except.bind, hprop]
          | ok evidence =>
              simp [Outcome.ofExcept, bind, Except.bind, hprop, pure, Except.pure]

/-- A matrix takes the entries of another, assembled over the edges of a graph, and then those of one
    assembled over its vertices. -/
def alternatingMasks : Func Float :=
  let i : IndexVar := ⟨"i", .set "V"⟩
  let j : IndexVar := ⟨"j", .set "V"⟩
  let one : Expr Float := .literal (.float 1)
  let entriesOf (tensor : VarName) : Stmt Float :=
    .assign "b" (.index [i, j] (.indexed ⟨tensor, [i, j]⟩))
  (Func.named "f").withSet (.plain "V")
    |>.withSet (.relation "E" "V" 2)
    |>.withLocal "a" (.matrix "V" "V" .scalar)
    |>.withLocal "d" (.matrix "V" "V" .scalar)
    |>.withLocal "b" (.matrix "V" "V" .scalar)
    |>.withAssembly ["a"] "E" (fun k =>
      [.contribute "a" [k.endpointExpr 0, k.endpointExpr 1] one])
    |>.withAssembly ["d"] "V" (fun k => [.contribute "d" [k.elementExpr, k.elementExpr] one])
    |>.withStmt (entriesOf "a")
    |>.withStmt (entriesOf "d")

open Inference in
/-- Propagation never settles where the pattern of a relation for a matrix is followed by a diagonal
    for it. -/
theorem alternatingMasks_never_settles :
    ¬ ∃ n, Settled ((alternatingMasks.inference Table.empty).rounds n) := by
  let inf := alternatingMasks.inference Table.empty
  let assembled : Evidence := ⟨[("a", .square "E" "V"), ("d", .diagonal "V")]⟩
  let final : Evidence := assembled.insert "b" (.square "E" "V")
  have hassembled : inf.assemblyEvidence = .ok assembled := rfl
  have hfirst : inf.round assembled.keys inf.func.body assembled = .ok (final, true) := rfl
  have hlater : inf.round assembled.keys inf.func.body final = .ok (final, true) := rfl
  have hfinal : ∀ n, inf.after assembled.keys final n = .ok (final, true) := by
    intro n
    induction n with
    | zero => rfl
    | succ n ih => rw [after_succ hlater, ih]
  rintro ⟨n, hn⟩
  have hrounds : inf.rounds n = inf.after assembled.keys assembled n := by
    simp only [rounds, hassembled]
  rw [hrounds] at hn
  cases n with
  | zero => exact Bool.noConfusion hn
  | succ n =>
      rw [after_succ hfirst, hfinal] at hn
      exact Bool.noConfusion hn

end

end GraphTensor
