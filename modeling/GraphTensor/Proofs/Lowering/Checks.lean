import GraphTensor.Proofs.Lowering.Factors
import GraphTensor.Proofs.Lowering.Terms
import Mathlib.Data.List.Dedup
set_option autoImplicit false

/-! # What the checks of an index expression guarantee

The indices that are met in a term are those of its operands, each once and in the order of their
first appearance (`Contraction.Counted`). A term that passes the checks can be lowered: its operands
range over the domains of their tensors, an index has one domain, and every index is free or summed.

Indices are kept in a table by name, with the domain in which each was met first. A later operand
either agrees with the table or fails the check, so the table only grows, and what it says of an
index is never revised. -/

namespace GraphTensor

variable {α : Type}

/-! ## Tables -/

namespace Table

variable {κ β : Type} [BEq κ] [LawfulBEq κ] {key : κ} {value : α} {entries : List (κ × α)}

theorem put_of_none (h : find? key entries = none) : put key value entries = entries ++ [(key, value)] := by
  induction entries with
  | nil => rfl
  | cons e rest ih =>
      obtain ⟨k, a⟩ := e
      by_cases hk : k = key
      · simp [find?, hk] at h
      · have hne : (k == key) = false := by simpa using hk
        simp only [find?, hne, Bool.false_eq_true, if_false] at h
        simp [put, hne, ih h]

theorem find?_of_mem (hnodup : (entries.map Prod.fst).Nodup) (h : (key, value) ∈ entries) :
    find? key entries = some value := by
  induction entries with
  | nil => cases h
  | cons e rest ih =>
      obtain ⟨hnew, hnodup⟩ := List.nodup_cons.1 hnodup
      rcases List.mem_cons.1 h with rfl | h
      · simp [find?]
      · have hne : (e.1 == key) = false := by
          rw [beq_eq_false_iff_ne]
          rintro rfl
          exact hnew (List.mem_map.2 ⟨_, h, rfl⟩)
        simp only [find?, hne, Bool.false_eq_true, if_false]
        exact ih hnodup h

theorem map_put_of_some (f : κ × α → β) {old : α} (h : find? key entries = some old)
    (hf : f (key, value) = f (key, old)) : (put key value entries).map f = entries.map f := by
  induction entries with
  | nil => cases h
  | cons e rest ih =>
      obtain ⟨k, a⟩ := e
      by_cases hk : k = key
      · simp only [find?, hk, beq_self_eq_true, if_true, Option.some.injEq] at h
        simp [put, hk, hf, h]
      · have hne : (k == key) = false := by simpa using hk
        simp only [find?, hne, Bool.false_eq_true, if_false] at h
        simp [put, hne, ih h]

end Table

/-! ## Indices of a term -/

/-- The indices of a factor. -/
def Factor.indices : Factor α → List IndexVar
  | tensor operand => operand.indices
  | scalar _ => []

theorem Term.flatMap_tensors (t : Term α) :
    (t.tensors.flatMap fun (_, operand) => operand.indices) = t.factors.flatMap Factor.indices := by
  unfold tensors
  -- the places do not matter
  generalize 0 = start
  induction t.factors generalizing start with
  | nil => rfl
  | cons factor rest ih =>
      cases factor with
      | tensor operand => simpa [Factor.indices] using ih (start + 1)
      | scalar value => simpa [Factor.indices] using ih (start + 1)

namespace Contraction

variable {c : Contraction} {scope : TypeScope α} {seen seen' : Occurrences} {is : List IndexVar}

/-- The index that an entry is about. -/
def indexOf (entry : String × IndexDomain × Nat) : IndexVar :=
  ⟨entry.1, entry.2.1⟩

/-- The indices met so far are counted, each of them once. -/
structure Counted (seen : Occurrences) (is : List IndexVar) : Prop where
  /-- In the order of their first appearance. -/
  entries : seen.entries.map indexOf = is.eraseDups
  /-- No two of them share a name. -/
  nodup : (seen.entries.map Prod.fst).Nodup

theorem Counted.get? (h : Counted seen is) {i : IndexVar} (hi : i ∈ is) :
    ∃ count, seen.get? i.name = some (i.domain, count) := by
  have hmem : i ∈ seen.entries.map indexOf := by
    rw [h.entries]
    exact List.mem_eraseDups.2 hi
  obtain ⟨⟨name, domain, count⟩, hentry, rfl⟩ := List.mem_map.1 hmem
  exact ⟨count, Table.find?_of_mem h.nodup hentry⟩

theorem Counted.mem (h : Counted seen is) {name : String} {domain : IndexDomain} {count : Nat}
    (hseen : seen.get? name = some (domain, count)) : ⟨name, domain⟩ ∈ is := by
  have hmem : (⟨name, domain⟩ : IndexVar) ∈ seen.entries.map indexOf :=
    List.mem_map.2 ⟨_, Table.find?_eq_some_mem hseen, rfl⟩
  rw [h.entries] at hmem
  exact List.mem_eraseDups.1 hmem

theorem counted_of_countIndex {tensor : VarName} {i : IndexVar} {dim : IndexDomain}
    (h : c.countIndex tensor seen i dim = .ok seen') (hseen : Counted seen is) :
    i.domain = dim ∧ Counted seen' (is ++ [i]) := by
  unfold countIndex at h
  split at h
  · cases h
  · next hdomain =>
      refine ⟨not_not.1 hdomain, ?_⟩
      split at h
      · next hnone =>
          obtain rfl := Except.ok.inj h
          have hput : (seen.insert i.name (i.domain, 1)).entries =
              seen.entries ++ [(i.name, i.domain, 1)] := Table.put_of_none hnone
          have hnew : i ∉ is := by
            intro hi
            obtain ⟨count, hcount⟩ := hseen.get? hi
            rw [hnone] at hcount
            cases hcount
          refine ⟨?_, ?_⟩
          · rw [hput, List.map_append, hseen.entries, List.eraseDups_append]
            simp [List.removeAll, hnew, indexOf, List.eraseDups_cons]
          · rw [hput, List.map_append, List.map_singleton, List.nodup_append]
            refine ⟨hseen.nodup, List.nodup_singleton _, fun name hname other hother => ?_⟩
            obtain rfl := List.mem_singleton.1 hother
            rintro rfl
            exact Table.find?_eq_none_iff.1 hnone hname
      · next domain count hsome =>
          split at h
          · cases h
          · next hsame =>
              obtain rfl := Except.ok.inj h
              obtain rfl := not_not.1 hsame
              have hmem : i ∈ is := hseen.mem hsome
              have hindices : (seen.insert i.name (i.domain, count + 1)).entries.map indexOf =
                  seen.entries.map indexOf := Table.map_put_of_some indexOf hsome rfl
              have hnames : (seen.insert i.name (i.domain, count + 1)).entries.map Prod.fst =
                  seen.entries.map Prod.fst := Table.map_put_of_some Prod.fst hsome rfl
              refine ⟨?_, hnames ▸ hseen.nodup⟩
              rw [hindices, hseen.entries, List.eraseDups_append]
              simp [List.removeAll, hmem]

theorem counted_of_countIndices {tensor : VarName} {indices : List IndexVar}
    {dims : List IndexDomain} (hlength : indices.length = dims.length)
    (h : c.countIndices tensor seen indices dims = .ok seen') (hseen : Counted seen is) :
    indices.map IndexVar.domain = dims ∧ Counted seen' (is ++ indices) := by
  induction indices generalizing dims seen is with
  | nil =>
      obtain rfl := Except.ok.inj h
      rw [List.append_nil]
      exact ⟨(List.length_eq_zero_iff.1 hlength.symm).symm, hseen⟩
  | cons i rest ih =>
      cases dims with
      | nil => cases hlength
      | cons dim dims =>
          obtain ⟨seen₁, hseen₁, h⟩ := Outcome.bind_eq_ok_iff.1 h
          obtain ⟨hdomain, hcounted⟩ := counted_of_countIndex hseen₁ hseen
          obtain ⟨hdomains, hcounted⟩ := ih (Nat.succ.inj hlength) h hcounted
          rw [List.append_assoc] at hcounted
          exact ⟨by rw [List.map_cons, hdomain, hdomains], hcounted⟩

/-- What the check of a factor tells about it. -/
def Typed (scope : TypeScope α) : Factor α → Prop
  | .tensor operand =>
      ∃ type, scope.tensor operand.tensor = .ok type ∧
        operand.indices.map IndexVar.domain = type.dims
  | .scalar value => ∃ block, scope.blockOf value .coefficient = .ok block

theorem counted_of_checkFactor {factor : Factor α} {block : BlockShape}
    (h : c.checkFactor scope seen factor = .ok (seen', block)) (hseen : Counted seen is) :
    Typed scope factor ∧ Counted seen' (is ++ factor.indices) := by
  cases factor with
  | scalar value =>
      obtain ⟨block, hblock, h⟩ := Outcome.bind_eq_ok_iff.1 h
      obtain ⟨rfl, _⟩ := Prod.mk.inj (Except.ok.inj h)
      exact ⟨⟨block, hblock⟩, by rwa [Factor.indices, List.append_nil]⟩
  | tensor operand =>
      obtain ⟨type, htype, h⟩ := Outcome.bind_eq_ok_iff.1 h
      split at h
      · cases h
      · next hlength =>
          obtain ⟨found, hfound, h⟩ := Outcome.bind_eq_ok_iff.1 h
          obtain ⟨rfl, _⟩ := Prod.mk.inj (Except.ok.inj h)
          obtain ⟨hdomains, hcounted⟩ := counted_of_countIndices (not_not.1 hlength) hfound hseen
          exact ⟨⟨type, htype, hdomains⟩, hcounted⟩

theorem counted_of_checkFactors {factors : List (Factor α)} {product product' : Option BlockShape}
    (h : c.checkFactors scope seen product factors = .ok (seen', product'))
    (hseen : Counted seen is) :
    (∀ factor ∈ factors, Typed scope factor) ∧
      Counted seen' (is ++ factors.flatMap Factor.indices) := by
  induction factors generalizing seen is product with
  | nil =>
      obtain ⟨rfl, _⟩ := Prod.mk.inj (Except.ok.inj h)
      rw [List.flatMap_nil, List.append_nil]
      exact ⟨fun _ hfactor => absurd hfactor List.not_mem_nil, hseen⟩
  | cons factor rest ih =>
      obtain ⟨⟨seen₁, block⟩, hfactor, h⟩ := Outcome.bind_eq_ok_iff.1 h
      obtain ⟨product₁, _, h⟩ := Outcome.bind_eq_ok_iff.1 h
      obtain ⟨htyped, hcounted⟩ := counted_of_checkFactor hfactor hseen
      obtain ⟨hall, hcounted⟩ := ih h hcounted
      rw [List.flatMap_cons, ← List.append_assoc]
      exact ⟨List.forall_mem_cons.2 ⟨htyped, hall⟩, hcounted⟩

theorem summed_eq {entries : List (String × IndexDomain × Nat)} {bound : List IndexVar}
    (h : c.summed entries = .ok bound) :
    bound = (entries.map indexOf).filter fun i => !c.free.any (·.name == i.name) := by
  induction entries generalizing bound with
  | nil => exact (Except.ok.inj h).symm
  | cons entry rest ih =>
      obtain ⟨name, domain, count⟩ := entry
      rw [summed] at h
      split at h
      · next hfree => rw [List.map_cons, List.filter_cons_of_neg (by simpa [indexOf] using hfree), ih h]
      · next hfree =>
          split at h
          · cases h
          · obtain ⟨bound', hbound', h⟩ := Outcome.bind_eq_ok_iff.1 h
            obtain rfl := Except.ok.inj h
            rw [List.map_cons, List.filter_cons_of_pos (by simpa [indexOf] using hfree), ih hbound']
            rfl

theorem checkDestination_spec {earlier : List String} {free : List IndexVar}
    {dims : List IndexDomain} (hlength : free.length = dims.length)
    (h : c.checkDestination earlier free dims = .ok ()) :
    free.map IndexVar.domain = dims ∧ (free.map IndexVar.name).Nodup ∧
      ∀ i ∈ free, i.name ∉ earlier := by
  induction free generalizing earlier dims with
  | nil => exact ⟨(List.length_eq_zero_iff.1 hlength.symm).symm, List.nodup_nil, by simp⟩
  | cons i rest ih =>
      cases dims with
      | nil => cases hlength
      | cons dim dims =>
          rw [checkDestination] at h
          split at h
          · cases h
          · next hdomain =>
              split at h
              · cases h
              · next hnew =>
                  obtain ⟨hdomains, hnodup, hapart⟩ := ih (Nat.succ.inj hlength) h
                  refine ⟨?_, List.nodup_cons.2 ⟨fun hmem => ?_, hnodup⟩, ?_⟩
                  · rw [List.map_cons, hdomains, not_not.1 hdomain]
                  · obtain ⟨j, hj, hname⟩ := List.mem_map.1 hmem
                    exact hapart j hj (hname ▸ List.mem_cons_self ..)
                  · intro j hj
                    rcases List.mem_cons.1 hj with rfl | hj
                    · simpa using hnew
                    · exact fun hmem => hapart j hj (List.mem_cons_of_mem _ hmem)

/-! ## Terms that pass -/

theorem tensor_of_ofFunc {f : Func α} {tensor : VarName} {type : TensorType}
    (h : (TypeScope.ofFunc f).tensor tensor = .ok type) :
    f.varType? tensor = some (.tensor type) := by
  unfold TypeScope.tensor at h
  split at h
  · next found hfound => exact Except.ok.inj h ▸ hfound
  · cases h
  · cases h

/-- A coefficient is a block, so it is no field and no tensor as a whole. -/
theorem coefficient_of_blockOf {f : Func α} {value : Expr α} {block : BlockShape}
    (h : (TypeScope.ofFunc f).blockOf value .coefficient = .ok block) :
    (∀ set field, value ≠ .field set field) ∧
      ∀ name, value = .var name → ∀ type, f.varType? name ≠ some (.tensor type) := by
  obtain ⟨type, htype, h⟩ := Outcome.bind_eq_ok_iff.1 h
  have hblock : type = .block block := by
    split at h
    · rw [Except.ok.inj h]
    · cases h
  subst hblock
  refine ⟨?_, ?_⟩
  · rintro set field rfl
    obtain ⟨found, _, h⟩ := Outcome.bind_eq_ok_iff.1 htype
    split at h
    · cases Except.ok.inj h
    · cases h
  · rintro name rfl type hname
    have hlookup : f.varType? name = some (.block block) := Outcome.orFail_eq_ok_iff.1 htype
    rw [hname] at hlookup
    cases hlookup

theorem masked_of_checkMask {t : Term α} {p : PatternRef} (h : c.checkMask p t = .ok ()) :
    ∃ place operand p', (place, operand) ∈ t.tensors ∧ c.indexedByFree operand = true ∧
      c.storages.pattern? operand.tensor = some p' ∧ p'.subsetOf p = true := by
  unfold checkMask at h
  dsimp only at h
  split at h
  · next hany =>
      obtain ⟨⟨tensor, p'⟩, hcandidate, hsub⟩ := List.any_eq_true.1 hany
      obtain ⟨⟨place, operand⟩, hoperand, hfound⟩ := List.mem_filterMap.1 hcandidate
      dsimp only at hfound
      split at hfound
      · next hindexed =>
          obtain ⟨p'', hp, heq⟩ := Option.map_eq_some_iff.1 hfound
          obtain ⟨rfl, rfl⟩ := Prod.mk.inj heq
          exact ⟨place, operand, p'', hoperand, hindexed, hp, hsub⟩
      · cases hfound
  · cases h

variable {f : Func α} {m : Machine α} {t : Term α}

section

variable {seen : Occurrences} {bound : List IndexVar}
  (hcounted : Counted seen (t.tensors.flatMap fun (_, operand) => operand.indices))

include hcounted

theorem summed_of_counted (hbound : c.summed seen.entries = .ok bound) : bound = t.summed c.free := by
  have hsummed := summed_eq hbound
  rw [hcounted.entries] at hsummed
  exact hsummed

/-- An index of an operand is free or summed, since a free index has the domain that was met. -/
theorem mem_indices_of_checkFree (hfree : c.free.forM (c.checkFree seen) = .ok ()) {i : IndexVar}
    (hi : i ∈ t.tensors.flatMap fun (_, operand) => operand.indices) : i ∈ c.indices t := by
  by_cases hany : c.free.any (·.name == i.name) = true
  · obtain ⟨l, hl, hname⟩ := List.any_eq_true.1 hany
    have hname : l.name = i.name := by simpa using hname
    have hcheck := Except.forM_mem hfree hl
    obtain ⟨count, hcount⟩ := hcounted.get? hi
    rw [checkFree, hname, hcount] at hcheck
    have hdomain : i.domain = l.domain := by simpa using Outcome.failIf_eq_ok_iff.1 hcheck
    have heq : l = i := by
      cases l
      cases i
      simp_all
    exact List.mem_append_left _ (heq ▸ hl)
  · refine List.mem_append_right _ (List.mem_filter.2 ⟨List.mem_eraseDups.2 hi, ?_⟩)
    simpa using hany

theorem nodup_indices (hbound : c.summed seen.entries = .ok bound)
    (hnodup : (c.free.map IndexVar.name).Nodup) : ((c.indices t).map IndexVar.name).Nodup := by
  rw [indices, List.map_append]
  refine List.nodup_append.2 ⟨hnodup, ?_, ?_⟩
  · -- the names of the summed indices are keys of one table
    rw [← summed_of_counted hcounted hbound, summed_eq hbound]
    have hkeys : (seen.entries.map indexOf).map IndexVar.name = seen.entries.map Prod.fst :=
      List.map_map
    exact (hkeys ▸ hcounted.nodup).sublist (List.filter_sublist.map _)
  · intro name hname other hother
    obtain ⟨i, hi, rfl⟩ := List.mem_map.1 hname
    obtain ⟨j, hj, rfl⟩ := List.mem_map.1 hother
    exact Machine.summed_apart t c.free i hi j hj

end

/-- **A term that passes the checks** can be lowered over its summed indices. -/
theorem fits_of_checkTerm {bound : List IndexVar} (htypes : ∀ var, m.func.varType? var = f.varType? var)
    (hlength : c.free.length = c.type.rank)
    (hdestination : c.checkDestination [] c.free c.type.dims = .ok ())
    (hcheck : c.checkTerm (TypeScope.ofFunc f) t = .ok bound)
    (hsmall : ∀ i ∈ c.indices t, m.count i.domain ≤ 2 ^ 63)
    (hreads : ∀ factor ∈ t.factors, ∀ name ∈ factor.reads,
      name ≠ c.target ∧ '%' ∉ name.toList) :
    c.Fits m t ∧ bound = t.summed c.free := by
  obtain ⟨⟨seen, product⟩, hfactors, hcheck⟩ := Outcome.bind_eq_ok_iff.1 hcheck
  obtain ⟨htyped, hcounted⟩ := counted_of_checkFactors hfactors (show Counted Table.empty [] from ⟨rfl, List.nodup_nil⟩)
  rw [List.nil_append, ← Term.flatMap_tensors] at hcounted
  cases product with
  | none => cases hcheck
  | some block =>
  obtain ⟨_, _, hcheck⟩ := Outcome.bind_eq_ok_iff.1 hcheck
  obtain ⟨_, hfree, hcheck⟩ := Outcome.bind_eq_ok_iff.1 hcheck
  obtain ⟨bound', hbound, hcheck⟩ := Outcome.bind_eq_ok_iff.1 hcheck
  obtain ⟨rfl, hmask⟩ : bound' = bound ∧ ∀ p, c.kind = .sparse p → c.checkMask p t = .ok () := by
    split at hcheck
    · next p hkind =>
        obtain ⟨_, hmask, hcheck⟩ := Outcome.bind_eq_ok_iff.1 hcheck
        refine ⟨Except.ok.inj hcheck, fun p' hkind' => ?_⟩
        obtain rfl := StorageKind.sparse.inj (hkind.symm.trans hkind')
        exact hmask
    · next hkind => exact ⟨Except.ok.inj hcheck, fun p hsparse => absurd hsparse (hkind p)⟩
  obtain ⟨hdomains, hnodup, _⟩ := checkDestination_spec hlength hdestination
  refine ⟨⟨?_, ?_, nodup_indices hcounted hbound hnodup, hdomains, ?_, hsmall, ?_, ?_⟩,
    summed_of_counted hcounted hbound⟩
  · intro place operand hoperand
    have hmem := List.mem_of_getElem? (Term.mem_tensors_iff.1 hoperand)
    obtain ⟨type, htype, hdims⟩ := htyped _ hmem
    exact ⟨(hreads _ hmem operand.tensor (List.mem_singleton_self _)).1, type,
      (htypes _).trans (tensor_of_ofFunc htype), hdims⟩
  · intro place operand hoperand i hi
    exact mem_indices_of_checkFree hcounted hfree (List.mem_flatMap.2 ⟨(place, operand), hoperand, hi⟩)
  · intro p hkind
    exact masked_of_checkMask (hmask p hkind)
  · intro value hvalue name hname
    exact hreads _ hvalue name hname
  · intro value hvalue
    obtain ⟨block, hblock⟩ := htyped _ hvalue
    obtain ⟨hfield, hvar⟩ := coefficient_of_blockOf hblock
    exact ⟨hfield, fun name heq type => htypes name ▸ hvar name heq type⟩

end Contraction

end GraphTensor
