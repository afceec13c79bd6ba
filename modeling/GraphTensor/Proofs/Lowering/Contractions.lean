import GraphTensor.Lowering.Contraction
import GraphTensor.Proofs.Block.Zeros
import GraphTensor.Proofs.Lowering.Sums
import GraphTensor.Proofs.Lowering.Values
set_option autoImplicit false

/-! # What an index expression means

An index expression gives, at each tuple of its free indices, the sum of its signed products over
all values of the summed indices (`Machine.contractionAt?`). An entry that a sparse operand does not
store is a block of zeros, and so is every product that it is a factor of.

Loops run over the values of all indices, free and summed, in whatever order the nest has. What they
add at each of these values is a contribution to one tuple (`contributionAt`), and the sum at a
tuple takes in the contributions that name it. Lists of contributions that add up alike (`SameSums`)
may replace one another, which is how zeros are left out. -/

namespace GraphTensor

variable {α : Type}

/-! ## Values of indices -/

/-- Values of indices by name. -/
abbrev IndexValues : Type :=
  String → Nat

namespace IndexValues

/-- The values with one more. -/
def bind (values : IndexValues) (name : String) (k : Nat) : IndexValues :=
  fun other => if other = name then k else values other

/-- The values with those of a tuple for a list of indices. -/
def assign (values : IndexValues) : List IndexVar → List Nat → IndexValues
  | i :: indices, k :: ks => (values.bind i.name k).assign indices ks
  | _, _ => values

/-- No values given. -/
def none : IndexValues :=
  fun _ => 0

theorem bind_self (values : IndexValues) (name : String) (k : Nat) :
    values.bind name k name = k :=
  if_pos rfl

theorem bind_of_ne {values : IndexValues} {name other : String} (h : other ≠ name) (k : Nat) :
    values.bind name k other = values other :=
  if_neg h

theorem assign_of_notMem {values : IndexValues} {name : String} {indices : List IndexVar}
    {ks : List Nat} (h : name ∉ indices.map IndexVar.name) :
    values.assign indices ks name = values name := by
  induction indices generalizing values ks with
  | nil => rfl
  | cons i rest ih =>
      cases ks with
      | nil => rfl
      | cons k ks =>
          obtain ⟨hne, hrest⟩ := not_or.1 (mt List.mem_cons.2 h)
          rw [assign, ih hrest, bind_of_ne hne]

end IndexValues

/-- The indices at which an operand is read. -/
def IndexedTensor.place (t : IndexedTensor) (values : IndexValues) : List Int :=
  t.indices.map fun i => (values i.name : Int)

/-- The indices of a term that are not free, in the order of their first appearance. -/
def Term.summed (t : Term α) (free : List IndexVar) : List IndexVar :=
  (t.tensors.flatMap fun (_, operand) => operand.indices).eraseDups.filter
    fun i => !free.any (·.name == i.name)

/-! ## Values of terms -/

/-- The sum of blocks, added from the left onto zero, if all of them are there. -/
def sumBlocks? [Scalar α] (block : BlockShape) (blocks : List (Option (BlockValue α))) :
    Option (BlockValue α) :=
  blocks.foldlM (fun sum b => do sum.add? (← b)) (.zeros block)

namespace Machine

/-- The number of values that a domain ranges over. -/
def count (m : Machine α) (domain : IndexDomain) : Nat :=
  match m.resolution.extent domain with
  | .ok n => n
  | .error _ => 0

/-- What a function gives for all values of a list of indices, the last one running fastest. -/
def forAll {β : Type} (m : Machine α) (g : IndexValues → List β) :
    List IndexVar → IndexValues → List β
  | [], values => g values
  | i :: rest, values =>
    (List.range (m.count i.domain)).flatMap fun k => m.forAll g rest (values.bind i.name k)

/-- A tensor stores an entry of its own at a tuple of indices. -/
def stores (m : Machine α) (mem : Memory α) (tensor : VarName) (indices : List Int) : Bool :=
  match m.func.tensorType? tensor, mem.buffers.get? tensor with
  | some type, some b => (b.place? ((m.extents? type.dims).getD []) indices).isSome
  | _, _ => false

variable [Scalar α]

/-- The block of a factor. -/
def factor? (m : Machine α) (mem : Memory α) (values : IndexValues) :
    Factor α → Option (BlockValue α)
  | .tensor operand => m.entryAt? mem operand.tensor (operand.place values)
  | .scalar value =>
    match m.value? mem value with
    | some (.block b) => some b
    | _ => none

/-- The product of factors with what stands to the left of them. -/
def productFrom? (m : Machine α) (mem : Memory α) (values : IndexValues) (left : BlockValue α)
    (factors : List (Factor α)) : Option (BlockValue α) :=
  factors.foldlM (fun left factor => do left.mul? (← m.factor? mem values factor)) left

/-- The product of factors from left to right. -/
def product? (m : Machine α) (mem : Memory α) (values : IndexValues) :
    List (Factor α) → Option (BlockValue α)
  | [] => none
  | factor :: rest => do
    let first ← m.factor? mem values factor
    m.productFrom? mem values first rest

/-- The block of a term: the product of its factors with the sign of the term, read as a block of the
    given shape, and zeros where an operand stores no entry. -/
def term? (m : Machine α) (mem : Memory α) (block : BlockShape) (t : Term α)
    (values : IndexValues) : Option (BlockValue α) :=
  if t.tensors.all fun (_, operand) => m.stores mem operand.tensor (operand.place values) then do
    let product ← m.product? mem values t.factors
    BlockValue.ofArray? block (if t.negated then product.neg else product).data
  else some (.zeros block)

/-- The contraction of terms at a tuple of the free indices: the sum of all terms over all values of
    their summed indices. -/
def contractionAt? (m : Machine α) (mem : Memory α) (block : BlockShape) (free : List IndexVar)
    (terms : List (Term α)) (indices : List Nat) : Option (BlockValue α) :=
  sumBlocks? block (terms.flatMap fun t =>
    m.forAll (fun values => [m.term? mem block t values]) (t.summed free)
      (IndexValues.none.assign free indices))

/-- A tensor holds the contraction that an index expression stands for, computed in the memory
    before, at every tuple of indices. -/
def HoldsContraction (m : Machine α) (before mem : Memory α) (target : VarName) (type : TensorType)
    (free : List IndexVar) (terms : List (Term α)) : Prop :=
  ∀ extents indices, m.Extents type.dims extents → WithinExtents extents indices →
    ∃ value, m.entryAt? mem target (indices.map Nat.cast) = some value ∧
      m.contractionAt? before type.block free terms indices = some value

end Machine

/-! ## Contributions of all tuples -/

/-- What a block contributes at the values of the free indices. -/
def contributionAt (free : List IndexVar) (values : IndexValues) (b : Option (BlockValue α)) :
    Option (List Int × BlockValue α) :=
  b.map fun b => (free.map fun i => SignedWord.ofCount (values i.name), b)

/-- The block that is contributed at a tuple of indices. -/
def pickAt (indices : List Int) :
    Option (List Int × BlockValue α) → Option (Option (BlockValue α))
  | some (place, b) => if place = indices then some (some b) else none
  | none => none

section

variable [Scalar α] {block : BlockShape} {indices : List Nat}
  {contributions : List (Option (List Int × BlockValue α))}

theorem sumBlocks?_of_sumAt? {sum : BlockValue α}
    (h : sumAt? block indices contributions = some sum) :
    sumBlocks? block (contributions.filterMap (pickAt (indices.map SignedWord.ofCount))) =
        some sum ∧
      ∀ c ∈ contributions, c ≠ none := by
  unfold sumAt? at h
  unfold sumBlocks?
  generalize (BlockValue.zeros block : BlockValue α) = start at h ⊢
  induction contributions generalizing start with
  | nil => exact ⟨h, by simp⟩
  | cons c rest ih =>
      cases c with
      | none => cases h
      | some c =>
          obtain ⟨place, b⟩ := c
          rw [List.foldlM_cons] at h
          obtain ⟨next, hnext, hrest⟩ := Option.bind_eq_some_iff.1 h
          obtain ⟨hsum, hsome⟩ := ih next hrest
          refine ⟨?_, ?_⟩
          · by_cases hplace : place = indices.map SignedWord.ofCount
            · have hadd : start.add? b = some next := by simpa [hplace] using hnext
              simpa [pickAt, hplace, hadd] using hsum
            · have hkeep : start = next := by simpa [hplace] using hnext
              simpa [pickAt, hplace, hkeep] using hsum
          · intro c hc
            rcases List.mem_cons.1 hc with rfl | hc
            · exact Option.some_ne_none _
            · exact hsome c hc

end

namespace Machine

variable {β : Type} {m : Machine α} {g : IndexValues → List β}

/-- What is given for all values is given for values that differ at those indices only. -/
theorem mem_forAll {rest : List IndexVar} {values : IndexValues} {b : β}
    (h : b ∈ m.forAll g rest values) :
    ∃ values', b ∈ g values' ∧ ∀ name, (∀ i ∈ rest, i.name ≠ name) → values' name = values name := by
  induction rest generalizing values with
  | nil => exact ⟨values, h, fun _ _ => rfl⟩
  | cons i rest ih =>
      obtain ⟨k, _, hb⟩ := List.mem_flatMap.1 h
      obtain ⟨values', hmem, hsame⟩ := ih hb
      refine ⟨values', hmem, fun name hname => ?_⟩
      rw [hsame name fun j hj => hname j (List.mem_cons_of_mem _ hj)]
      exact IndexValues.bind_of_ne (hname i (List.mem_cons_self ..)).symm k

/-- If only one of distinct numbers gives anything, a list of them gives what that one does. -/
theorem flatMap_eq_of_mem {ks : List Nat} {k : Nat} {f : Nat → List β} (hnodup : ks.Nodup)
    (hk : k ∈ ks) (h : ∀ j ∈ ks, j ≠ k → f j = []) : ks.flatMap f = f k := by
  obtain ⟨earlier, later, rfl⟩ := List.append_of_mem hk
  obtain ⟨_, hlater, hapart⟩ := List.nodup_append.1 hnodup
  have hbefore : earlier.flatMap f = [] :=
    List.flatMap_eq_nil_iff.2 fun j hj =>
      h j (List.mem_append_left _ hj) (hapart j hj k (List.mem_cons_self ..))
  have hafter : later.flatMap f = [] := List.flatMap_eq_nil_iff.2 fun j hj =>
    h j (List.mem_append_right _ (List.mem_cons_of_mem _ hj))
      fun heq => (List.nodup_cons.1 hlater).1 (heq ▸ hj)
  rw [List.flatMap_append, List.flatMap_cons, hbefore, hafter, List.nil_append, List.append_nil]

theorem filterMap_pickAt_bound {free bound : List IndexVar}
    {block : IndexValues → Option (BlockValue α)} {values : IndexValues}
    (hbound : ∀ i ∈ free, ∀ j ∈ bound, i.name ≠ j.name)
    (hsome : ∀ c ∈ m.forAll (fun values => [contributionAt free values (block values)]) bound values,
      c ≠ none) :
    (m.forAll (fun values => [contributionAt free values (block values)]) bound values).filterMap
        (pickAt (free.map fun i => SignedWord.ofCount (values i.name))) =
      m.forAll (fun values => [block values]) bound values := by
  induction bound generalizing values with
  | nil =>
      cases hb : block values with
      | none => exact absurd (by rw [hb]; rfl) (hsome _ (List.mem_singleton_self _))
      | some b => simp [forAll, contributionAt, pickAt, hb]
  | cons j rest ih =>
      rw [forAll, forAll, List.filterMap_flatMap]
      refine List.flatMap_congr fun k hk => ?_
      have hsame : (free.map fun i => SignedWord.ofCount (values i.name)) =
          free.map fun i => SignedWord.ofCount (values.bind j.name k i.name) :=
        List.map_congr_left fun i hi => by
          rw [IndexValues.bind_of_ne (hbound i hi j (List.mem_cons_self ..))]
      rw [hsame]
      exact ih (fun i hi l hl => hbound i hi l (List.mem_cons_of_mem _ hl))
        fun c hc => hsome c (List.mem_flatMap.2 ⟨k, hk, hc⟩)

/-- **The blocks contributed at a tuple** of the free indices are those of the terms at it. -/
theorem filterMap_pickAt {free rest bound : List IndexVar} {ks : List Nat}
    {block : IndexValues → Option (BlockValue α)} {values : IndexValues}
    (hrest : ∀ i ∈ rest, i ∈ free) (hbound : ∀ i ∈ free, ∀ j ∈ bound, i.name ≠ j.name)
    (hnodup : (rest.map IndexVar.name).Nodup)
    (hwords : ∀ i ∈ rest, m.count i.domain ≤ Word.bound)
    (hwithin : List.Forall₂ (fun k i => k < m.count i.domain) ks rest)
    (hsome : ∀ c ∈ m.forAll (fun values => [contributionAt free values (block values)])
      (rest ++ bound) values, c ≠ none) :
    (m.forAll (fun values => [contributionAt free values (block values)]) (rest ++ bound)
        values).filterMap
        (pickAt (free.map fun i => SignedWord.ofCount (values.assign rest ks i.name))) =
      m.forAll (fun values => [block values]) bound (values.assign rest ks) := by
  induction hwithin generalizing values with
  | nil => exact filterMap_pickAt_bound hbound hsome
  | @cons k i ks rest hk hwithin ih =>
      obtain ⟨hnew, hnodup⟩ := List.nodup_cons.1 hnodup
      have hi := hrest i (List.mem_cons_self ..)
      have hapart : ∀ j ∈ rest ++ bound, j.name ≠ i.name := by
        intro j hj
        rcases List.mem_append.1 hj with hj | hj
        · exact fun heq => hnew (heq ▸ List.mem_map_of_mem hj)
        · exact (hbound i hi j hj).symm
      rw [List.cons_append, forAll, List.filterMap_flatMap]
      refine (flatMap_eq_of_mem List.nodup_range (List.mem_range.2 hk)
        fun j hrange hj => ?_).trans ?_
      · -- at another value of the index every contribution goes elsewhere
        refine List.filterMap_eq_nil_iff.2 fun c hc => ?_
        obtain ⟨values', hmem, hsame⟩ := mem_forAll hc
        rw [List.mem_singleton.1 hmem]
        cases hb : block values' with
        | none => rfl
        | some b =>
            refine if_neg fun heq => ?_
            have hat := List.map_inj_left.1 heq i hi
            rw [hsame i.name hapart, IndexValues.bind_self, IndexValues.assign,
              IndexValues.assign_of_notMem hnew, IndexValues.bind_self] at hat
            have hword := hwords i (List.mem_cons_self ..)
            exact hj (SignedWord.ofCount_inj ((List.mem_range.1 hrange).trans_le hword)
              (hk.trans_le hword) hat)
      · exact ih (fun j hj => hrest j (List.mem_cons_of_mem _ hj)) hnodup
          (fun j hj => hwords j (List.mem_cons_of_mem _ hj))
          fun c hc => hsome c (List.mem_flatMap.2 ⟨k, List.mem_range.2 hk, hc⟩)

end Machine

/-! ## Contributions of zeros -/

/-- Two lists of contributions add up to the same at every tuple, whatever came before them. -/
def SameSums [Scalar α] (block : BlockShape)
    (left right : List (Option (List Int × BlockValue α))) : Prop :=
  ∀ indices earlier, sumAt? block indices (earlier ++ left) = sumAt? block indices (earlier ++ right)

section

variable [Scalar α] {block : BlockShape} {left right left' right' : List (Option (List Int × BlockValue α))}

theorem shape_of_sumAt? {indices : List Nat} {sum : BlockValue α}
    (h : sumAt? block indices left = some sum) : sum.shape = block := by
  unfold sumAt? at h
  have hstart : (BlockValue.zeros block : BlockValue α).shape = block := rfl
  generalize (BlockValue.zeros block : BlockValue α) = start at h hstart
  induction left generalizing start with
  | nil => exact Option.some.inj h ▸ hstart
  | cons c rest ih =>
      rw [List.foldlM_cons] at h
      obtain ⟨next, hnext, hrest⟩ := Option.bind_eq_some_iff.1 h
      obtain ⟨⟨place, b⟩, _, hnext⟩ := Option.bind_eq_some_iff.1 hnext
      refine ih next hrest ?_
      dsimp only at hnext
      split at hnext
      · unfold BlockValue.add? BlockValue.zipWith? at hnext
        split at hnext
        · exact Option.some.inj hnext ▸ hstart
        · cases hnext
      · exact Option.some.inj hnext ▸ hstart

theorem sumAt?_append_congr {indices : List Nat}
    (h : sumAt? block indices left = sumAt? block indices right)
    (later : List (Option (List Int × BlockValue α))) :
    sumAt? block indices (left ++ later) = sumAt? block indices (right ++ later) := by
  unfold sumAt? at *
  rw [List.foldlM_append, List.foldlM_append, h]

theorem SameSums.refl (left : List (Option (List Int × BlockValue α))) :
    SameSums block left left :=
  fun _ _ => rfl

theorem SameSums.symm (h : SameSums block left right) : SameSums block right left :=
  fun indices earlier => (h indices earlier).symm

theorem SameSums.append (h : SameSums block left right) (h' : SameSums block left' right') :
    SameSums block (left ++ left') (right ++ right') := by
  intro indices earlier
  rw [← List.append_assoc, h' indices, List.append_assoc, ← List.append_assoc,
    sumAt?_append_congr (h indices earlier), List.append_assoc]

theorem SameSums.flatMap {β : Type} {xs : List β}
    {f f' : β → List (Option (List Int × BlockValue α))}
    (h : ∀ x ∈ xs, SameSums block (f x) (f' x)) : SameSums block (xs.flatMap f) (xs.flatMap f') := by
  induction xs with
  | nil => exact SameSums.refl _
  | cons x rest ih =>
      rw [List.flatMap_cons, List.flatMap_cons]
      exact (h x (List.mem_cons_self ..)).append (ih fun y hy => h y (List.mem_cons_of_mem _ hy))

/-- Numbers that give nothing but zeros can be left out. -/
theorem SameSums.flatMap_range {n : Nat} {ks : List Nat}
    {f : Nat → List (Option (List Int × BlockValue α))} (hks : ks.Pairwise (· < ·))
    (hlt : ∀ k ∈ ks, k < n) (hzero : ∀ k < n, k ∉ ks → SameSums block (f k) []) :
    SameSums block (ks.flatMap f) ((List.range n).flatMap f) := by
  have hfilter : (List.range n).filter (· ∈ ks) = ks := by
    have hnodup : ((List.range n).filter (· ∈ ks)).Nodup := List.nodup_range.filter _
    refine List.Perm.eq_of_pairwise (fun a b _ _ (hab : a < b) hba => absurd hab hba.asymm)
      (List.pairwise_lt_range.filter _) hks ?_
    refine (List.perm_ext_iff_of_nodup hnodup (hks.imp fun h => h.ne)).2 fun k => ?_
    simp only [List.mem_filter, List.mem_range, decide_eq_true_eq, and_iff_right_iff_imp]
    exact hlt k
  have hsum : ∀ xs : List Nat, (∀ x ∈ xs, x < n) →
      SameSums block ((xs.filter (· ∈ ks)).flatMap f) (xs.flatMap f) := by
    intro xs hxs
    induction xs with
    | nil => exact SameSums.refl _
    | cons x rest ih =>
        have hrest := ih fun y hy => hxs y (List.mem_cons_of_mem _ hy)
        by_cases hx : x ∈ ks
        · rw [List.filter_cons_of_pos (by simpa using hx), List.flatMap_cons, List.flatMap_cons]
          exact (SameSums.refl _).append hrest
        · rw [List.filter_cons_of_neg (by simpa using hx), List.flatMap_cons]
          exact (hzero x (hxs x (List.mem_cons_self ..)) hx).symm.append hrest
  rw [← hfilter]
  exact hsum _ fun x hx => List.mem_range.1 hx

theorem sameSums_zeros [Scalar.ZeroLaws α] (place : List Int) :
    SameSums block [some (place, .zeros block)] ([] : List (Option (List Int × BlockValue α))) := by
  intro indices earlier
  unfold sumAt?
  rw [List.append_nil, List.foldlM_append, ← sumAt?]
  cases hsum : sumAt? block indices earlier with
  | none => rfl
  | some sum =>
      have hadd : sum.add? (.zeros block) = some sum := by
        rw [← shape_of_sumAt? hsum]
        exact sum.add?_zeros
      simp [hadd]

/-- Terms that are all zero add up to nothing. -/
theorem sameSums_forAll_nil {m : Machine α} {g : IndexValues → List (Option (List Int × BlockValue α))}
    {rest : List IndexVar} {values : IndexValues}
    (h : ∀ values', (∀ name, (∀ i ∈ rest, i.name ≠ name) → values' name = values name) →
      SameSums block (g values') []) : SameSums block (m.forAll g rest values) [] := by
  induction rest generalizing values with
  | nil => exact h values fun _ _ => rfl
  | cons i rest ih =>
      have hall : SameSums block
          ((List.range (m.count i.domain)).flatMap fun k => m.forAll g rest (values.bind i.name k))
          ((List.range (m.count i.domain)).flatMap fun _ => []) := by
        refine SameSums.flatMap fun k _ => ih fun values' hsame => h values' fun name hname => ?_
        rw [hsame name fun j hj => hname j (List.mem_cons_of_mem _ hj)]
        exact IndexValues.bind_of_ne (hname i (List.mem_cons_self ..)).symm k
      rwa [List.flatMap_eq_nil_iff.2 fun _ _ => rfl] at hall

theorem Machine.HoldsSum.sameSums {m : Machine α} {mem : Memory α} {tensor : VarName}
    {type : TensorType} {earlier : List (Option (List Int × BlockValue α))}
    (h : m.HoldsSum mem tensor type (earlier ++ left)) (hsame : SameSums type.block left right) :
    m.HoldsSum mem tensor type (earlier ++ right) := by
  intro extents indices hextents hwithin
  obtain ⟨value, hvalue, hsum⟩ := h extents indices hextents hwithin
  exact ⟨value, hvalue, hsame indices earlier ▸ hsum⟩

end

/-! ## From all contributions to each entry -/

theorem IndexValues.map_assign {β : Type} {values : IndexValues} {free : List IndexVar}
    {indices : List Nat} (hlength : indices.length = free.length)
    (hnodup : (free.map IndexVar.name).Nodup) (f : Nat → β) :
    (free.map fun i => f (values.assign free indices i.name)) = indices.map f := by
  induction free generalizing values indices with
  | nil => rw [List.length_eq_zero_iff.1 hlength]; rfl
  | cons i rest ih =>
      cases indices with
      | nil => cases hlength
      | cons k ks =>
          obtain ⟨hnew, hnodup⟩ := List.nodup_cons.1 hnodup
          rw [List.map_cons, List.map_cons, assign, assign_of_notMem hnew, bind_self,
            ih (Nat.succ.inj hlength) hnodup]

namespace Machine

theorem count_eq {m : Machine α} {domain : IndexDomain} {n : Nat}
    (h : m.resolution.extent domain = .ok n) : m.count domain = n := by
  rw [count, h]

/-- The numbers of values of the free indices are the extents of the target. -/
theorem Extents.within_free {m : Machine α} {free : List IndexVar} {dims : List IndexDomain}
    {extents indices : List Nat} (hextents : m.Extents dims extents)
    (hwithin : WithinExtents extents indices) (hfree : free.map IndexVar.domain = dims) :
    List.Forall₂ (fun k i => k < m.count i.domain) indices free := by
  induction hwithin generalizing free dims with
  | nil =>
      cases hextents
      rw [List.map_eq_nil_iff.1 hfree]
      exact List.Forall₂.nil
  | cons hk _ ih =>
      cases hextents with
      | cons hn hextents =>
          obtain ⟨i, rest, rfl, rfl, hrest⟩ := List.map_eq_cons_iff.1 hfree
          exact List.Forall₂.cons (by rwa [count_eq hn]) (ih hextents hrest)

variable [Scalar α] {m : Machine α} {before mem : Memory α} {target : VarName} {type : TensorType}
  {free : List IndexVar} {terms : List (Term α)}

omit [Scalar α] in
theorem summed_apart (t : Term α) (free : List IndexVar) :
    ∀ i ∈ free, ∀ j ∈ t.summed free, i.name ≠ j.name := by
  intro i hi j hj heq
  have hj := (List.mem_filter.1 hj).2
  rw [Bool.not_eq_true', List.any_eq_false] at hj
  exact hj i hi (by simpa using heq)

/-- All contributions of a term, over the values of its free and its summed indices. -/
def termContributions (m : Machine α) (before : Memory α) (block : BlockShape)
    (free : List IndexVar) (t : Term α) : List (Option (List Int × BlockValue α)) :=
  m.forAll (fun values => [contributionAt free values (m.term? before block t values)])
    (free ++ t.summed free) IndexValues.none

/-- A tensor that holds the sum of all contributions holds the contraction. -/
theorem HoldsSum.holdsContraction
    (h : m.HoldsSum mem target type (terms.flatMap (m.termContributions before type.block free)))
    (hfree : free.map IndexVar.domain = type.dims) (hnodup : (free.map IndexVar.name).Nodup)
    (hwords : ∀ i ∈ free, m.count i.domain ≤ Word.bound) :
    m.HoldsContraction before mem target type free terms := by
  intro extents indices hextents hwithin
  obtain ⟨value, hvalue, hsum⟩ := h extents indices hextents hwithin
  refine ⟨value, hvalue, ?_⟩
  obtain ⟨hblocks, hsome⟩ := sumBlocks?_of_sumAt? hsum
  rw [← hblocks, contractionAt?, List.filterMap_flatMap]
  congr 1
  refine List.flatMap_congr fun t ht => ?_
  have hcounts := hextents.within_free hwithin hfree
  have hplace : (indices.map SignedWord.ofCount) = free.map fun i =>
      SignedWord.ofCount (IndexValues.none.assign free indices i.name) :=
    (IndexValues.map_assign hcounts.length_eq hnodup _).symm
  rw [hplace]
  exact (filterMap_pickAt (fun _ hi => hi) (summed_apart t free) hnodup hwords hcounts
    fun c hc => hsome c (List.mem_flatMap.2 ⟨t, ht, hc⟩)).symm

end Machine

end GraphTensor
