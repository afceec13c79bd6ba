import GraphTensor.Proofs.Lowering.Factors
import GraphTensor.Proofs.Lowering.Groups
import GraphTensor.Proofs.Pattern.Intersection
set_option autoImplicit false

/-! # Loop nests compute sums

Each loop of a nest binds one more index. It runs over all values of the index, or over those where
the operands that drive it store an entry; at the other values every product is zero
(`Contraction.Advances`). By induction over the loops, from the innermost write outwards, a nest
adds the sum over all values of all indices to the target (`Contraction.Completes`).

What a loop leaves out is compared with what it visits once, for all kinds of loops: over a range
nothing is left out, over a row the columns that the row lacks, over two rows those that one of them
lacks, and over the target's pattern the places where some operand, the one that masks the term,
stores nothing. -/

namespace GraphTensor

variable {α : Type} [Scalar α]

theorem Table.pattern?_eq_some_iff {storages : Storages} {var : VarName} {p : PatternRef} :
    storages.pattern? var = some p ↔ ∃ s, storages.get? var = some s ∧ s.kind = .sparse p := by
  unfold Table.pattern? TensorStorage.pattern?
  rw [Option.bind_eq_some_iff]
  refine exists_congr fun s => and_congr_right fun _ => ?_
  split
  · next hkind => rw [hkind, Option.some.injEq, StorageKind.sparse.injEq]
  · next hkind => simp [hkind]
  · next hkind => simp [hkind]

theorem Pattern.flatMap_rowEntries {β : Type} {p : Pattern} (row : Nat) (f : Nat → Nat → List β) :
    (p.rowEntries row).flatMap (fun entry => f entry.1 entry.2.1) = (p.row row).flatMap (f row) := by
  rw [rowEntries, List.flatMap_map]
  conv_rhs => rw [← List.zipIdx_map_fst (p.start row) (p.row row), List.flatMap_map]

namespace Contraction

variable {c : Contraction} {a : AccessContext α} {m : Machine α} {before mem mem' mem'' : Memory α}
  {t : Term α} {n n' : Nest α} {position : Option VarName} {done rest : List IndexVar}
  {values : IndexValues} {number : Nat} {L L' : List (Option (List Int × BlockValue α))}

/-! ## Added contributions -/

/-- What a term contributes at values of its indices. -/
def contributes (c : Contraction) (m : Machine α) (before : Memory α) (t : Term α)
    (values : IndexValues) : List (Option (List Int × BlockValue α)) :=
  [contributionAt c.free values (m.term? before c.type.block t values)]

namespace Adds

theorem nil (number : Nat) (mem : Memory α) : c.Adds m number mem mem [] :=
  ⟨fun _ hsum => by rwa [List.append_nil], Memory.KeptBelow.refl number c.target mem⟩

theorem trans (h : c.Adds m number mem mem' L) (h' : c.Adds m number mem' mem'' L') :
    c.Adds m number mem mem'' (L ++ L') :=
  ⟨fun earlier hsum => List.append_assoc earlier L L' ▸ h'.sum _ (h.sum earlier hsum),
    h.kept.trans h'.kept⟩

theorem mono {number' : Nat} (h : c.Adds m number' mem mem' L) (hle : number ≤ number') :
    c.Adds m number mem mem' L :=
  ⟨h.sum, h.kept.mono hle⟩

theorem sameSums (h : c.Adds m number mem mem' L) (hsame : SameSums c.type.block L L') :
    c.Adds m number mem mem' L' :=
  ⟨fun earlier hsum => (h.sum earlier hsum).sameSums hsame, h.kept⟩

theorem withIndices {indices : List (VarName × Nat)}
    (hfresh : ∀ e ∈ indices, ∃ base k, e.1 = freshName base k ∧ number < k)
    (h : c.Adds m number (mem.withIndices indices) mem' L) : c.Adds m number mem mem' L := by
  have hkept : mem.KeptBelow number c.target (mem.withIndices indices) :=
    Memory.KeptBelow.withIndices hfresh mem
  refine ⟨fun earlier hsum => h.sum earlier (hsum.congr ?_), hkept.trans h.kept⟩
  rw [Memory.buffers_withIndices]

end Adds

/-! ## One loop -/

/-- A loop that a nest gets binds one more index, and the values that it leaves out have an operand
    that stores nothing there. -/
structure Advances (c : Contraction) (a : AccessContext α) (m : Machine α) (t : Term α)
    (before : Memory α) (position : Option VarName) (n n' : Nest α) (header : Loop α)
    (done : List IndexVar) (i : IndexVar) : Prop where
  /-- The loop is the innermost one. -/
  loops : n'.loops = n.loops ++ [header]
  /-- Names are only given out. -/
  names : n.names ≤ n'.names
  /-- The header has no accesses. -/
  lowered : a.lowerLoop header = .ok header
  /-- The visits go through ascending values of the index, and leave out zeros only. -/
  visits : ∀ values mem v, c.Stands t m before position n done values mem →
    m.visits mem header = .ok v →
    ∃ ks : List Nat, ks.Pairwise (· < ·) ∧ (∀ k ∈ ks, k < m.count i.domain) ∧
      List.Forall₂ (fun indices k =>
        (∀ e ∈ indices, ∃ base k, e.1 = freshName base k ∧ n.names < k) ∧
        ∀ mem', mem.KeptBelow n.names c.target mem' → m.Laid c.storages mem' →
          c.Stands t m before position n' (done ++ [i]) (values.bind i.name k)
            (mem'.withIndices indices)) v.toList ks ∧
      ∀ k < m.count i.domain, k ∉ ks → ∀ values' : IndexValues,
        (∀ j ∈ done ++ [i], values' j.name = values.bind i.name k j.name) →
        m.term? before c.type.block t values' = some (.zeros c.type.block)

/-- The loops that a nest has got since, around a statement, add the contributions at all values of
    the indices that are left. -/
def Completes (c : Contraction) (a : AccessContext α) (m : Machine α) (t : Term α)
    (before : Memory α) (position : Option VarName) (n n' : Nest α) (s : Stmt α)
    (done rest : List IndexVar) : Prop :=
  ∃ loops, n'.loops = n.loops ++ loops ∧
    ∀ values mem mem' out, c.Stands t m before position n done values mem →
      a.lowerStmt (loops.foldr (fun header inner => .loop header [inner]) s) = .ok out →
      m.exec out mem = .ok mem' →
      c.Adds m n.names mem mem' (m.forAll (c.contributes m before t) rest values)

omit [Scalar α] in
theorem lowerStmt_loop {header : Loop α} {inner out : Stmt α}
    (h : a.lowerStmt (.loop header [inner]) = .ok out) :
    ∃ header' inner', a.lowerLoop header = .ok header' ∧ a.lowerStmt inner = .ok inner' ∧
      out = .loop header' [inner'] := by
  obtain ⟨header', body, hheader, hbody, rfl⟩ := AccessContext.lowerStmt_loop_eq_ok_iff.1 h
  obtain ⟨inner', rest, hinner, hrest, rfl⟩ := AccessContext.lowerBody_cons_eq_ok.1 hbody
  obtain rfl := Except.ok.inj hrest
  exact ⟨header', inner', hheader, hinner, rfl⟩

/-- Visits that each add something of their own add all of it, one after another. -/
theorem adds_of_visits {β : Type} {xs : List β} {visits : List (List (VarName × Nat))}
    {inner : Stmt α} {added : β → List (Option (List Int × BlockValue α))}
    (hvisits : List.Forall₂ (fun indices x =>
      (∀ e ∈ indices, ∃ base k, e.1 = freshName base k ∧ number < k) ∧
      ∀ mem₀ mem₁, mem.KeptBelow number c.target mem₀ → m.Laid c.storages mem₀ →
        m.exec inner (mem₀.withIndices indices) = .ok mem₁ →
        c.Adds m number (mem₀.withIndices indices) mem₁ (added x)) visits xs)
    (hlaid : m.Laid c.storages mem)
    (hrun : visits.foldlM (fun mem indices => m.execAll [inner] (mem.withIndices indices)) mem =
      .ok mem') :
    c.Adds m number mem mem' (xs.flatMap added) := by
  have hkept := Memory.KeptBelow.refl number c.target mem
  suffices hfold : ∀ mem₀, mem.KeptBelow number c.target mem₀ → m.Laid c.storages mem₀ →
      visits.foldlM (fun mem indices => m.execAll [inner] (mem.withIndices indices)) mem₀ =
        .ok mem' → c.Adds m number mem₀ mem' (xs.flatMap added) from
    hfold mem hkept hlaid hrun
  clear hrun
  induction hvisits with
  | nil =>
      intro mem₀ _ _ hrun
      obtain rfl := Except.ok.inj hrun
      exact Adds.nil _ _
  | @cons indices x visits xs hvisit _ ih =>
      intro mem₀ hkept₀ hlaid₀ hrun
      rw [List.foldlM_cons] at hrun
      obtain ⟨mem₁, hmem₁, hrun⟩ := Outcome.bind_eq_ok_iff.1 hrun
      rw [Machine.execAll_singleton] at hmem₁
      have hfirst := (hvisit.2 mem₀ mem₁ hkept₀ hlaid₀ hmem₁).withIndices hvisit.1
      have hlaid₁ : m.Laid c.storages mem₁ :=
        (hlaid₀.changes (Machine.changes_withIndices indices fun e he =>
          List.mem_map_of_mem he)).changes (Machine.changes_exec inner hmem₁)
      exact hfirst.trans (ih mem₁ (hkept₀.trans hfirst.kept) hlaid₁ hrun)

/-! ## One more loop -/

section

variable [Scalar.ZeroLaws α]

/-- **A loop around completed loops** completes one more index. -/
theorem Advances.completes {header : Loop α} {i : IndexVar} {n₁ : Nest α} {s : Stmt α}
    (h : c.Advances a m t before position n n₁ header done i)
    (hnext : c.Completes a m t before position n₁ n' s (done ++ [i]) rest)
    (hf : c.Fits m t) (hindices : c.indices t = done ++ i :: rest) :
    c.Completes a m t before position n n' s done (i :: rest) := by
  obtain ⟨loops, hloops, hinner⟩ := hnext
  refine ⟨header :: loops, by rw [hloops, h.loops, List.append_assoc, List.singleton_append], ?_⟩
  intro values mem mem' out hstands hlower hexec
  obtain ⟨header', inner, hheader, hinner', rfl⟩ := lowerStmt_loop hlower
  obtain rfl := Except.ok.inj (h.lowered.symm.trans hheader)
  obtain ⟨v, hv, hrun⟩ := Machine.exec_loop_eq_ok_iff.1 hexec
  obtain ⟨ks, hks, hlt, hvisits, hskip⟩ := h.visits values mem v hstands hv
  -- each visit adds what the inner loops add at its value
  have hall : c.Adds m n.names mem mem'
      (ks.flatMap fun k => m.forAll (c.contributes m before t) rest (values.bind i.name k)) := by
    refine adds_of_visits (hvisits.imp fun indices k hvisit => ⟨hvisit.1, ?_⟩) hstands.laid hrun
    intro mem₀ mem₁ hkept hlaid hmem₁
    exact (hinner _ _ _ _ (hvisit.2 mem₀ hkept hlaid) hinner' hmem₁).mono h.names
  refine hall.sameSums (SameSums.flatMap_range hks hlt fun k hk hnot => ?_)
  -- at a value that is left out every product has an operand that is zero
  refine sameSums_forAll_nil fun values' hsame => ?_
  rw [contributes, hskip k hk hnot values' fun j hj => hsame j.name fun l hl heq => ?_]
  · exact sameSums_zeros _
  · have hnodup := hf.nodup
    rw [hindices, ← List.singleton_append, ← List.append_assoc, List.map_append] at hnodup
    exact (List.nodup_append.1 hnodup).2.2 _ (List.mem_map_of_mem hj) _ (List.mem_map_of_mem hl)
      heq.symm

end

/-! ## Binding an index -/

omit [Scalar α] in
theorem place_bind {operand : IndexedTensor} {i : IndexVar} (k : Nat)
    (hnew : ∀ j ∈ operand.indices, j.name ≠ i.name) :
    operand.place (values.bind i.name k) = operand.place values := by
  refine List.map_congr_left fun j hj => ?_
  rw [IndexValues.bind_of_ne (hnew j hj)]

omit [Scalar α] in
/-- A position stays where it is found as long as its variable is kept. -/
theorem FoundAt.kept {p : PatternRef} {place : List Int} {var : VarName}
    (h : FoundAt m mem p place var) (hkept : mem.KeptBelow number c.target mem')
    (hvar : GivenOut number var) : FoundAt m mem' p place var := by
  obtain ⟨q, k, hq, hk, hlocal⟩ := h
  exact ⟨q, k, hq, hk, (hkept.givenOut hvar).trans hlocal⟩

omit [Scalar α] in
theorem Memory.get?_withIndices {indices : List (VarName × Nat)}
    (hnodup : (indices.map Prod.fst).Nodup) {e : VarName × Nat} (he : e ∈ indices) (mem : Memory α) :
    (mem.withIndices indices).locals.get? e.1 = some (.ofCount e.2) := by
  induction indices generalizing mem with
  | nil => cases he
  | cons first rest ih =>
      obtain ⟨hfirst, hrest⟩ := List.nodup_cons.1 hnodup
      rcases List.mem_cons.1 he with rfl | he
      · have hkept : (mem.withLocal e.1 (.ofCount e.2)).Changes [] (rest.map Prod.fst)
            ((mem.withLocal e.1 (.ofCount e.2)).withIndices rest) :=
          Machine.changes_withIndices rest fun e' he' => List.mem_map_of_mem he'
        refine (hkept.local_eq List.not_mem_nil hfirst).trans ?_
        simp [Memory.withLocal, Table.get?_insert]
      · exact ih hrest he _

/-- A position that a nest notes has been noted before or comes with the visit. -/
theorem noted_of_foldl {found : List (Nat × VarName × Nat)} {positions : Table Nat VarName}
    {place : Nat} {pos : VarName}
    (h : (found.foldl (fun table e => table.insert e.1 e.2.1) positions).get? place = some pos) :
    positions.get? place = some pos ∨ ∃ k, (place, pos, k) ∈ found := by
  induction found generalizing positions with
  | nil => exact Or.inl h
  | cons e rest ih =>
      obtain ⟨place', pos', k⟩ := e
      rcases ih h with h | ⟨k', hk'⟩
      · rw [Table.get?_insert] at h
        split at h
        · next heq =>
            obtain rfl := Option.some.inj h
            obtain rfl : place' = place := by simpa using heq
            exact Or.inr ⟨k, List.mem_cons_self ..⟩
        · exact Or.inl h
      · exact Or.inr ⟨k', List.mem_cons_of_mem _ hk'⟩

/-- Inside one more loop a memory stands at one more value, and at the positions that the visit gives
    for it. -/
theorem Stands.bindIndex (h : c.Stands t m before position n done values mem) {i : IndexVar}
    {n₁ : Nest α} {var : VarName} {k : Nat} {visit : List (VarName × Nat)}
    (hnew : ∀ j ∈ done, j.name ≠ i.name) (hk : k < m.count i.domain) (hnames : n.names ≤ n₁.names)
    (hbindings : n₁.bindings = n.bindings.insert i.name var) (hvar : GivenOut n₁.names var)
    (hfresh : ∀ e ∈ visit, ∃ base number, e.1 = freshName base number ∧ n.names < number)
    (hkept : mem.KeptBelow n.names c.target mem') (hlaid : m.Laid c.storages mem')
    (hlocal : (mem'.withIndices visit).locals.get? var = some (.ofCount k))
    (hplaced : ∀ place pos, n₁.positions.get? place = some pos →
      n.positions.get? place = some pos ∨ GivenOut n₁.names pos ∧
        ∃ operand p, (place, operand) ∈ t.tensors ∧ c.storages.pattern? operand.tensor = some p ∧
          (∀ j ∈ operand.indices, j ∈ done ++ [i]) ∧
          FoundAt m (mem'.withIndices visit) p (operand.place (values.bind i.name k)) pos) :
    c.Stands t m before position n₁ (done ++ [i]) (values.bind i.name k) (mem'.withIndices visit) := by
  have hkept : mem.KeptBelow n.names c.target (mem'.withIndices visit) :=
    hkept.trans (Memory.KeptBelow.withIndices hfresh mem')
  refine ⟨fun j hj => ?bound, fun name other hother => ?only, fun j hj => ?within,
    fun place pos hpos => ?placed, fun pos hpos => ?target, ?kept, ?laid⟩
  case bound =>
    rw [hbindings]
    rcases List.mem_append.1 hj with hj | hj
    · obtain ⟨other, hother, hgiven, hvalue⟩ := h.bound j hj
      refine ⟨other, ?_, hgiven.mono hnames, ?_⟩
      · simpa [Table.get?_insert, (hnew j hj).symm] using hother
      · rw [hkept.givenOut hgiven, hvalue, IndexValues.bind_of_ne (hnew j hj)]
    · obtain rfl := List.mem_singleton.1 hj
      exact ⟨var, by simp [Table.get?_insert], hvar, by rw [hlocal, IndexValues.bind_self]⟩
  case only =>
    by_cases hname : i.name = name
    · exact ⟨i, List.mem_append_right _ (List.mem_singleton_self i), hname⟩
    · have hother : n.bindings.get? name = some other := by
        simpa [hbindings, Table.get?_insert, hname] using hother
      obtain ⟨j, hj, hname⟩ := h.only name other hother
      exact ⟨j, List.mem_append_left _ hj, hname⟩
  case within =>
    rcases List.mem_append.1 hj with hj | hj
    · rw [IndexValues.bind_of_ne (hnew j hj)]
      exact h.within j hj
    · obtain rfl := List.mem_singleton.1 hj
      rwa [IndexValues.bind_self]
  case placed =>
    rcases hplaced place pos hpos with hpos | hpos
    · obtain ⟨hgiven, operand, p, hoperand, hp, hdone, hfound⟩ := h.placed place pos hpos
      refine ⟨hgiven.mono hnames, operand, p, hoperand, hp,
        fun j hj => List.mem_append_left _ (hdone j hj), ?_⟩
      rw [place_bind k fun j hj => hnew j (hdone j hj)]
      exact hfound.kept hkept hgiven
    · exact hpos
  case target =>
    obtain ⟨hgiven, p, hp, hfree, hfound⟩ := h.target pos hpos
    refine ⟨hgiven.mono hnames, p, hp, fun j hj => List.mem_append_left _ (hfree j hj), ?_⟩
    have hplace : (c.free.map fun j => ((values.bind i.name k) j.name : Int)) =
        c.free.map fun j => (values j.name : Int) :=
      List.map_congr_left fun j hj => by rw [IndexValues.bind_of_ne (hnew j (hfree j hj))]
    rw [hplace]
    exact hfound.kept hkept hgiven
  case kept => exact h.kept.trans (hkept.mono (Nat.zero_le _))
  case laid =>
    exact hlaid.changes (Machine.changes_withIndices _ fun e he => List.mem_map_of_mem he)

/-! ## Entries that are not stored -/

theorem Runs.stores_eq (hr : c.Runs a m before) {tensor : VarName} {type : TensorType}
    {p : PatternRef} {q : Pattern} (htype : m.func.varType? tensor = some (.tensor type))
    (hp : c.storages.pattern? tensor = some p) (hq : m.resolution.pattern p = .ok q)
    (place : List Int) : m.stores before tensor place = (q.positionAt? place).isSome := by
  obtain ⟨s, hs, hkind⟩ := Table.pattern?_eq_some_iff.1 hp
  obtain ⟨s', b, hs', _, hb, hshaped⟩ :=
    hr.laid.shaped (hr.storages ▸ hr.accesses.describes) htype
  obtain rfl : s = s' := Option.some.inj (hs.symm.trans hs')
  simp only [Machine.stores, Func.tensorType?, htype, ValueType.asTensor?, Option.bind_some, hb]
  obtain ⟨q', values, rfl, _, hq', _⟩ := hshaped.of_sparse hkind
  obtain rfl := Except.ok.inj (hq.symm.trans hq')
  rfl

theorem term?_of_not_stores {place : Nat} {operand : IndexedTensor} {block : BlockShape}
    (hoperand : (place, operand) ∈ t.tensors)
    (h : m.stores before operand.tensor (operand.place values) = false) :
    m.term? before block t values = some (.zeros block) := by
  refine if_neg fun hall => ?_
  have hstored : m.stores before operand.tensor (operand.place values) = true :=
    List.all_eq_true.1 hall _ hoperand
  rw [h] at hstored
  cases hstored

/-! ## Loops over rows -/

/-- A sparse operand at a bound row, the column being an index that is to be bound. -/
structure Drives (c : Contraction) (m : Machine α) (t : Term α) (done : List IndexVar)
    (i : IndexVar) (place : Nat) (p : PatternRef) (q : Pattern) (operand : IndexedTensor)
    (row : IndexVar) : Prop where
  /-- It is an operand of the term. -/
  mem : (place, operand) ∈ t.tensors
  /-- Its indices are the row and the column. -/
  indices : operand.indices = [row, i]
  /-- Its pattern. -/
  pattern : c.storages.pattern? operand.tensor = some p
  /-- What that stands for. -/
  resolved : m.resolution.pattern p = .ok q
  /-- The row is bound. -/
  row : row ∈ done

omit [Scalar α] in
theorem mem_drivers {index rowName : String} {place : Nat} {tensor : VarName} {p : PatternRef}
    (h : (place, tensor, rowName, p) ∈ c.drivers n t index) :
    ∃ operand row col, (place, operand) ∈ t.tensors ∧ operand.indices = [row, col] ∧
      c.storages.pattern? operand.tensor = some p ∧ row.name = rowName ∧ col.name = index ∧
      n.bindings.contains rowName = true := by
  obtain ⟨⟨place', operand⟩, hoperand, hdriver⟩ := List.mem_filterMap.1 h
  dsimp only at hdriver
  split at hdriver
  · next row col p' hindices hpattern =>
      split at hdriver
      · next hcondition =>
          obtain ⟨rfl, rfl, rfl, rfl⟩ : place' = place ∧ operand.tensor = tensor ∧
              row.name = rowName ∧ p' = p := by simpa using hdriver
          simp only [Bool.and_eq_true, beq_iff_eq] at hcondition
          exact ⟨operand, row, col, hoperand, hindices, hpattern, rfl, hcondition.1.1.2,
            hcondition.2⟩
      · cases hdriver
  · cases hdriver

omit [Scalar α] in
theorem Fits.eq_of_name (hf : c.Fits m t) {i j : IndexVar} (hi : i ∈ c.indices t)
    (hj : j ∈ c.indices t) (h : i.name = j.name) : i = j :=
  List.inj_on_of_nodup_map hf.nodup hi hj h

theorem Stands.drives (h : c.Stands t m before position n done values mem) (hf : c.Fits m t)
    (hdone : ∀ j ∈ done, j ∈ c.indices t) {i : IndexVar} (hi : i ∈ c.indices t) {rowName : String}
    {place : Nat} {tensor : VarName} {p : PatternRef} {q : Pattern}
    (hdriver : (place, tensor, rowName, p) ∈ c.drivers n t i.name)
    (hq : m.resolution.pattern p = .ok q) :
    ∃ operand row, c.Drives m t done i place p q operand row ∧ row.name = rowName := by
  obtain ⟨operand, row, col, hoperand, hindices, hp, hrow, hcol, hbound⟩ := mem_drivers hdriver
  have hcovered := hf.covered place operand hoperand
  rw [hindices] at hcovered
  obtain rfl := hf.eq_of_name (hcovered col (by simp)) hi hcol
  obtain ⟨var, hvar⟩ := Option.isSome_iff_exists.1 hbound
  obtain ⟨j, hj, hname⟩ := h.only rowName var hvar
  obtain rfl := hf.eq_of_name (hcovered row (by simp)) (hdone j hj) (hrow.trans hname.symm)
  exact ⟨operand, row, ⟨hoperand, hindices, hp, hq, hj⟩, hrow⟩

theorem Stands.rowOf_eq (h : c.Stands t m before position n done values mem) (hf : c.Fits m t)
    (hdone : ∀ j ∈ done, j ∈ c.indices t) {row : IndexVar} (hrow : row ∈ done) {e : Expr α}
    {p : PatternRef} {q : Pattern} {x : Nat} (he : n.index row.name = .ok e)
    (hx : m.rowOf mem p q e = .ok x) : x = values row.name ∧ x < q.rows := by
  obtain ⟨var, hvar, rfl⟩ := Option.map_eq_some_iff.1 (Outcome.orFail_eq_ok_iff.1 he)
  obtain ⟨found, hfound, _, hlocal⟩ := h.bound row hrow
  obtain rfl : var = found := Option.some.inj (hvar.symm.trans hfound)
  obtain ⟨v, hv, hindex⟩ := Outcome.bind_eq_ok_iff.1 hx
  rw [Machine.eval, Memory.read, hlocal] at hv
  obtain rfl := Except.ok.inj hv
  obtain ⟨hvalue, hlt⟩ := Machine.asIndex_eq_ok hindex
  rw [h.ofCount_eq hf hdone hrow] at hvalue
  exact ⟨(Int.ofNat.inj hvalue).symm, hlt⟩

namespace Drives

variable {i row : IndexVar} {place : Nat} {p : PatternRef} {q : Pattern} {operand : IndexedTensor}

theorem valid (h : c.Drives m t done i place p q operand row) (hr : c.Runs a m before) :
    q.Valid :=
  hr.accesses.describes.patterns.valid h.resolved

omit [Scalar α] in
theorem bound (h : c.Drives m t done i place p q operand row) :
    ∀ j ∈ operand.indices, j ∈ done ++ [i] := by
  rw [h.indices]
  intro j hj
  rcases List.mem_cons.1 hj with rfl | hj
  · exact List.mem_append_left _ h.row
  · exact List.mem_append_right _ hj

theorem count_eq (h : c.Drives m t done i place p q operand row) (hr : c.Runs a m before)
    (hf : c.Fits m t) : m.count i.domain = q.cols := by
  obtain ⟨_, type, htype, hdims⟩ := hf.operand place operand h.mem
  obtain ⟨s, hs, hkind⟩ := Table.pattern?_eq_some_iff.1 h.pattern
  have hsparse := hr.accesses.describes.sparse _ type s p htype (hr.storages.symm ▸ hs) hkind
  rw [h.indices, hsparse] at hdims
  obtain ⟨_, hdomain⟩ : row.domain = .set p.rows ∧ i.domain = .set p.cols := by simpa using hdims
  rw [hdomain]
  exact Machine.count_eq (hr.sized _ p q h.pattern h.resolved).2

/-- Where the row has a column, the noted position is that of the operand's entry. -/
theorem placed (h : c.Drives m t done i place p q operand row) (hr : c.Runs a m before)
    (hnew : ∀ j ∈ done, j.name ≠ i.name) {k position : Nat} {var : VarName}
    (hvar : GivenOut number var) (hentry : (values row.name, k, position) ∈ q.entries)
    (hlocal : mem.locals.get? var = some (.ofCount position)) :
    GivenOut number var ∧ ∃ operand p, (place, operand) ∈ t.tensors ∧
      c.storages.pattern? operand.tensor = some p ∧ (∀ j ∈ operand.indices, j ∈ done ++ [i]) ∧
      FoundAt m mem p (operand.place (values.bind i.name k)) var := by
  refine ⟨hvar, operand, p, h.mem, h.pattern, h.bound, q, position, h.resolved, ?_, hlocal⟩
  rw [IndexedTensor.place, h.indices, List.map_cons, List.map_cons, List.map_nil,
    IndexValues.bind_self, IndexValues.bind_of_ne (hnew row h.row)]
  exact (h.valid hr).positionAt?_eq_some_iff.2 hentry

/-- Where the row lacks a column, the term is zero. -/
theorem term?_eq_zeros (h : c.Drives m t done i place p q operand row) (hr : c.Runs a m before)
    (hf : c.Fits m t) (hnew : ∀ j ∈ done, j.name ≠ i.name) {k : Nat}
    (hrow : values row.name < q.rows) (hk : k ∉ q.row (values row.name)) {values' : IndexValues}
    (hvalues : ∀ j ∈ done ++ [i], values' j.name = values.bind i.name k j.name) :
    m.term? before c.type.block t values' = some (.zeros c.type.block) := by
  obtain ⟨_, type, htype, _⟩ := hf.operand place operand h.mem
  refine term?_of_not_stores h.mem ?_
  rw [hr.stores_eq htype h.pattern h.resolved, IndexedTensor.place, h.indices, List.map_cons,
    List.map_cons, List.map_nil, hvalues row (List.mem_append_left _ h.row),
    hvalues i (List.mem_append_right _ (List.mem_singleton_self i)), IndexValues.bind_self,
    IndexValues.bind_of_ne (hnew row h.row), Option.isSome_eq_false_iff, Option.isNone_iff_eq_none,
    Option.eq_none_iff_forall_ne_some]
  intro position hposition
  have hentry := (h.valid hr).positionAt?_eq_some_iff.1 hposition
  exact hk ((Pattern.mem_row_iff_entries hrow).2 ⟨position, hentry⟩)

end Drives

/-! ## Driven loops -/

/-- **A visit of a loop** binds its index and notes a position for every operand that drives it. The
    names are fresh, and where each operand stores an entry in the column that is bound, a memory
    inside the loop stands at the new value. -/
theorem Stands.bindDriven (h : c.Stands t m before position n done values mem)
    (hr : c.Runs a m before) (found : List (Nat × VarName × Nat)) {i : IndexVar} {n₁ : Nest α}
    {var : VarName} {k : Nat} (hnew : ∀ j ∈ done, j.name ≠ i.name)
    (hk : k < m.count i.domain) (hvar : var = freshName i.name (n.names + 1))
    (hnames : n.names + 1 ≤ n₁.names) (hbindings : n₁.bindings = n.bindings.insert i.name var)
    (hpositions : n₁.positions =
      found.foldl (fun table e => table.insert e.1 e.2.1) n.positions)
    (hnodup : (found.map fun e => e.2.1).Nodup)
    (hfresh : ∀ e ∈ found, ∃ base number, e.2.1 = freshName base number ∧
      n.names + 1 < number ∧ number ≤ n₁.names)
    (hfound : ∀ e ∈ found, ∃ p q operand row, c.Drives m t done i e.1 p q operand row ∧
      (values row.name, k, e.2.2) ∈ q.entries) :
    (∀ e ∈ (var, k) :: found.map Prod.snd, ∃ base number,
      e.1 = freshName base number ∧ n.names < number) ∧
    ∀ mem', mem.KeptBelow n.names c.target mem' → m.Laid c.storages mem' →
      c.Stands t m before position n₁ (done ++ [i]) (values.bind i.name k)
        (mem'.withIndices ((var, k) :: found.map Prod.snd)) := by
  have hnames' : ∀ e ∈ (var, k) :: found.map Prod.snd, ∃ base number,
      e.1 = freshName base number ∧ n.names < number := by
    intro e he
    rcases List.mem_cons.1 he with rfl | he
    · exact ⟨i.name, _, hvar, Nat.lt_succ_self _⟩
    · obtain ⟨entry, hentry, rfl⟩ := List.mem_map.1 he
      obtain ⟨base, number, hname, hlt, _⟩ := hfresh entry hentry
      exact ⟨base, number, hname, Nat.lt_of_succ_lt hlt⟩
  have hdistinct : (((var, k) :: found.map Prod.snd).map Prod.fst).Nodup := by
    rw [List.map_cons, List.map_map]
    refine List.nodup_cons.2 ⟨fun hmem => ?_, hnodup⟩
    obtain ⟨entry, hentry, heq⟩ := List.mem_map.1 hmem
    obtain ⟨base, number, hname, hlt, _⟩ := hfresh entry hentry
    exact absurd (freshName_inj (hname.symm.trans (heq.trans hvar))) hlt.ne'
  refine ⟨hnames', fun mem' hkept hlaid => ?_⟩
  have hlocal := fun e he => Memory.get?_withIndices hdistinct (e := e) he mem'
  refine h.bindIndex hnew hk (Nat.le_of_succ_le hnames) hbindings ⟨i.name, _, hvar, hnames⟩ hnames'
    hkept hlaid (hlocal _ (List.mem_cons_self ..)) fun place pos hplace => ?_
  rw [hpositions] at hplace
  rcases noted_of_foldl hplace with hplace | ⟨position', hmem⟩
  · exact Or.inl hplace
  · obtain ⟨base, number, hname, _, hle⟩ := hfresh _ hmem
    obtain ⟨p, q, operand, row, hdrives, hentry⟩ := hfound _ hmem
    exact Or.inr (hdrives.placed hr hnew ⟨base, number, hname, hle⟩ hentry
      (hlocal _ (List.mem_cons_of_mem _ (List.mem_map_of_mem hmem))))

/-- Where nothing drives the loop, it goes through all values. -/
theorem advances_range (hr : c.Runs a m before) {i : IndexVar} {n₁ : Nest α} {var : VarName}
    (hnew : ∀ j ∈ done, j.name ≠ i.name) (hvar : var = freshName i.name (n.names + 1))
    (hn₁ : n₁ = ⟨n.names + 1, n.bindings.insert i.name var, n.positions,
      n.loops ++ [.range var i.domain]⟩) :
    c.Advances a m t before position n n₁ (.range var i.domain) done i where
  loops := by rw [hn₁]
  names := by rw [hn₁]; exact Nat.le_succ _
  lowered := rfl
  visits values mem v hstands hv := by
    obtain ⟨count, hcount, rfl⟩ := Machine.visits_range_eq_ok_iff.1 hv
    have hcount : m.count i.domain = count := Machine.count_eq hcount
    refine ⟨List.range count, List.pairwise_lt_range, fun k hk => ?_, ?_, fun k hk hnot => ?_⟩
    · rw [hcount]
      exact List.mem_range.1 hk
    · rw [Visits.toList_below, List.forall₂_map_left_iff, List.forall₂_same]
      intro k hk
      subst hn₁
      exact hstands.bindDriven hr [] hnew (hcount ▸ List.mem_range.1 hk) hvar
        (Nat.le_refl _) rfl rfl List.nodup_nil nofun nofun
    · exact absurd (List.mem_range.2 (hcount ▸ hk)) hnot

/-- A row drives the loop. -/
theorem advances_row (hr : c.Runs a m before) (hf : c.Fits m t)
    (hdone : ∀ j ∈ done, j ∈ c.indices t) {i : IndexVar} (hi : i ∈ c.indices t)
    (hnew : ∀ j ∈ done, j.name ≠ i.name) {place : Nat} {tensor : VarName} {rowName : String}
    {p : PatternRef} (hdriver : (place, tensor, rowName, p) ∈ c.drivers n t i.name) {e : Expr α}
    (he : n.index rowName = .ok e) {n₁ : Nest α} {var pos : VarName}
    (hvar : var = freshName i.name (n.names + 1))
    (hpos : pos = freshName (positionBase tensor) (n.names + 2))
    (hn₁ : n₁ = ⟨n.names + 2, n.bindings.insert i.name var, n.positions.insert place pos,
      n.loops ++ [.row p e var pos]⟩) :
    c.Advances a m t before position n n₁ (.row p e var pos) done i where
  loops := by rw [hn₁]
  names := by rw [hn₁]; exact Nat.le_add_right _ _
  lowered := by
    obtain ⟨rowVar, _, rfl⟩ := Option.map_eq_some_iff.1 (Outcome.orFail_eq_ok_iff.1 he)
    rfl
  visits values mem v hstands hv := by
    obtain ⟨q, x, hq, hx, rfl⟩ := Machine.visits_row_eq_ok_iff.1 hv
    obtain ⟨operand, row, hdrives, rfl⟩ := hstands.drives hf hdone hi hdriver hq
    obtain ⟨rfl, hlt⟩ := hstands.rowOf_eq hf hdone hdrives.row he hx
    have hvalid := hdrives.valid hr
    have hcount := hdrives.count_eq hr hf
    have hcols : (q.rowEntries (values row.name)).map (fun entry => entry.2.1) =
        q.row (values row.name) := by
      rw [Pattern.rowEntries, List.map_map]
      exact List.zipIdx_map_fst ..
    refine ⟨q.row (values row.name), hvalid.ascending _ hlt,
      fun k hk => hcount ▸ hvalid.bounded _ hlt k hk, ?_,
      fun k hk hnot values' => hdrives.term?_eq_zeros hr hf hnew hlt hnot⟩
    rw [Visits.toList_ofList, ← hcols, List.forall₂_map_left_iff, List.forall₂_map_right_iff,
      List.forall₂_same]
    rintro ⟨x, k, position'⟩ hentry
    have hentry : (values row.name, k, position') ∈ q.entries := by
      obtain ⟨rfl, hrest⟩ := Pattern.mem_rowEntries_iff.1 hentry
      exact Pattern.mem_entries_iff.2 ⟨hlt, hrest⟩
    subst hn₁
    refine hstands.bindDriven hr [(place, pos, position')] hnew
      (hcount ▸ hvalid.col_lt hentry) hvar (Nat.le_succ _) rfl rfl (List.nodup_singleton _) ?_ ?_
    · exact List.forall_mem_singleton.2 ⟨_, _, hpos, Nat.lt_succ_self _, Nat.le_refl _⟩
    · exact List.forall_mem_singleton.2 ⟨p, q, operand, row, hdrives, hentry⟩

/-- Two rows drive the loop together. -/
theorem advances_intersect (hr : c.Runs a m before) (hf : c.Fits m t)
    (hdone : ∀ j ∈ done, j ∈ c.indices t) {i : IndexVar} (hi : i ∈ c.indices t)
    (hnew : ∀ j ∈ done, j.name ≠ i.name) {leftPlace rightPlace : Nat} {leftTensor rightTensor : VarName}
    {leftName rightName : String} {left right : PatternRef}
    (hleft : (leftPlace, leftTensor, leftName, left) ∈ c.drivers n t i.name)
    (hright : (rightPlace, rightTensor, rightName, right) ∈ c.drivers n t i.name)
    {leftRow rightRow : Expr α} (hleftRow : n.index leftName = .ok leftRow)
    (hrightRow : n.index rightName = .ok rightRow) {n₁ : Nest α} {var leftPos rightPos : VarName}
    (hvar : var = freshName i.name (n.names + 1))
    (hleftPos : leftPos = freshName (positionBase leftTensor) (n.names + 2))
    (hrightPos : rightPos = freshName (positionBase rightTensor) (n.names + 3))
    (hn₁ : n₁ = ⟨n.names + 3, n.bindings.insert i.name var,
      (n.positions.insert leftPlace leftPos).insert rightPlace rightPos,
      n.loops ++ [.intersect left right leftRow rightRow var leftPos rightPos]⟩) :
    c.Advances a m t before position n n₁
      (.intersect left right leftRow rightRow var leftPos rightPos) done i where
  loops := by rw [hn₁]
  names := by rw [hn₁]; exact Nat.le_add_right _ _
  lowered := by
    obtain ⟨_, _, rfl⟩ := Option.map_eq_some_iff.1 (Outcome.orFail_eq_ok_iff.1 hleftRow)
    obtain ⟨_, _, rfl⟩ := Option.map_eq_some_iff.1 (Outcome.orFail_eq_ok_iff.1 hrightRow)
    rfl
  visits values mem v hstands hv := by
    obtain ⟨l, r, x, y, hl, hr', hx, hy, rfl⟩ := Machine.visits_intersect_eq_ok_iff.1 hv
    obtain ⟨leftOperand, row, hdrives, rfl⟩ := hstands.drives hf hdone hi hleft hl
    obtain ⟨rightOperand, row', hdrives', rfl⟩ := hstands.drives hf hdone hi hright hr'
    obtain ⟨rfl, hlt⟩ := hstands.rowOf_eq hf hdone hdrives.row hleftRow hx
    obtain ⟨rfl, hlt'⟩ := hstands.rowOf_eq hf hdone hdrives'.row hrightRow hy
    have hvalid := hdrives.valid hr
    have hcount := hdrives.count_eq hr hf
    have hcols : (intersect (l.row (values row.name)) (r.row (values row'.name))).map
        SharedColumn.col = (l.row (values row.name)).filter (· ∈ r.row (values row'.name)) :=
      map_col_intersectFrom (hvalid.ascending _ hlt) ((hdrives'.valid hr).ascending _ hlt') 0 0
    refine ⟨(l.row (values row.name)).filter (· ∈ r.row (values row'.name)),
      (hvalid.ascending _ hlt).filter _,
      fun k hk => hcount ▸ hvalid.bounded _ hlt k (List.mem_filter.1 hk).1, ?_,
      fun k hk hnot values' hvalues => ?_⟩
    · rw [Visits.toList_ofList, ← hcols, List.forall₂_map_left_iff, List.forall₂_map_right_iff,
        List.forall₂_same]
      intro shared hshared
      obtain ⟨i₁, j₁, hi₁, hj₁, hcolLeft, hcolRight⟩ := getElem?_of_mem_intersectFrom hshared
      rw [Nat.zero_add] at hi₁ hj₁
      have hentry : (values row.name, shared.col, l.start (values row.name) + shared.left) ∈
          l.entries := hi₁ ▸ Pattern.mem_entries_of_getElem?_row hlt hcolLeft
      have hentry' : (values row'.name, shared.col, r.start (values row'.name) + shared.right) ∈
          r.entries := hj₁ ▸ Pattern.mem_entries_of_getElem?_row hlt' hcolRight
      have hne : leftPos ≠ rightPos := fun heq =>
        absurd (freshName_inj (hleftPos.symm.trans (heq.trans hrightPos))) (by omega)
      subst hn₁
      refine hstands.bindDriven hr [(leftPlace, leftPos, l.start (values row.name) + shared.left),
        (rightPlace, rightPos, r.start (values row'.name) + shared.right)] hnew
        (hcount ▸ hvalid.col_lt hentry) hvar (Nat.add_le_add_left (by decide) _) rfl rfl ?_ ?_ ?_
      · exact List.nodup_cons.2 ⟨by simpa using hne, List.nodup_singleton _⟩
      · exact List.forall_mem_cons.2 ⟨⟨_, _, hleftPos, Nat.lt_succ_self _, Nat.le_succ _⟩,
          List.forall_mem_singleton.2 ⟨_, _, hrightPos, by omega, Nat.le_refl _⟩⟩
      · exact List.forall_mem_cons.2 ⟨⟨left, l, leftOperand, row, hdrives, hentry⟩,
          List.forall_mem_singleton.2 ⟨right, r, rightOperand, row', hdrives', hentry'⟩⟩
    · -- a column that one of the rows lacks
      by_cases hmem : k ∈ l.row (values row.name)
      · refine hdrives'.term?_eq_zeros hr hf hnew hlt' (fun hmem' => hnot ?_) hvalues
        exact List.mem_filter.2 ⟨hmem, by simpa using hmem'⟩
      · exact hdrives.term?_eq_zeros hr hf hnew hlt hmem hvalues

/-- The loop over a summed index advances the nest, whatever drives it. -/
theorem advances_of_summedLoop (hr : c.Runs a m before) (hf : c.Fits m t)
    (hdone : ∀ j ∈ done, j ∈ c.indices t) {i : IndexVar} (hi : i ∈ c.indices t)
    (hnew : ∀ j ∈ done, j.name ≠ i.name) {n₁ : Nest α} (h : c.summedLoop n t i = .ok n₁) :
    ∃ header, c.Advances a m t before position n n₁ header done i := by
  obtain ⟨n₂, hdriven, hout⟩ := Outcome.bind_eq_ok_iff.1 h
  obtain rfl := Except.ok.inj hout
  have hdriven : drivenLoop (n.name i.name).1 (n.name i.name).2 i.domain
    (c.drivers n t i.name) = .ok n₂ := hdriven
  obtain ⟨drivers, hdrivers⟩ : ∃ drivers, c.drivers n t i.name = drivers := ⟨_, rfl⟩
  have hmem : ∀ d ∈ drivers, d ∈ c.drivers n t i.name := fun d hd => hdrivers ▸ hd
  rw [hdrivers] at hdriven
  clear hdrivers
  match drivers with
  | [] =>
      obtain rfl := Except.ok.inj hdriven
      exact ⟨_, advances_range hr hnew rfl rfl⟩
  | [(place, tensor, rowName, p)] =>
      obtain ⟨row, hrow, hdriven⟩ := Outcome.bind_eq_ok_iff.1 hdriven
      obtain rfl := Except.ok.inj hdriven
      exact ⟨_, advances_row hr hf hdone hi hnew (hmem _ (by simp)) hrow rfl rfl rfl⟩
  | (leftPlace, leftTensor, leftName, left) :: (rightPlace, rightTensor, rightName, right) :: _ =>
      obtain ⟨leftRow, hleftRow, hdriven⟩ := Outcome.bind_eq_ok_iff.1 hdriven
      obtain ⟨rightRow, hrightRow, hdriven⟩ := Outcome.bind_eq_ok_iff.1 hdriven
      obtain rfl := Except.ok.inj hdriven
      exact ⟨_, advances_intersect hr hf hdone hi hnew (hmem _ (by simp)) (hmem _ (by simp))
        hleftRow hrightRow rfl rfl rfl rfl⟩

/-! ## The loop over the entries of the target -/

/-- The rows and columns of the target's pattern are the values of the free indices. -/
theorem Runs.count_free (hr : c.Runs a m before) (hf : c.Fits m t) {p : PatternRef} {q : Pattern}
    (hkind : c.kind = .sparse p) (hq : m.resolution.pattern p = .ok q) {i j : IndexVar}
    (hfree : c.free = [i, j]) : m.count i.domain = q.rows ∧ m.count j.domain = q.cols := by
  obtain ⟨s, hs, hs'⟩ := hr.kind
  have hsparse := hr.accesses.describes.sparse _ c.type s p hr.target (hr.storages.symm ▸ hs)
    (hs'.trans hkind)
  have hdims := hf.free
  rw [hfree, hsparse] at hdims
  obtain ⟨hi, hj⟩ : i.domain = .set p.rows ∧ j.domain = .set p.cols := by simpa using hdims
  obtain ⟨hrows, hcols⟩ :=
    hr.sized c.target p q (Table.pattern?_eq_some_iff.2 ⟨s, hs, hs'.trans hkind⟩) hq
  rw [hi, hj]
  exact ⟨Machine.count_eq hrows, Machine.count_eq hcols⟩

/-- The nest that notes the position of the target for operands that stand on the same entry. -/
def sharePosition (c : Contraction) (pattern : PatternRef) (position : VarName) (n : Nest α)
    (tensors : List (Nat × IndexedTensor)) : Nest α :=
  tensors.foldl (fun n (place, operand) =>
    if c.indexedByFree operand && c.storages.pattern? operand.tensor == some pattern then
      n.bindPosition place position
    else n) n

omit [Scalar α] in
theorem sharePosition_spec {p : PatternRef} {pos : VarName} (n : Nest α)
    (tensors : List (Nat × IndexedTensor)) :
    (c.sharePosition p pos n tensors).names = n.names ∧
      (c.sharePosition p pos n tensors).bindings = n.bindings ∧
      (c.sharePosition p pos n tensors).loops = n.loops ∧
      ∀ place var, (c.sharePosition p pos n tensors).positions.get? place = some var →
        n.positions.get? place = some var ∨ var = pos ∧ ∃ operand, (place, operand) ∈ tensors ∧
          c.indexedByFree operand = true ∧ c.storages.pattern? operand.tensor = some p := by
  induction tensors generalizing n with
  | nil => exact ⟨rfl, rfl, rfl, fun _ _ h => .inl h⟩
  | cons entry rest ih =>
      obtain ⟨place, operand⟩ := entry
      by_cases hshares : (c.indexedByFree operand &&
          c.storages.pattern? operand.tensor == some p) = true
      · have hstep : c.sharePosition p pos n ((place, operand) :: rest) =
            c.sharePosition p pos (n.bindPosition place pos) rest := by
          simp only [sharePosition, List.foldl_cons, hshares, if_true]
        obtain ⟨hnames, hbindings, hloops, hpositions⟩ := ih (n.bindPosition place pos)
        rw [hstep]
        refine ⟨hnames, hbindings, hloops, fun place' var hvar => ?_⟩
        rcases hpositions place' var hvar with hvar | ⟨rfl, operand', hmem, hrest⟩
        · by_cases hplace : place = place'
          · subst hplace
            obtain rfl : pos = var := by simpa [Nest.bindPosition, Table.get?_insert] using hvar
            obtain ⟨hfree, hp⟩ := Bool.and_eq_true_iff.1 hshares
            exact .inr ⟨rfl, operand, List.mem_cons_self .., hfree, beq_iff_eq.1 hp⟩
          · exact .inl (by simpa [Nest.bindPosition, Table.get?_insert, hplace] using hvar)
        · exact .inr ⟨rfl, operand', List.mem_cons_of_mem _ hmem, hrest⟩
      · have hstep : c.sharePosition p pos n ((place, operand) :: rest) =
            c.sharePosition p pos n rest := by
          simp only [sharePosition, List.foldl_cons, if_neg hshares]
        obtain ⟨hnames, hbindings, hloops, hpositions⟩ := ih n
        rw [hstep]
        exact ⟨hnames, hbindings, hloops, fun place' var hvar =>
          (hpositions place' var hvar).imp_right fun ⟨heq, operand', hmem, hrest⟩ =>
            ⟨heq, operand', List.mem_cons_of_mem _ hmem, hrest⟩⟩

omit [Scalar α] in
/-- An operand whose indices have the names of the free ones has the free indices. -/
theorem Fits.indices_eq_free (hf : c.Fits m t) {place : Nat} {operand : IndexedTensor}
    (hoperand : (place, operand) ∈ t.tensors) (h : c.indexedByFree operand = true) :
    operand.indices = c.free := by
  have hnames : operand.indices.map IndexVar.name = c.free.map IndexVar.name := beq_iff_eq.1 h
  have hcovered := hf.covered place operand hoperand
  have hfree : ∀ i ∈ c.free, i ∈ c.indices t := fun i hi => List.mem_append_left _ hi
  generalize operand.indices = is at hnames hcovered
  generalize c.free = js at hnames hfree
  induction is generalizing js with
  | nil => exact (List.map_eq_nil_iff.1 hnames.symm).symm
  | cons i is ih =>
      cases js with
      | nil => cases hnames
      | cons j js =>
          obtain ⟨hname, hnames⟩ := List.cons.inj hnames
          rw [hf.eq_of_name (hcovered i (by simp)) (hfree j (by simp)) hname,
            ih (fun k hk => hcovered k (List.mem_cons_of_mem _ hk)) js hnames
              fun k hk => hfree k (List.mem_cons_of_mem _ hk)]

theorem stands_start (names : Nat) (values : IndexValues) (hkept : before.KeptBelow 0 c.target mem)
    (hlaid : m.Laid c.storages mem) :
    c.Stands t m before none (Nest.start names) [] values mem where
  bound i hi := by cases hi
  only name var h := by cases h
  within i hi := by cases hi
  placed place var h := by cases h
  target var h := by cases h
  kept := hkept
  laid := hlaid

omit [Scalar α] in
theorem patternLoop_eq_ok {names : Nat} {n₀ : Nest α} {p : PatternRef} {pos : VarName}
    {i j : IndexVar} (hfree : c.free = [i, j])
    (h : c.patternLoop (Nest.start names) p t = .ok (n₀, pos)) :
    ∃ row col, row = freshName i.name (names + 1) ∧ col = freshName j.name (names + 2) ∧
      pos = freshName (positionBase c.target) (names + 3) ∧ n₀.names = names + 3 ∧
      n₀.bindings = (Table.empty.insert i.name row).insert j.name col ∧
      n₀.loops = [.pattern p row col pos] ∧
      ∀ place var, n₀.positions.get? place = some var → var = pos ∧
        ∃ operand, (place, operand) ∈ t.tensors ∧ c.indexedByFree operand = true ∧
          c.storages.pattern? operand.tensor = some p := by
  unfold patternLoop at h
  rw [hfree] at h
  obtain ⟨hn₀, hpos⟩ := Prod.mk.inj (Except.ok.inj h)
  have hn₀ : (c.sharePosition p pos ⟨names + 3, (Table.empty.insert i.name
      (freshName i.name (names + 1))).insert j.name (freshName j.name (names + 2)), Table.empty,
      []⟩ t.tensors).addLoop (.pattern p (freshName i.name (names + 1))
        (freshName j.name (names + 2)) pos) = n₀ := by
    rw [← hn₀, ← hpos]
    rfl
  obtain ⟨hnames, hbindings, hloops, hpositions⟩ := sharePosition_spec (c := c) (p := p)
    (⟨names + 3, (Table.empty.insert i.name (freshName i.name (names + 1))).insert j.name
      (freshName j.name (names + 2)), Table.empty, []⟩ : Nest α) t.tensors
  subst hn₀
  refine ⟨_, _, rfl, rfl, hpos.symm, hnames, hbindings, ?_, fun place var hvar => ?_⟩
  · rw [Nest.addLoop, hloops]
    rfl
  · rcases hpositions place var hvar with hvar | hshared
    · cases hvar
    · exact hshared

/-- Inside the loop over the entries of the target a memory stands at the entry. -/
theorem stands_entry (hr : c.Runs a m before) (hf : c.Fits m t) {i j : IndexVar} {p : PatternRef}
    {q : Pattern} {row col pos : VarName} {x y k : Nat} (hfree : c.free = [i, j])
    (hkind : c.kind = .sparse p) (hq : m.resolution.pattern p = .ok q)
    (hentry : (x, y, k) ∈ q.entries) (hn : n.bindings = (Table.empty.insert i.name row).insert j.name col)
    (hpositions : ∀ place var, n.positions.get? place = some var → var = pos ∧
      ∃ operand, (place, operand) ∈ t.tensors ∧ c.indexedByFree operand = true ∧
        c.storages.pattern? operand.tensor = some p)
    (hrow : GivenOut n.names row) (hcol : GivenOut n.names col) (hpos : GivenOut n.names pos)
    (hlocals : mem.locals.get? row = some (.ofCount x) ∧ mem.locals.get? col = some (.ofCount y) ∧
      mem.locals.get? pos = some (.ofCount k))
    (hkept : before.KeptBelow 0 c.target mem) (hlaid : m.Laid c.storages mem) :
    c.Stands t m before (some pos) n c.free ((IndexValues.none.bind i.name x).bind j.name y) mem := by
  have hne : i.name ≠ j.name := by
    have hnodup := hf.nodup
    rw [indices, hfree] at hnodup
    intro heq
    simp [heq] at hnodup
  have hi : ((IndexValues.none.bind i.name x).bind j.name y) i.name = x := by
    rw [IndexValues.bind_of_ne hne, IndexValues.bind_self]
  have hj : ((IndexValues.none.bind i.name x).bind j.name y) j.name = y := IndexValues.bind_self ..
  have hvalid := hr.accesses.describes.patterns.valid hq
  have hplace : (c.free.map fun l => (((IndexValues.none.bind i.name x).bind j.name y) l.name : Int)) =
      [(x : Int), (y : Int)] := by
    rw [hfree, List.map_cons, List.map_cons, List.map_nil, hi, hj]
  have hfound : FoundAt m mem p [(x : Int), (y : Int)] pos :=
    ⟨q, k, hq, hvalid.positionAt?_eq_some_iff.2 hentry, hlocals.2.2⟩
  obtain ⟨hrows, hcols⟩ := hr.count_free hf hkind hq hfree
  refine ⟨?bound, ?only, ?within, ?placed, ?target, hkept, hlaid⟩
  case bound =>
    rw [hfree, hn]
    intro l hl
    rcases List.mem_cons.1 hl with rfl | hl
    · exact ⟨row, by simp [Table.get?_insert, hne.symm], hrow, by rw [hi]; exact hlocals.1⟩
    · obtain rfl := List.mem_singleton.1 hl
      exact ⟨col, by simp [Table.get?_insert], hcol, by rw [hj]; exact hlocals.2.1⟩
  case only =>
    rw [hfree, hn]
    intro name var hvar
    by_cases hj : j.name = name
    · exact ⟨j, by simp, hj⟩
    · by_cases hi : i.name = name
      · exact ⟨i, by simp, hi⟩
      · simp only [Table.get?_insert, beq_iff_eq, hi, hj, if_false] at hvar
        cases hvar
  case within =>
    rw [hfree]
    intro l hl
    rcases List.mem_cons.1 hl with rfl | hl
    · rw [hi, hrows]
      exact Pattern.row_lt hentry
    · obtain rfl := List.mem_singleton.1 hl
      rw [hj, hcols]
      exact hvalid.col_lt hentry
  case placed =>
    intro place var hvar
    obtain ⟨rfl, operand, hoperand, hindexed, hp⟩ := hpositions place var hvar
    have hindices := hf.indices_eq_free hoperand hindexed
    refine ⟨hpos, operand, p, hoperand, hp, fun l hl => hindices ▸ hl, ?_⟩
    rw [IndexedTensor.place, hindices, hplace]
    exact hfound
  case target =>
    intro var hvar
    obtain rfl := Option.some.inj hvar
    exact ⟨hpos, p, hkind, fun l hl => hl, hplace ▸ hfound⟩

/-! ## Whole nests -/

variable [Scalar.ZeroLaws α] {s : Stmt α}

omit [Scalar α] [Scalar.ZeroLaws α] in
theorem Fits.new {i : IndexVar} (hf : c.Fits m t) (hindices : c.indices t = done ++ i :: rest) :
    ∀ j ∈ done, j.name ≠ i.name := by
  have hnodup := hf.nodup
  rw [hindices, List.map_append] at hnodup
  exact fun j hj => (List.nodup_append.1 hnodup).2.2 _ (List.mem_map_of_mem hj) _
    (List.mem_map_of_mem (List.mem_cons_self ..))

theorem completes_write (hr : c.Runs a m before) (hf : c.Fits m t)
    (hposition : ∀ p, c.kind = .sparse p → position ≠ none) {value : Expr α} {es : List (Expr α)}
    (hvalue : c.termValue n t = .ok value) (hes : n.indices c.free = .ok es) :
    c.Completes a m t before position n n (.tensorWrite c.target es position value true)
      (c.indices t) [] :=
  ⟨[], (List.append_nil _).symm, fun _ _ _ _ hstands hlower hexec =>
    hstands.adds_write hr hf hposition hvalue hes hlower hexec n.names⟩

/-- The loops over the summed indices, by induction from the innermost one outwards. -/
theorem completes_of_summedLoops (hr : c.Runs a m before) (hf : c.Fits m t)
    (hlast : c.Completes a m t before position n' n' s (c.indices t) [])
    (hindices : c.indices t = done ++ rest) (h : c.summedLoops t n rest = .ok n') :
    c.Completes a m t before position n n' s done rest := by
  induction rest generalizing n done with
  | nil =>
      obtain rfl := Except.ok.inj h
      rwa [hindices, List.append_nil] at hlast
  | cons i rest ih =>
      obtain ⟨n₁, hn₁, h⟩ := Outcome.bind_eq_ok_iff.1 h
      have hdone : ∀ j ∈ done, j ∈ c.indices t := fun j hj => hindices ▸ List.mem_append_left _ hj
      have hi : i ∈ c.indices t :=
        hindices ▸ List.mem_append_right _ (List.mem_cons_self ..)
      obtain ⟨header, hadvances⟩ := advances_of_summedLoop hr hf hdone hi (hf.new hindices) hn₁
      exact hadvances.completes (ih (by rw [hindices, List.append_assoc]; rfl) h) hf hindices

theorem completes_of_rangeLoops (hr : c.Runs a m before) (hf : c.Fits m t) {free : List IndexVar}
    (hindices : c.indices t = done ++ (free ++ rest))
    (h : c.Completes a m t before position (rangeLoops n free) n' s (done ++ free) rest) :
    c.Completes a m t before position n n' s done (free ++ rest) := by
  induction free generalizing n done with
  | nil => rwa [List.append_nil] at h
  | cons i free ih =>
      refine (advances_range hr (hf.new hindices) rfl rfl).completes (ih ?_ ?_) hf hindices
      · rw [hindices, List.append_assoc]
        rfl
      · rwa [List.append_assoc]

omit [Scalar.ZeroLaws α] in
/-- Outside the pattern of the target some operand stores nothing. -/
theorem term?_eq_zeros_of_notMem (hr : c.Runs a m before) (hf : c.Fits m t) {p : PatternRef}
    {q : Pattern} (hkind : c.kind = .sparse p) (hq : m.resolution.pattern p = .ok q)
    {i j : IndexVar} (hfree : c.free = [i, j]) {block : BlockShape}
    (h : (values i.name, values j.name) ∉ q.coordinates) :
    m.term? before block t values = some (.zeros block) := by
  obtain ⟨place, operand, p', hoperand, hindexed, hp', hsub⟩ := hf.masked p hkind
  obtain ⟨_, type, htype, _⟩ := hf.operand place operand hoperand
  refine term?_of_not_stores hoperand ?_
  obtain ⟨s, hs, hkind'⟩ := Table.pattern?_eq_some_iff.1 hp'
  obtain ⟨s', b, hs', _, hb, hshaped⟩ :=
    hr.laid.shaped (hr.storages ▸ hr.accesses.describes) htype
  obtain rfl : s = s' := Option.some.inj (hs.symm.trans hs')
  have hbuild := Resolution.pattern_eq_build hr.accesses.describes.patterns
  obtain ⟨q', data, rfl, _, hq', hvalid⟩ := hshaped.of_sparse hkind'
  rw [hr.stores_eq htype hp' hq', IndexedTensor.place, hf.indices_eq_free hoperand hindexed,
    hfree, Option.isSome_eq_false_iff, Option.isNone_iff_eq_none,
    Option.eq_none_iff_forall_ne_some]
  intro k hk
  refine h (Resolution.coordinates_of_subsetOf hr.topologies ((hbuild p).symm.trans hq)
    ((hbuild p').symm.trans hq') hsub ?_)
  exact Pattern.mem_coordinates_iff.2 ⟨k, hvalid.positionAt?_eq_some_iff.1 hk⟩

/-- The entries of the target's pattern are enough: the contributions at all values of the indices
    are those at the entries and zeros. -/
theorem sameSums_entries (hr : c.Runs a m before) (hf : c.Fits m t) {p : PatternRef} {q : Pattern}
    (hkind : c.kind = .sparse p) (hq : m.resolution.pattern p = .ok q) {i j : IndexVar}
    (hfree : c.free = [i, j]) (hindices : c.indices t = c.free ++ rest) :
    SameSums c.type.block
      (q.entries.flatMap fun entry => m.forAll (c.contributes m before t) rest
        ((IndexValues.none.bind i.name entry.1).bind j.name entry.2.1))
      (m.termContributions before c.type.block c.free t) := by
  -- the entries are the columns of one row after another
  obtain ⟨hrows, hcols⟩ := hr.count_free hf hkind hq hfree
  have hvalid := hr.accesses.describes.patterns.valid hq
  show SameSums _ _ (m.forAll (c.contributes m before t) (c.indices t) IndexValues.none)
  rw [hindices, hfree, Pattern.entries, List.flatMap_assoc, ← hrows]
  refine SameSums.flatMap fun x hx => ?_
  have hx : x < q.rows := hrows ▸ List.mem_range.1 hx
  rw [Pattern.flatMap_rowEntries x fun x y => m.forAll (c.contributes m before t) rest
    ((IndexValues.none.bind i.name x).bind j.name y)]
  refine SameSums.flatMap_range (hvalid.ascending x hx)
    (fun y hy => hcols ▸ hvalid.bounded x hx y hy) fun y hy hnot => ?_
  refine sameSums_forAll_nil fun values' hsame => ?_
  have hnodup := hf.nodup
  rw [hindices, hfree, List.map_append, List.nodup_append] at hnodup
  have hfix : ∀ l ∈ [i, j], values' l.name =
      ((IndexValues.none.bind i.name x).bind j.name y) l.name := fun l hl =>
    hsame l.name fun k hk heq => hnodup.2.2 _ (List.mem_map_of_mem hl) _ (List.mem_map_of_mem hk)
      heq.symm
  have hne : i.name ≠ j.name := by
    intro heq
    simp [heq] at hnodup
  rw [contributes, term?_eq_zeros_of_notMem hr hf hkind hq hfree]
  · exact sameSums_zeros _
  · rw [hfix i (by simp), hfix j (by simp), IndexValues.bind_self, IndexValues.bind_of_ne hne,
      IndexValues.bind_self]
    intro hmem
    exact hnot ((Pattern.mem_row_iff_entries hx).2 (Pattern.mem_coordinates_iff.1 hmem))

omit [Scalar.ZeroLaws α] in
theorem Runs.free_eq_pair (hr : c.Runs a m before) (hf : c.Fits m t) {p : PatternRef}
    (hkind : c.kind = .sparse p) : ∃ i j, c.free = [i, j] := by
  obtain ⟨s, hs, hs'⟩ := hr.kind
  have hsparse := hr.accesses.describes.sparse _ c.type s p hr.target (hr.storages.symm ▸ hs)
    (hs'.trans hkind)
  have hlength := congrArg List.length hf.free
  rw [hsparse, List.length_map] at hlength
  exact List.length_eq_two.1 hlength

/-- The nest around the entries of a sparse target. -/
theorem completes_of_patternLoop (hr : c.Runs a m before) (hf : c.Fits m t) {names : Nat}
    {n₀ : Nest α} {p : PatternRef} {pos : VarName} (hkind : c.kind = .sparse p)
    (hpattern : c.patternLoop (Nest.start names) p t = .ok (n₀, pos))
    (hindices : c.indices t = c.free ++ rest)
    (hinner : c.Completes a m t before (some pos) n₀ n' s c.free rest)
    (hkept : before.KeptBelow 0 c.target mem) (hlaid : m.Laid c.storages mem) {out : Stmt α}
    (hlower : a.lowerStmt (n'.wrap s) = .ok out) (hexec : m.exec out mem = .ok mem') :
    c.Adds m names mem mem' (m.termContributions before c.type.block c.free t) := by
  obtain ⟨i, j, hfree⟩ := hr.free_eq_pair hf hkind
  obtain ⟨row, col, hrow, hcol, hpos, hnames, hbindings, hloop, hpositions⟩ :=
    patternLoop_eq_ok hfree hpattern
  obtain ⟨loops, hloops, hinner⟩ := hinner
  rw [Nest.wrap, hloops, hloop, List.singleton_append, List.foldr_cons] at hlower
  obtain ⟨header, inner, hheader, hinner', rfl⟩ := lowerStmt_loop hlower
  obtain rfl := Except.ok.inj hheader
  obtain ⟨v, hv, hrun⟩ := Machine.exec_loop_eq_ok_iff.1 hexec
  obtain ⟨q, hq, rfl⟩ := Machine.visits_pattern_eq_ok_iff.1 hv
  rw [Visits.toList_ofList] at hrun
  have hne : row ≠ col ∧ row ≠ pos ∧ col ≠ pos := by
    rw [hrow, hcol, hpos]
    exact ⟨fun heq => absurd (freshName_inj heq) (by omega),
      fun heq => absurd (freshName_inj heq) (by omega),
      fun heq => absurd (freshName_inj heq) (by omega)⟩
  have hentries : c.Adds m names mem mem' (q.entries.flatMap fun entry =>
      m.forAll (c.contributes m before t) rest
        ((IndexValues.none.bind i.name entry.1).bind j.name entry.2.1)) := by
    refine adds_of_visits ?_ hlaid hrun
    rw [List.forall₂_map_left_iff, List.forall₂_same]
    rintro ⟨x, y, k⟩ hentry
    have hfresh : ∀ e ∈ [(row, x), (col, y), (pos, k)], ∃ base number, e.1 = freshName base number ∧
        names < number :=
      List.forall_mem_cons.2 ⟨⟨i.name, _, hrow, Nat.lt_succ_self _⟩, List.forall_mem_cons.2
        ⟨⟨j.name, _, hcol, Nat.lt_add_of_pos_right (by decide)⟩, List.forall_mem_singleton.2
          ⟨positionBase c.target, _, hpos, Nat.lt_add_of_pos_right (by decide)⟩⟩⟩
    refine ⟨hfresh, fun mem₀ mem₁ hkept₀ hlaid₀ hmem₁ => ?_⟩
    have hstands : c.Stands t m before (some pos) n₀ c.free _
        (mem₀.withIndices [(row, x), (col, y), (pos, k)]) := stands_entry hr hf hfree
      hkind hq hentry hbindings hpositions ⟨i.name, _, hrow, by omega⟩ ⟨j.name, _, hcol, by omega⟩
      ⟨positionBase c.target, _, hpos, by omega⟩
      (by simp [Memory.withIndices, Memory.withLocal, Table.get?_insert, hne.1.symm,
        hne.2.1.symm, hne.2.2.symm])
      (hkept.trans ((hkept₀.trans (Memory.KeptBelow.withIndices hfresh mem₀)).mono (Nat.zero_le _)))
      (hlaid₀.changes (Machine.changes_withIndices _ fun e he => List.mem_map_of_mem he))
    exact (hinner _ _ _ _ hstands hinner' hmem₁).mono (by omega)
  exact hentries.sameSums (sameSums_entries hr hf hkind hq hfree hindices)

/-- **The nest of a term** adds all its contributions. -/
theorem adds_of_lowerTerm (hr : c.Runs a m before) (hf : c.Fits m t) {names names' : Nat}
    (h : c.lowerTerm names t (t.summed c.free) = .ok (names', s)) {out : Stmt α}
    (hlower : a.lowerStmt s = .ok out) (hkept : before.KeptBelow 0 c.target mem)
    (hlaid : m.Laid c.storages mem) (hexec : m.exec out mem = .ok mem') :
    c.Adds m names mem mem' (m.termContributions before c.type.block c.free t) := by
  obtain ⟨outer, position, n, value, es, houter, hsummed, hvalue, hes, rfl, rfl⟩ :=
    lowerTerm_eq_ok h
  have hposition : ∀ p, c.kind = .sparse p → position ≠ none := by
    intro p hkind
    rw [FreeLoops, hkind] at houter
    obtain ⟨place, _, rfl⟩ := houter
    exact Option.some_ne_none place
  have hinner : c.Completes a m t before position outer n _ c.free (t.summed c.free) :=
    completes_of_summedLoops hr hf (completes_write hr hf hposition hvalue hes) rfl hsummed
  have hrange : outer = rangeLoops (Nest.start names) c.free → position = none →
      c.Adds m names mem mem' (m.termContributions before c.type.block c.free t) := by
    rintro rfl rfl
    obtain ⟨loops, hloops, hall⟩ := completes_of_rangeLoops hr hf (List.nil_append _).symm hinner
    rw [Nest.wrap, hloops] at hlower
    exact hall _ _ _ _ (stands_start names IndexValues.none hkept hlaid) hlower hexec
  cases hkind : c.kind with
  | sparse p =>
      rw [FreeLoops, hkind] at houter
      obtain ⟨place, hpattern, rfl⟩ := houter
      exact completes_of_patternLoop hr hf hkind hpattern rfl hinner hkept hlaid hlower hexec
  | dense =>
      rw [FreeLoops, hkind] at houter
      exact hrange houter.1 houter.2
  | register =>
      rw [FreeLoops, hkind] at houter
      exact hrange houter.1 houter.2

end Contraction

end GraphTensor
