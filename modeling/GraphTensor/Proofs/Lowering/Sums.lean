import GraphTensor.Proofs.Lowering.Meaning
set_option autoImplicit false

/-! # Assemblies compute sums

Each entry of an assembled tensor is the sum of what all kernels contribute there, over all elements
in order (`Machine.HoldsSum`): the tensor is cleared before the first assembly into it, and every
write of a kernel adds its contribution to the entry at its indices and leaves all others alone
(`ElementView.Adds`).

Here a kernel is followed for one element, statement by statement. Sums are taken from the left and
compared as they are computed, so that nothing is asked of the numbers, neither that addition is
associative nor that it commutes. -/

namespace GraphTensor

variable {α : Type} [Scalar α]

/-! ## Sums of contributions -/

/-- The sum of the contributions at a tuple of indices, which contributions name as signed words,
    added from the left onto zero, if all contributions have a value. -/
def sumAt? (block : BlockShape) (indices : List Nat)
    (contributions : List (Option (List Int × BlockValue α))) : Option (BlockValue α) :=
  contributions.foldlM (fun sum contribution => do
    let (place, value) ← contribution
    if place = indices.map SignedWord.ofCount then sum.add? value else some sum) (.zeros block)

/-- A tensor holds the sum of contributions at every tuple of indices. -/
def Machine.HoldsSum (m : Machine α) (mem : Memory α) (tensor : VarName) (type : TensorType)
    (contributions : List (Option (List Int × BlockValue α))) : Prop :=
  ∀ extents indices, m.Extents type.dims extents → WithinExtents extents indices →
    ∃ value, m.entryAt? mem tensor (indices.map Nat.cast) = some value ∧
      sumAt? type.block indices contributions = some value

namespace Machine.HoldsSum

variable {m : Machine α} {mem mem' : Memory α} {tensor : VarName} {type : TensorType}
  {contributions : List (Option (List Int × BlockValue α))} {s : TensorStorage} {b : Buffer α}

/-- Only the buffer of the tensor matters. -/
theorem congr (h : m.HoldsSum mem tensor type contributions)
    (hbuffer : mem'.buffers.get? tensor = mem.buffers.get? tensor) :
    m.HoldsSum mem' tensor type contributions := by
  intro extents indices hextents hwithin
  obtain ⟨value, hvalue, hsum⟩ := h extents indices hextents hwithin
  refine ⟨value, ?_, hsum⟩
  rw [← hvalue, entryAt?, entryAt?, hbuffer]

theorem cleared (htype : m.func.varType? tensor = some (.tensor type))
    (hshaped : m.Shaped type.dims s b) (hblock : s.block = type.block) :
    m.HoldsSum (mem.withBuffer tensor b.cleared) tensor type [] := by
  intro extents indices hextents hwithin
  refine ⟨.zeros type.block, ?_, rfl⟩
  rw [entryAt?_eq htype (b := b.cleared) (by simp [Memory.withBuffer, Table.get?_insert]),
    hextents.extents?_eq, Option.getD_some, hshaped.entryAt?_cleared hextents hwithin, hblock]

/-- Adding a block to an entry adds it to the sum there. -/
theorem add (h : m.HoldsSum mem tensor type contributions)
    (htype : m.func.varType? tensor = some (.tensor type)) (hb : mem.buffers.get? tensor = some b)
    (hshaped : m.Shaped type.dims s b) {indices : List Nat} {place : Nat} {value : BlockValue α}
    (hshape : value.shape = s.block)
    (hwords : ∀ extents, m.Extents type.dims extents → ∀ n ∈ extents, n < Word.bound)
    (hwithin : ∀ extents, m.Extents type.dims extents → WithinExtents extents indices)
    (hplace : b.place? ((m.extents? type.dims).getD []) (indices.map Nat.cast) = some place) :
    m.HoldsSum (mem.withBuffer tensor (b.addAt place value)) tensor type
      (contributions ++ [some (indices.map SignedWord.ofCount, value)]) := by
  intro extents indices' hextents hwithin'
  obtain ⟨old, hold, hsum⟩ := h extents indices' hextents hwithin'
  have hwithin := hwithin extents hextents
  rw [hextents.extents?_eq, Option.getD_some] at hplace
  rw [entryAt?_eq htype hb, hextents.extents?_eq, Option.getD_some] at hold
  have hnew := hshaped.entryAt?_addAt hextents hwithin hwithin' hplace hshape
  have hget : (mem.withBuffer tensor (b.addAt place value)).buffers.get? tensor =
      some (b.addAt place value) := by
    simp [Memory.withBuffer, Table.get?_insert]
  rw [entryAt?_eq htype hget, hextents.extents?_eq, Option.getD_some, hnew]
  rw [sumAt?, List.foldlM_append, ← sumAt?, hsum]
  have hcast : indices.map SignedWord.ofCount = indices'.map SignedWord.ofCount ↔
      indices' = indices := by
    constructor
    · exact fun heq => (hwithin.map_ofCount_inj hwithin' (hwords extents hextents) heq).symm
    · exact fun heq => by rw [heq]
  simp only [Option.bind_eq_bind, Option.bind_some, List.foldlM_cons, List.foldlM_nil,
    Option.pure_def, hcast]
  by_cases heq : indices' = indices
  · subst heq
    obtain ⟨next, hnext, _⟩ := (hshaped.sameLayout (b.sameLayout_addAt place value)).exists_entryAt?
      hextents hwithin
    rw [if_pos rfl] at hnew ⊢
    rw [if_pos rfl]
    rw [hold, Option.bind_some] at hnew ⊢
    rw [hnext] at hnew
    exact ⟨next, hnew.symm, by rw [← hnew]; rfl⟩
  · rw [if_neg heq, if_neg heq]
    exact ⟨old, hold, rfl⟩

end Machine.HoldsSum

/-! ## Kernels -/

/-- The positions that the reads in a statement name. -/
def Stmt.positions {α : Type} (s : Stmt α) : List VarName :=
  Expr.positionsOfList s.exprs

theorem Stmt.positions_assign {α : Type} (name : VarName) (value : Expr α) :
    (Stmt.assign name value).positions = value.positions :=
  List.append_nil _

theorem Stmt.positions_accumulate {α : Type} (name : VarName) (value : Expr α) :
    (Stmt.accumulate name value).positions = value.positions :=
  List.append_nil _

theorem Stmt.positions_tensorWrite {α : Type} (target : VarName) (indices : List (Expr α))
    (position : Option VarName) (value : Expr α) (accumulate : Bool) :
    (Stmt.tensorWrite target indices position value accumulate).positions =
      Expr.positionsOfList indices ++ value.positions := by
  simp [Stmt.positions, Stmt.exprs, Expr.positionsOfList]

/-- Every position that a read names is known, or a local that is bound before the read. -/
def Stmt.Placed {α : Type} : (known : List VarName) → List (Stmt α) → Prop
  | _, [] => True
  | known, s :: rest => s.positions ⊆ known ∧ Placed (s.boundName?.toList ++ known) rest

/-- A write to a tensor adds a block to one of its entries: the block that is meant, to the entry at the
    indices that are meant. -/
structure ElementView.Adds (v : ElementView α) (names : Names α) (target : VarName)
    (indices : List (Expr α)) (value : Expr α) (type : TensorType) (storage : TensorStorage)
    (mem mem' : Memory α) (is : List Nat) (b : Buffer α) (entry : Nat) (added : BlockValue α) :
    Prop where
  /-- The indices are meant. -/
  values : v.values? names indices = some (is.map SignedWord.ofCount)
  /-- The block is meant. -/
  written : (v.written? names value).bind (Value.blockAs? type.block) = some added
  /-- The block is one of the tensor. -/
  shape : added.shape = storage.block
  /-- The tensor has the entry. -/
  within : ∀ extents, v.machine.Extents type.dims extents → WithinExtents extents is
  /-- The tensor has a buffer. -/
  buffer : mem.buffers.get? target = some b
  /-- The buffer is laid out for the tensor. -/
  shaped : v.machine.Shaped type.dims storage b
  /-- The entry is one of the buffer. -/
  place : b.place? ((v.machine.extents? type.dims).getD []) (is.map Nat.cast) = some entry
  /-- Nothing else changes. -/
  memory : mem' = mem.withBuffer target (b.addAt entry added)

namespace ElementView.Adds

variable {v : ElementView α} {names : Names α} {target : VarName} {indices : List (Expr α)}
  {value : Expr α} {type : TensorType} {storage : TensorStorage} {mem mem' : Memory α}
  {is : List Nat} {b : Buffer α} {entry : Nat} {added : BlockValue α}

theorem contributions (h : v.Adds names target indices value type storage mem mem' is b entry added)
    (position : Option VarName) (add : Bool) (rest : List (Stmt α)) :
    v.contributions target type.block names
        (.tensorWrite target indices position value add :: rest) =
      some (is.map SignedWord.ofCount, added) :: v.contributions target type.block names rest := by
  obtain ⟨w, hw, hadded⟩ := Option.bind_eq_some_iff.1 h.written
  rw [ElementView.contributions, if_pos rfl]
  simp only [h.values, hw, hadded, Option.bind_eq_bind, Option.bind_some]

theorem holdsSum (h : v.Adds names target indices value type storage mem mem' is b entry added)
    (htype : v.machine.func.varType? target = some (.tensor type))
    (hwords : ∀ extents, v.machine.Extents type.dims extents → ∀ n ∈ extents, n < Word.bound)
    {earlier : List (Option (List Int × BlockValue α))}
    (hsum : v.machine.HoldsSum mem target type earlier) :
    v.machine.HoldsSum mem' target type
      (earlier ++ [some (is.map SignedWord.ofCount, added)]) := by
  rw [h.memory]
  exact hsum.add htype h.buffer h.shaped h.shape hwords h.within h.place

end ElementView.Adds

namespace KernelContext

variable {c : KernelContext} {a : AccessContext α} {f : Func α} {n : Nat} {v : ElementView α}
  {scope : TypeScope α} {positions : List VarName} {names : Names α} {mem mem' : Memory α}

omit [Scalar α] in
/-- Words count the dimensions that a kernel writes along. -/
theorem Watches.extents_lt (h : c.Watches a f n v) {indices : List (Expr α)}
    {dims : List IndexDomain} {roles : List IndexRole} (hfit : c.RolesFit scope indices dims roles)
    {extents : List Nat} (hextents : v.machine.Extents dims extents) :
    ∀ k ∈ extents, k < Word.bound := by
  induction hfit generalizing extents with
  | nil =>
      cases hextents
      simp
  | cons _ _ _ ih =>
      cases hextents with
      | cons hk hrest =>
          intro k hmem
          rcases List.mem_cons.1 hmem with rfl | hmem
          · exact h.words _ _ hk
          · exact ih hrest k hmem

section

variable {target : VarName} {indices : List (Expr α)} {value value' value'' : Expr α}
  {type : TensorType} {roles : List IndexRole} {storage : TensorStorage} {b : Buffer α}
  (h : c.Watches a f n v) (hf : c.Follows scope positions v names mem) (hfunc : scope.func = f)
  (hfits : c.WriteFits scope target indices value type roles storage)
  (htakes : c.Takes scope value (.block type.block) value') (hlower : a.lowerExpr value' = .ok value'')
  (hpositions : value.positions ⊆ positions) (hblock : storage.block = type.block)
  (hb : mem.buffers.get? target = some b) (hshaped : v.machine.Shaped type.dims storage b)

include h hf hfunc hfits htakes hlower hpositions hblock hb hshaped

theorem Watches.adds_store (hknows : c.KnowsKernel scope) {offset : Expr α}
    (hkind : storage.kind = .dense) (hcount : roles.length = type.rank)
    (hoffset : AccessContext.offset type storage.block (roles.map (IndexRole.expr c)) = .ok offset)
    (hexec : v.machine.exec (.store target offset value'' true) mem = .ok mem') :
    ∃ is entry added,
      v.Adds names target indices value type storage mem mem' is b entry added := by
  obtain ⟨xs, w, hindex, hw, hshape, hmem⟩ := Machine.exec_store hkind hb hshaped hoffset
    ((List.length_map _).trans hcount) hexec
  obtain ⟨is, rfl, hvalues, _, hwithin⟩ := h.index_roles hf hfunc hknows hfits.hasRoles hindex
  have hwritten := h.written?_of_eval hf hfunc htakes hlower hpositions hw
  obtain ⟨entry, hplace⟩ : ∃ entry,
      b.place? ((v.machine.extents? type.dims).getD []) (is.map Nat.cast) = some entry := by
    obtain ⟨values, extents, rfl, _, _⟩ := hshaped.of_dense hkind
    exact ⟨_, rfl⟩
  have hadded : (v.written? names value).bind (Value.blockAs? type.block) = some w := by
    rw [hwritten]
    exact Value.blockAs?_of_shape (hshape.trans hblock)
  exact ⟨is, entry, w, hvalues, hadded, hshape, hwithin, hb, hshaped, hplace,
    hmem is entry hwithin rfl hplace⟩

theorem Watches.adds_sparseStore (hknows : c.KnowsKernel scope) {p : PatternRef}
    {row col : IndexRole} (hkind : storage.kind = .sparse p) (hroles : roles = [row, col])
    (hexec : v.machine.exec (.sparseStore target (.locate p (row.expr c) (col.expr c) a.search)
      value'' true storage.block) mem = .ok mem') :
    ∃ is entry added,
      v.Adds names target indices value type storage mem mem' is b entry added := by
  subst hroles
  obtain ⟨q, values, rfl, _, hq, hvalid⟩ := hshaped.of_sparse hkind
  obtain ⟨x, w, hposition, hw, hshape, hmem⟩ := Machine.exec_sparseStore hb hshaped hexec
  obtain ⟨i, j, hindex, hfound⟩ := Machine.eval_locate_eq_ok hq hposition
  obtain ⟨is, hxs, hvalues, hwords, hwithin⟩ :=
    h.index_roles hf hfunc hknows hfits.hasRoles hindex
  have hwritten := h.written?_of_eval hf hfunc htakes hlower hpositions hw
  have hadded : (v.written? names value).bind (Value.blockAs? type.block) = some w := by
    rw [hwritten]
    exact Value.blockAs?_of_shape (hshape.trans hblock)
  -- the search has found a position, since a miss is no integer
  rw [Machine.locateValue_eq hvalid] at hfound
  cases hplace : q.positionAt? [i, j] with
  | none =>
      rw [hplace] at hfound
      cases hfound
  | some entry =>
      rw [hplace] at hfound
      have hcast : q.positionAt? (is.map Nat.cast) = some entry := by
        rw [← Pattern.map_ofCount_of_positionAt? hwords (hxs ▸ hplace), ← hxs]
        exact hplace
      exact ⟨is, entry, w, hxs ▸ hvalues, hadded, hshape, hwithin, hb, hshaped, hcast,
        hmem entry (hvalid.lt_stored_of_positionAt? hplace) (Value.int.inj hfound)⟩

theorem Watches.adds_accumulate (hkind : storage.kind = .register)
    (hvar : ∀ name, value = .var name → mem.buffers.get? name = none)
    (hexec : v.machine.exec (.accumulate target value'') mem = .ok mem') :
    ∃ is entry added,
      v.Adds names target indices value type storage mem mem' is b entry added := by
  obtain ⟨old, rfl, hdims, hshape⟩ := hshaped.of_register hkind
  obtain ⟨data, hdata, hsize, hmem⟩ := Machine.exec_accumulate hb hexec
  obtain ⟨w, hwritten, rfl⟩ :=
    h.written?_of_fillers hf hfunc htakes hlower hpositions hvar hdata
  have hadded : (v.written? names value).bind (Value.blockAs? type.block) =
      some ⟨old.shape, w.data, hsize⟩ := by
    rw [hwritten, Option.bind_some, Value.blockAs?]
    exact Value.blockAs?_of_shape (b := ⟨old.shape, w.data, hsize⟩)
      (hshape.trans hblock)
  have hroles := hfits.hasRoles
  rw [hdims] at hroles
  cases hroles
  refine ⟨[], 0, _, rfl, hadded, hshape, fun extents hextents => ?_, hb,
    hshaped, rfl, hmem⟩
  rw [hdims] at hextents
  cases hextents
  exact .nil

end

/-- **A write**, however its target is stored, adds its contribution to the entry at its indices. -/
theorem Watches.exec_write (h : c.Watches a f n v) (hf : c.Follows scope positions v names mem)
    (hfunc : scope.func = f) (hknows : c.KnowsKernel scope) {target : VarName}
    {indices : List (Expr α)} {value value' : Expr α} {type : TensorType} {roles : List IndexRole}
    {storage : TensorStorage} {s : Stmt α}
    (hfits : c.WriteFits scope target indices value type roles storage)
    (htakes : c.Takes scope value (.block type.block) value')
    (hs : a.lowerStmt (.tensorWrite target (roles.map (IndexRole.expr c)) none value' true) = .ok s)
    (hpositions : value.positions ⊆ positions)
    (hvar : ∀ name, value = .var name → mem.buffers.get? name = none)
    (hexec : v.machine.exec s mem = .ok mem') :
    ∃ is b entry added,
      v.Adds names target indices value type storage mem mem' is b entry added := by
  have htype : v.machine.func.varType? target = some (.tensor type) :=
    (h.runs.types target).trans (hfunc ▸ hfits.isTensor)
  obtain ⟨found, b, hfound, hblock, hb, hshaped⟩ := hf.laid.shaped h.describes htype
  obtain rfl : storage = found := Option.some.inj (hfits.hasStorage.symm.trans hfound)
  obtain ⟨value'', hlower, hlowered⟩ := lowerStmt_write (h.storages ▸ hfits.hasStorage) hs
  cases hkind : storage.kind with
  | dense =>
      rw [hkind] at hlowered
      obtain ⟨type', offset, htype', hcount, hoffset, rfl⟩ := hlowered
      obtain rfl : type = type' := by
        have hvar := hfits.isTensor
        rw [hfunc] at hvar
        simpa [Func.tensorType?, h.func, hvar, ValueType.asTensor?] using htype'
      obtain ⟨is, entry, added, hadds⟩ := h.adds_store hf hfunc hfits htakes hlower hpositions
        hblock hb hshaped hknows hkind hcount hoffset hexec
      exact ⟨is, b, entry, added, hadds⟩
  | sparse p =>
      rw [hkind] at hlowered
      obtain ⟨row, col, hroles, rfl⟩ := hlowered
      obtain ⟨is, entry, added, hadds⟩ := h.adds_sparseStore hf hfunc hfits htakes hlower
        hpositions hblock hb hshaped hknows hkind hroles hexec
      exact ⟨is, b, entry, added, hadds⟩
  | register =>
      rw [hkind] at hlowered
      obtain rfl := hlowered
      obtain ⟨is, entry, added, hadds⟩ := h.adds_accumulate hf hfunc hfits htakes hlower
        hpositions hblock hb hshaped hkind hvar hexec
      exact ⟨is, b, entry, added, hadds⟩

omit [Scalar α] in
theorem read_withLocal (mem : Memory α) (name other : VarName) (value : Value α) :
    (mem.withLocal name value).read other = if name = other then .ok value else mem.read other := by
  unfold Memory.read Memory.withLocal
  rw [Table.get?_insert]
  by_cases heq : name = other <;> simp [heq]

theorem Follows.withLocal (hf : c.Follows scope positions v names mem) (scope' : TypeScope α)
    {name : VarName} (value : Value α) (hfunc : scope'.func = scope.func)
    (hscope : ∀ other type, scope'.lookup other = .ok type →
      other = name ∨ scope.lookup other = .ok type)
    (hdeclared : scope.func.varType? name = none) (hnone : mem.buffers.get? name = none)
    (helement : name ≠ c.kernel.element.name) :
    c.Follows scope' (name :: positions) v (names.bind name (some value))
      (mem.withLocal name value) := by
  have hchanges : mem.Changes [name] [] (mem.withLocal name value) :=
    .single (.value (List.mem_singleton_self name) hnone)
  refine ⟨fun other type w hlookup htensor hread => ?_, fun other hother w hblock hread => ?_,
    fun other type w htype htarget hread => ?_, ?_, hf.buffers, hf.laid.changes hchanges,
    hchanges.indicesOverBuffers hf.hidden⟩
  · rw [read_withLocal] at hread
    unfold Names.bind
    by_cases heq : name = other
    · rw [if_pos heq] at hread
      rw [if_pos heq.symm, Except.ok.inj hread]
    · rw [if_neg heq] at hread
      rw [if_neg (Ne.symm heq)]
      exact hf.bound other type w
        ((hscope other type hlookup).resolve_left (Ne.symm heq)) htensor hread
  · rw [read_withLocal] at hread
    unfold Names.bind
    by_cases heq : name = other
    · rw [if_pos heq] at hread
      rw [if_pos heq.symm, Except.ok.inj hread]
    · rw [if_neg heq] at hread
      rw [if_neg (Ne.symm heq)]
      exact hf.position other ((List.mem_cons.1 hother).resolve_left (Ne.symm heq)) w hblock hread
  · have hne : name ≠ other := by
      rintro rfl
      rw [hfunc, hdeclared] at htype
      cases htype
    rw [read_withLocal, if_neg hne] at hread
    rw [Names.bind, if_neg hne.symm]
    exact hf.tensor other type w (hfunc ▸ htype) htarget hread
  · simp [Memory.withLocal, Table.get?_insert, helement, hf.element]

theorem Follows.withBuffer (hf : c.Follows scope positions v names mem) {target : VarName}
    {type : TensorType} {b b' : Buffer α} (htarget : target ∈ c.targets)
    (hlookup : scope.lookup target = .ok (.tensor type)) (hb : mem.buffers.get? target = some b)
    (hlayout : b.SameLayout b') : c.Follows scope positions v names (mem.withBuffer target b') := by
  obtain ⟨values, hsize, rfl⟩ := hlayout
  have hchanges : mem.Changes [target] [] (mem.withBuffer target (b.withValues values)) :=
    .single (.buffer (List.mem_singleton_self target) hb hsize)
  have hread : ∀ name, name ≠ target →
      (mem.withBuffer target (b.withValues values)).read name = mem.read name := by
    intro name hne
    unfold Memory.read Memory.withBuffer
    rw [Table.get?_insert, if_neg (by simpa using hne.symm)]
  refine ⟨fun name found w hfound htensor hname => ?_, fun name hposition w hblock hname => ?_,
    fun name found w hfound hname => ?_, hf.element, fun tensor htensor => ?_,
    hf.laid.changes hchanges, hchanges.indicesOverBuffers hf.hidden⟩
  · by_cases heq : name = target
    · rw [heq, hlookup] at hfound
      obtain rfl := Except.ok.inj hfound
      cases htensor
    · exact hf.bound name found w hfound htensor (hread name heq ▸ hname)
  · by_cases heq : name = target
    · -- a written register is a block, and a local that hides it stays
      subst heq
      refine hf.position name hposition w hblock ?_
      unfold Memory.read at hname ⊢
      cases hlocal : mem.locals.get? name with
      | some found =>
          rw [show (mem.withBuffer name (b.withValues values)).locals = mem.locals from rfl,
            hlocal] at hname
          exact hname
      | none =>
          rw [show (mem.withBuffer name (b.withValues values)).locals = mem.locals from rfl,
            hlocal] at hname
          simp only [Memory.withBuffer, Table.get?_insert, beq_self_eq_true, if_true] at hname
          cases b with
          | register block =>
              exact absurd (Except.ok.inj hname).symm (hblock _)
          | dense block old => cases hname
          | sparse matrix => cases hname
    · exact hf.position name hposition w hblock (hread name heq ▸ hname)
  · have hne : name ≠ target := fun heq => hname (heq ▸ htarget)
    rw [hread name hne]
    exact hf.tensor name found w hfound hname
  · have hne : target ≠ tensor := fun heq => htensor (heq ▸ htarget)
    simp only [Memory.withBuffer, Table.get?_insert]
    rw [if_neg (by simpa using hne)]
    exact hf.buffers tensor htensor

/-- What a kernel binds is kept apart from what the function declares, and from positions that are
    read before. -/
structure Apart (c : KernelContext) (scope : TypeScope α) (positions : List VarName)
    (body : List (Stmt α)) : Prop where
  /-- What is bound so far is not declared, and no tensor. -/
  bound : ∀ name type, scope.locals.get? name = some type →
    scope.func.varType? name = none ∧ type.asTensor? = none
  /-- The kernel's own variables are not bound anew. -/
  kept : c.kernel.KeptBy body
  /-- A local is not declared. -/
  undeclared : ∀ s ∈ body, ∀ name, s.boundName? = some name → scope.func.varType? name = none
  /-- The positions are known where they are read. -/
  placed : Stmt.Placed positions body

namespace Apart

variable {s : Stmt α} {rest body : List (Stmt α)} {name : VarName} {type : ValueType}

omit [Scalar α] in
theorem tail (h : c.Apart scope positions (s :: rest)) :
    c.Apart scope (s.boundName?.toList ++ positions) rest where
  bound := h.bound
  kept := fun s hs => h.kept s (List.mem_cons_of_mem _ hs)
  undeclared := fun s hs => h.undeclared s (List.mem_cons_of_mem _ hs)
  placed := h.placed.2

omit [Scalar α] in
theorem bind (h : c.Apart scope positions (s :: rest)) (hs : s.boundName? = some name)
    (htensor : type.asTensor? = none) :
    c.Apart (scope.bind name type) (s.boundName?.toList ++ positions) rest where
  bound := fun other found hfound => by
    simp only [TypeScope.bind, Table.get?_insert] at hfound
    by_cases heq : name = other
    · subst heq
      rw [if_pos (by simp)] at hfound
      obtain rfl := Option.some.inj hfound
      exact ⟨h.undeclared s (List.mem_cons_self ..) name hs, htensor⟩
    · rw [if_neg (by simpa using heq)] at hfound
      exact h.bound other found hfound
  kept := h.tail.kept
  undeclared := h.tail.undeclared
  placed := h.tail.placed

omit [Scalar α] in
theorem asTensor?_of_lookup (h : c.Apart scope positions body)
    (hlookup : scope.lookup name = .ok type) (hdeclared : scope.func.varType? name = none) :
    type.asTensor? = none := by
  unfold TypeScope.lookup at hlookup
  split at hlookup
  · next found hfound =>
      obtain rfl := Except.ok.inj hlookup
      exact (h.bound name found hfound).2
  · rw [hdeclared] at hlookup
    cases hlookup

omit [Scalar α] in
theorem lookup_of_declared (h : c.Apart scope positions body)
    (hdeclared : scope.func.varType? name = some type) : scope.lookup name = .ok type := by
  unfold TypeScope.lookup
  split
  · next found hfound =>
      rw [(h.bound name found hfound).1] at hdeclared
      cases hdeclared
  · rw [hdeclared]
    rfl

end Apart

theorem Watches.buffer_eq_none (h : c.Watches a f n v) (hf : c.Follows scope positions v names mem)
    (name : VarName) (hname : ∀ type, f.varType? name ≠ some (.tensor type)) :
    mem.buffers.get? name = none :=
  hf.laid.buffer_none fun type htype => hname type ((h.runs.types name).symm.trans htype)

/-! ## Steps of a kernel

Each statement leaves memory following the names that are meant. -/

section

variable {name : VarName} {value value' : Expr α} {type bound : ValueType} {s : Stmt α}
  {rest : List (Stmt α)}

theorem Watches.exec_assign (h : c.Watches a f n v) (hf : c.Follows scope positions v names mem)
    (hfunc : scope.func = f) (hapart : c.Apart scope positions (.assign name value :: rest))
    (htakes : c.Takes scope value type value') (hs : a.lowerStmt (.assign name value') = .ok s)
    (hexec : v.machine.exec s mem = .ok mem') :
    ∃ w, v.value? names value = some w ∧ mem' = mem.withLocal name w ∧
      c.Follows (scope.bind name type) (name :: positions) v (names.bind name (some w)) mem' := by
  obtain ⟨value'', hlower, rfl⟩ := AccessContext.lowerStmt_assign_eq_ok_iff.1 hs
  have hhead := List.mem_cons_self (a := Stmt.assign name value) (l := rest)
  have hundeclared := hapart.undeclared _ hhead name rfl
  have hnone := h.buffer_eq_none hf name (by simp [← hfunc, hundeclared])
  rw [Machine.exec, Machine.assign, hnone] at hexec
  obtain ⟨w, hw, hexec⟩ := Outcome.bind_eq_ok_iff.1 hexec
  obtain rfl := Except.ok.inj hexec
  have hagrees := h.eval_agrees hf hfunc value htakes hlower
    (Stmt.positions_assign name value ▸ hapart.placed.1) hw
  refine ⟨w, hagrees, rfl, hf.withLocal (scope.bind name type) w rfl (fun other found hfound => ?_)
    hundeclared hnone (hapart.kept _ hhead name rfl).1⟩
  rw [lookup_bind] at hfound
  split at hfound
  · next heq => exact Or.inl heq.symm
  · exact Or.inr hfound

/-- A local comes to the sum that is meant. -/
theorem Watches.exec_accumulate (h : c.Watches a f n v) (hf : c.Follows scope positions v names mem)
    (hfunc : scope.func = f) (hapart : c.Apart scope positions (.accumulate name value :: rest))
    (htakes : c.Takes scope value type value') (hbound : scope.lookup name = .ok bound)
    (hs : a.lowerStmt (.accumulate name value') = .ok s)
    (hexec : v.machine.exec s mem = .ok mem') :
    ∃ current w total, names name = some current ∧ v.value? names value = some w ∧
      Value.operate .add current w = .ok total ∧ mem' = mem.withLocal name total ∧
      c.Follows scope (name :: positions) v (names.bind name (some total)) mem' := by
  obtain ⟨value'', hlower, rfl⟩ := AccessContext.lowerStmt_accumulate_eq_ok_iff.1 hs
  have hhead := List.mem_cons_self (a := Stmt.accumulate name value) (l := rest)
  have hundeclared := hapart.undeclared _ hhead name rfl
  have hnone := h.buffer_eq_none hf name (by simp [← hfunc, hundeclared])
  rw [Machine.exec, Machine.assign, hnone] at hexec
  obtain ⟨w, total, hw, rfl, ⟨hfalse, _⟩ | ⟨_, current, hcurrent, htotal⟩⟩ :=
    Machine.bindLocal_eq_ok_iff.1 hexec
  · cases hfalse
  have hagrees := h.eval_agrees hf hfunc value htakes hlower
    (Stmt.positions_accumulate name value ▸ hapart.placed.1) hw
  have hread : mem.read name = .ok current := by
    rw [Memory.read, hcurrent]
  have hname := hf.bound name bound current hbound
    (hapart.asTensor?_of_lookup hbound hundeclared) hread
  exact ⟨current, w, total, hname, hagrees, htotal, rfl, hf.withLocal scope total rfl
    (fun _ _ hfound => Or.inr hfound) hundeclared hnone (hapart.kept _ hhead name rfl).1⟩

end

/-- A write adds its contribution to the sum that a tensor holds, if it is one to that tensor. -/
theorem Watches.holdsSum_write (h : c.Watches a f n v) (hf : c.Follows scope positions v names mem)
    (hfunc : scope.func = f) (hknows : c.KnowsKernel scope) {target : VarName}
    {indices : List (Expr α)} {position : Option VarName} {value value' : Expr α}
    {type' : TensorType} {roles : List IndexRole} {storage : TensorStorage} {s : Stmt α}
    {rest : List (Stmt α)}
    (hapart : c.Apart scope positions (.tensorWrite target indices position value true :: rest))
    (htarget : target ∈ c.targets)
    (hfits : c.WriteFits scope target indices value type' roles storage)
    (htakes : c.Takes scope value (.block type'.block) value')
    (hs : a.lowerStmt (.tensorWrite target (roles.map (IndexRole.expr c)) none value' true) = .ok s)
    (hexec : v.machine.exec s mem = .ok mem') {tensor : VarName} {type : TensorType}
    (htype : f.varType? tensor = some (.tensor type))
    {earlier : List (Option (List Int × BlockValue α))}
    (hsum : v.machine.HoldsSum mem tensor type earlier) :
    c.Follows scope positions v names mem' ∧ ∃ contributed,
      v.contributions tensor type.block names
          (.tensorWrite target indices position value true :: rest) =
        contributed ++ v.contributions tensor type.block names rest ∧
      v.machine.HoldsSum mem' tensor type (earlier ++ contributed) := by
  have hplaced := hapart.placed.1
  rw [Stmt.positions_tensorWrite, List.append_subset] at hplaced
  have hvar : ∀ name, value = .var name → mem.buffers.get? name = none := by
    rintro name rfl
    refine h.buffer_eq_none hf name fun found hfound => ?_
    have hlookup := hapart.lookup_of_declared (hfunc ▸ hfound)
    have hblock := hfits.isBlock
    rw [TypeScope.typeOf, hlookup] at hblock
    cases hblock
  obtain ⟨is, b, entry, added, hadds⟩ :=
    h.exec_write hf hfunc hknows hfits htakes hs hplaced.2 hvar hexec
  have hnext : c.Follows scope positions v names mem' := by
    rw [hadds.memory]
    exact hf.withBuffer htarget (hapart.lookup_of_declared hfits.isTensor) hadds.buffer
      (b.sameLayout_addAt entry added)
  refine ⟨hnext, ?_⟩
  by_cases heq : target = tensor
  · subst heq
    have hsame : some (ValueType.tensor type') = some (.tensor type) :=
      (hfunc ▸ hfits.isTensor).symm.trans htype
    obtain rfl := ValueType.tensor.inj (Option.some.inj hsame)
    exact ⟨_, hadds.contributions position true rest, hadds.holdsSum
      ((h.runs.types target).trans htype) (fun _ => h.extents_lt hfits.hasRoles) hsum⟩
  · refine ⟨[], by rw [ElementView.contributions, if_neg heq, List.nil_append], ?_⟩
    rw [List.append_nil]
    refine hsum.congr ?_
    rw [hadds.memory]
    simp [Memory.withBuffer, Table.get?_insert, heq]

/-- **A kernel** adds its contributions to the sums that its targets hold. -/
theorem Lowers.holdsSum {body lowered final : List (Stmt α)} (hl : c.Lowers scope body lowered)
    (h : c.Watches a f n v) (hfunc : scope.func = f) (hknows : c.KnowsKernel scope)
    (hapart : c.Apart scope positions body) (hf : c.Follows scope positions v names mem)
    (hfinal : a.lowerBody lowered = .ok final) (hexec : v.machine.execAll final mem = .ok mem')
    {tensor : VarName} {type : TensorType} (htype : f.varType? tensor = some (.tensor type))
    {earlier : List (Option (List Int × BlockValue α))}
    (hsum : v.machine.HoldsSum mem tensor type earlier) :
    v.machine.HoldsSum mem' tensor type
      (earlier ++ v.contributions tensor type.block names body) := by
  induction hl generalizing positions names mem final earlier with
  | nil =>
      obtain rfl := Except.ok.inj hfinal
      obtain rfl := Except.ok.inj hexec
      simpa [ElementView.contributions] using hsum
  | @assign scope name value value' type' rest rest' hvalue htensor hresolve _ ih =>
      obtain ⟨s, final, hs, hrest, rfl⟩ := AccessContext.lowerBody_cons_eq_ok.1 hfinal
      obtain ⟨next, hstep, hexec⟩ := Machine.execAll_cons_eq_ok_iff.1 hexec
      obtain ⟨w, hw, rfl, hnext⟩ :=
        h.exec_assign hf hfunc hapart (takes_of_resolve value hvalue htensor hresolve) hs hstep
      obtain ⟨helement, hendpoints⟩ := hapart.kept _ (List.mem_cons_self ..) name rfl
      rw [ElementView.contributions, hw]
      exact ih hfunc (hknows.bind helement hendpoints) (hapart.bind rfl htensor) hnext hrest hexec
        (hsum.congr rfl)
  | @accumulate scope name value value' type' bound rest rest' hvalue htensor hresolve hbound _ ih =>
      obtain ⟨s, final, hs, hrest, rfl⟩ := AccessContext.lowerBody_cons_eq_ok.1 hfinal
      obtain ⟨next, hstep, hexec⟩ := Machine.execAll_cons_eq_ok_iff.1 hexec
      obtain ⟨current, w, total, hcurrent, hw, htotal, rfl, hnext⟩ :=
        h.exec_accumulate hf hfunc hapart (takes_of_resolve value hvalue htensor hresolve) hbound hs
          hstep
      rw [ElementView.contributions, hcurrent, hw]
      simp only [Option.bind_eq_bind, Option.bind_some, htotal, Except.toOption]
      exact ih hfunc hknows hapart.tail hnext hrest hexec (hsum.congr rfl)
  | @write scope target indices position value value' type' roles storage rest rest' htarget hfits
      hresolve _ ih =>
      obtain ⟨s, final, hs, hrest, rfl⟩ := AccessContext.lowerBody_cons_eq_ok.1 hfinal
      obtain ⟨next, hstep, hexec⟩ := Machine.execAll_cons_eq_ok_iff.1 hexec
      obtain ⟨hnext, contributed, hcontributed, hadded⟩ := h.holdsSum_write hf hfunc hknows hapart
        htarget hfits (takes_of_resolve value hfits.isBlock rfl hresolve) hs hstep htype hsum
      have hall := ih hfunc hknows hapart.tail hnext hrest hexec hadded
      rwa [List.append_assoc, ← hcontributed] at hall

end KernelContext

end GraphTensor
