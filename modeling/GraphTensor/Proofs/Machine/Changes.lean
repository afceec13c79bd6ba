import GraphTensor.Proofs.Machine.Effects
import Mathlib.Logic.Relation
set_option autoImplicit false

/-! # What statements change

A statement replaces the numbers of buffers, binds locals and notes updates of fields. It does so
only under the names that it writes (`Stmt.writes`), and its loops bind their own variables to
indices (`Stmt.binds`).

Every invariant of a run is derived from these kinds of changes, which are listed once as
`Memory.Change`; running a statement makes any number of them (`Memory.Changes`). Whatever a single
change keeps, all do: a buffer keeps its layout (`Buffer.SameLayout`), no buffer comes into being,
and whatever a statement does not write is as it was. -/

namespace GraphTensor

variable {α : Type}

/-! ## Written names -/

/-- The variables that a loop binds. -/
def Loop.binders : Loop α → List VarName
  | elements _ element => [element]
  | range var _ => [var]
  | pattern _ i j position => [i, j, position]
  | row _ _ col position => [col, position]
  | intersect _ _ _ _ col leftPosition rightPosition => [col, leftPosition, rightPosition]

namespace Stmt

mutual

/-- The names to which a statement assigns or into whose buffers it stores. -/
def writes (s : Stmt α) : List VarName :=
  match s with
  | assign var _ => [var]
  | accumulate var _ => [var]
  | tensorWrite tensor _ _ _ _ => [tensor]
  | assemble targets _ _ body => targets ++ writesOfList body
  | loop _ body => writesOfList body
  | zero var => [var]
  | fieldWrite _ _ _ => []
  | solve task => task.solutions
  | store buffer _ _ _ => [buffer]
  | sparseStore buffer _ _ _ _ => [buffer]
termination_by structural s

/-- The names that the statements of a list write. -/
def writesOfList (body : List (Stmt α)) : List VarName :=
  match body with
  | [] => []
  | s :: rest => s.writes ++ writesOfList rest
termination_by structural body

end

theorem writes_subset {s : Stmt α} {body : List (Stmt α)} (hs : s ∈ body) :
    s.writes ⊆ writesOfList body := by
  induction body with
  | nil => cases hs
  | cons first rest ih =>
      rw [writesOfList]
      rcases List.mem_cons.1 hs with rfl | hs
      · exact List.subset_append_left _ _
      · exact List.subset_append_of_subset_right _ (ih hs)

mutual

/-- The loop variables that a statement binds to indices. -/
def binds (s : Stmt α) : List VarName :=
  match s with
  | loop header body => header.binders ++ bindsOfList body
  | assemble _ _ kernel body => kernel.element.name :: bindsOfList body
  | assign _ _ => []
  | accumulate _ _ => []
  | tensorWrite _ _ _ _ _ => []
  | zero _ => []
  | fieldWrite _ _ _ => []
  | solve _ => []
  | store _ _ _ _ => []
  | sparseStore _ _ _ _ _ => []
termination_by structural s

/-- The loop variables that the statements of a list bind. -/
def bindsOfList (body : List (Stmt α)) : List VarName :=
  match body with
  | [] => []
  | s :: rest => s.binds ++ bindsOfList rest
termination_by structural body

end

end Stmt

/-! ## Layouts -/

namespace Buffer

/-- Two buffers have the same layout: they differ at most in their numbers. -/
def SameLayout (b b' : Buffer α) : Prop :=
  ∃ values, values.size = b.values.size ∧ b' = b.withValues values

theorem withValues_self (b : Buffer α) : b.withValues b.values = b := by
  cases b with
  | dense block values => rfl
  | sparse matrix => rfl
  | register value =>
      obtain ⟨shape, data, hsize⟩ := value
      simp [withValues, Buffer.values, BlockValue.ofArray?, hsize]

theorem withValues_withValues (b : Buffer α) {values values' : Array α}
    (h : values.size = b.values.size) (h' : values'.size = b.values.size) :
    (b.withValues values).withValues values' = b.withValues values' := by
  cases b with
  | dense block old => rfl
  | sparse matrix => rfl
  | register value =>
      have hs : values.size = value.shape.length := h.trans value.size_data
      have hs' : values'.size = value.shape.length := h'.trans value.size_data
      simp [withValues, BlockValue.ofArray?, hs, hs']

theorem SameLayout.refl (b : Buffer α) : b.SameLayout b :=
  ⟨b.values, rfl, b.withValues_self.symm⟩

theorem SameLayout.trans {a b c : Buffer α} (hab : a.SameLayout b) (hbc : b.SameLayout c) :
    a.SameLayout c := by
  obtain ⟨values, hsize, rfl⟩ := hab
  obtain ⟨values', hsize', rfl⟩ := hbc
  rw [values_withValues hsize] at hsize'
  exact ⟨values', hsize'.trans hsize, withValues_withValues a hsize (hsize'.trans hsize)⟩

end Buffer

/-! ## Changes -/

namespace Memory

/-- One change of the memory, by a write to one of the names `stored` or by a loop variable among the
    names `bound`. -/
inductive Change (stored bound : List VarName) : Memory α → Memory α → Prop where
  /-- A buffer gets other numbers in the same layout. -/
  | buffer {mem : Memory α} {var : VarName} {old : Buffer α} {values : Array α}
      (hvar : var ∈ stored) (hold : mem.buffers.get? var = some old)
      (hsize : values.size = old.values.size) :
      Change stored bound mem (mem.withBuffer var (old.withValues values))
  /-- A local whose name has no buffer gets a value. -/
  | value {mem : Memory α} {var : VarName} {value : Value α} (hvar : var ∈ stored)
      (hnone : mem.buffers.get? var = none) :
      Change stored bound mem (mem.withLocal var value)
  /-- A loop variable gets an index. -/
  | index {mem : Memory α} {var : VarName} {n : Nat} (hvar : var ∈ bound) :
      Change stored bound mem (mem.withLocal var (.ofCount n))
  /-- The update of a field is noted down. -/
  | update {mem : Memory α} {update : FieldUpdate α} :
      Change stored bound mem (mem.withUpdate update)

/-- Any number of changes under some names. -/
def Changes (stored bound : List VarName) : Memory α → Memory α → Prop :=
  Relation.ReflTransGen (Change stored bound)

variable {stored bound : List VarName} {mem mem' : Memory α} {var : VarName}

theorem Refills.change (h : mem.Refills var mem') (hvar : var ∈ stored) :
    Change stored bound mem mem' := by
  obtain ⟨b, values, hb, hsize, rfl⟩ := h
  exact .buffer hvar hb hsize

theorem Refills.changes (h : mem.Refills var mem') : mem.Changes [var] [] mem' :=
  .single (h.change (List.mem_singleton_self var))

theorem Change.mono {stored' bound' : List VarName} (hstored : stored ⊆ stored')
    (hbound : bound ⊆ bound') (h : Change stored bound mem mem') :
    Change stored' bound' mem mem' := by
  cases h with
  | buffer hvar hold hsize => exact .buffer (hstored hvar) hold hsize
  | value hvar hnone => exact .value (hstored hvar) hnone
  | index hvar => exact .index (hbound hvar)
  | update => exact .update

theorem Changes.mono {stored' bound' : List VarName} (hstored : stored ⊆ stored')
    (hbound : bound ⊆ bound') (h : mem.Changes stored bound mem') :
    mem.Changes stored' bound' mem' :=
  Relation.ReflTransGen.mono (fun _ _ => Change.mono hstored hbound) _ _ h

/-- What every single change keeps is kept by any number of changes. -/
theorem Changes.invariant {P : Memory α → Prop}
    (hstep : ∀ mem mem', P mem → Change stored bound mem mem' → P mem') (hP : P mem)
    (h : mem.Changes stored bound mem') : P mem' := by
  induction h with
  | refl => exact hP
  | tail _ hchange ih => exact hstep _ _ ih hchange

theorem Changes.buffer_eq (h : mem.Changes stored bound mem') (hvar : var ∉ stored) :
    mem'.buffers.get? var = mem.buffers.get? var := by
  refine Changes.invariant (P := fun m => m.buffers.get? var = mem.buffers.get? var) ?_ rfl h
  intro m m' hm hchange
  cases hchange with
  | buffer hother hold hsize =>
      rename_i other old values
      have hne : other ≠ var := fun heq => hvar (heq ▸ hother)
      rw [← hm]
      simp [withBuffer, Table.get?_insert, hne]
  | value => exact hm
  | index => exact hm
  | update => exact hm

theorem Changes.local_eq (h : mem.Changes stored bound mem') (hstored : var ∉ stored)
    (hbound : var ∉ bound) : mem'.locals.get? var = mem.locals.get? var := by
  refine Changes.invariant (P := fun m => m.locals.get? var = mem.locals.get? var) ?_ rfl h
  intro m m' hm hchange
  cases hchange with
  | buffer => exact hm
  | value hother hnone =>
      rename_i other value
      have hne : other ≠ var := fun heq => hstored (heq ▸ hother)
      rw [← hm]
      simp [withLocal, Table.get?_insert, hne]
  | index hother =>
      rename_i other n
      have hne : other ≠ var := fun heq => hbound (heq ▸ hother)
      rw [← hm]
      simp [withLocal, Table.get?_insert, hne]
  | update => exact hm

theorem Changes.sameLayout {b : Buffer α} (h : mem.Changes stored bound mem')
    (hb : mem.buffers.get? var = some b) :
    ∃ b', mem'.buffers.get? var = some b' ∧ b.SameLayout b' := by
  refine Changes.invariant (P := fun m => ∃ b', m.buffers.get? var = some b' ∧ b.SameLayout b') ?_
    ⟨b, hb, .refl b⟩ h
  rintro m m' ⟨b', hb', hsame⟩ hchange
  cases hchange with
  | buffer hother hold hsize =>
      rename_i other old values
      by_cases heq : other = var
      · subst heq
        obtain rfl : old = b' := Option.some.inj (hold.symm.trans hb')
        refine ⟨old.withValues values, ?_, hsame.trans ⟨values, hsize, rfl⟩⟩
        simp [withBuffer, Table.get?_insert]
      · refine ⟨b', ?_, hsame⟩
        simp [withBuffer, Table.get?_insert, heq, hb']
  | value => exact ⟨b', hb', hsame⟩
  | index => exact ⟨b', hb', hsame⟩
  | update => exact ⟨b', hb', hsame⟩

theorem Changes.buffer_none (h : mem.Changes stored bound mem')
    (hnone : mem.buffers.get? var = none) : mem'.buffers.get? var = none := by
  refine Changes.invariant (P := fun m => m.buffers.get? var = none) ?_ hnone h
  intro m m' hm hchange
  cases hchange with
  | buffer hother hold hsize =>
      rename_i other old values
      have hne : other ≠ var := by
        rintro rfl
        rw [hm] at hold
        cases hold
      simp [withBuffer, Table.get?_insert, hne, hm]
  | value => exact hm
  | index => exact hm
  | update => exact hm

/-- Locals under the names of buffers are indices. -/
def IndicesOverBuffers (mem : Memory α) : Prop :=
  ∀ var b value, mem.buffers.get? var = some b → mem.locals.get? var = some value →
    ∃ n, value = .int n

/-- Only loop variables come before buffers. -/
theorem Changes.indicesOverBuffers (h : mem.Changes stored bound mem')
    (hmem : mem.IndicesOverBuffers) : mem'.IndicesOverBuffers := by
  refine Changes.invariant (P := IndicesOverBuffers) ?_ hmem h
  intro m m' hm hchange var b value hb hvalue
  cases hchange with
  | buffer hother hold hsize =>
      rename_i other old values
      simp only [withBuffer, Table.get?_insert] at hb hvalue
      by_cases heq : other = var
      · exact hm var old value (heq ▸ hold) hvalue
      · rw [if_neg (by simpa using heq)] at hb
        exact hm var b value hb hvalue
  | value hother hnone =>
      rename_i other new
      simp only [withLocal, Table.get?_insert] at hb hvalue
      by_cases heq : other = var
      · rw [heq, hb] at hnone
        cases hnone
      · rw [if_neg (by simpa using heq)] at hvalue
        exact hm var b value hb hvalue
  | index hother =>
      rename_i other n
      simp only [withLocal, Table.get?_insert] at hb hvalue
      by_cases heq : other = var
      · rw [if_pos (by simpa using heq)] at hvalue
        exact ⟨_, (Option.some.inj hvalue).symm⟩
      · rw [if_neg (by simpa using heq)] at hvalue
        exact hm var b value hb hvalue
  | update => exact hm var b value hb hvalue

end Memory

/-! ## Visits -/

namespace Visits

theorem toList_below (var : VarName) (extent : Nat) :
    (below var extent).toList = (List.range extent).map fun k => [(var, k)] :=
  rfl

theorem toList_ofList (visits : List (List (VarName × Nat))) : (ofList visits).toList = visits := by
  refine List.ext_getElem (by simp [toList, ofList]) fun k hk hk' => ?_
  simp [toList, ofList, hk']

theorem run_invariant {ε σ : Type} {v : Visits} {step : List (VarName × Nat) → σ → Outcome ε σ}
    {P : σ → Prop} {state state' : σ}
    (hstep : ∀ indices ∈ v.toList, ∀ s s', P s → step indices s = .ok s' → P s') (hP : P state)
    (h : v.run step state = .ok state') : P state' := by
  rw [run_eq_foldlM] at h
  exact Except.foldlM_prefix (P := fun _ s => P s)
    (fun _ s indices s' hmem hs hok => hstep indices hmem s s' hs hok) hP h

end Visits

/-! ## Statements -/

namespace Machine

open Memory

theorem changes_withIndices {mem : Memory α} {bound : List VarName}
    (indices : List (VarName × Nat)) (h : ∀ e ∈ indices, e.1 ∈ bound) :
    mem.Changes [] bound (mem.withIndices indices) := by
  induction indices generalizing mem with
  | nil => exact .refl
  | cons e rest ih =>
      have he : Change [] bound mem (mem.withLocal e.1 (.ofCount e.2)) :=
        .index (h e (List.mem_cons_self ..))
      exact Relation.ReflTransGen.head he (ih fun e' he' => h e' (List.mem_cons_of_mem _ he'))

variable [Scalar α] {m : Machine α} {mem mem' : Memory α}

/-- The visits of a loop bind only the loop's variables. -/
theorem binders_of_visits {header : Loop α} {v : Visits} (h : m.visits mem header = .ok v)
    {indices : List (VarName × Nat)} (hvisit : indices ∈ v.toList) :
    ∀ e ∈ indices, e.1 ∈ header.binders := by
  cases header with
  | elements set element =>
      obtain ⟨n, _, rfl⟩ := visits_elements_eq_ok_iff.1 h
      rw [Visits.toList_below, List.mem_map] at hvisit
      obtain ⟨k, _, rfl⟩ := hvisit
      simp [Loop.binders]
  | range var extent =>
      obtain ⟨n, _, rfl⟩ := visits_range_eq_ok_iff.1 h
      rw [Visits.toList_below, List.mem_map] at hvisit
      obtain ⟨k, _, rfl⟩ := hvisit
      simp [Loop.binders]
  | pattern ref row col position =>
      obtain ⟨p, _, rfl⟩ := visits_pattern_eq_ok_iff.1 h
      rw [Visits.toList_ofList, List.mem_map] at hvisit
      obtain ⟨entry, _, rfl⟩ := hvisit
      simp [Loop.binders]
  | row ref row col position =>
      obtain ⟨p, i, _, _, rfl⟩ := visits_row_eq_ok_iff.1 h
      rw [Visits.toList_ofList, List.mem_map] at hvisit
      obtain ⟨entry, _, rfl⟩ := hvisit
      simp [Loop.binders]
  | intersect left right leftRow rightRow col leftPosition rightPosition =>
      obtain ⟨l, r, i, j, _, _, _, _, rfl⟩ := visits_intersect_eq_ok_iff.1 h
      rw [Visits.toList_ofList, List.mem_map] at hvisit
      obtain ⟨shared, _, rfl⟩ := hvisit
      simp [Loop.binders]

theorem changes_assign {var : VarName} {value : Expr α} {accumulate : Bool}
    (h : m.assign mem var value accumulate = .ok mem') : mem.Changes [var] [] mem' := by
  cases hbuffer : mem.buffers.get? var with
  | some b => exact (refills_assign hbuffer h).changes
  | none =>
      obtain ⟨v, w, _, rfl, _⟩ := local_of_assign hbuffer h
      exact .single (.value (List.mem_singleton_self var) hbuffer)

omit [Scalar α] in
theorem changes_noteUpdate {set : SetName} {field : FieldName} {var : VarName}
    (h : m.noteUpdate mem set field var = .ok mem') : mem.Changes [] [] mem' := by
  obtain ⟨_, _, _, _, _, _, _, _, _, rfl⟩ := noteUpdate_spec h
  exact .single .update

theorem changes_solve {task : SolveTask} (h : m.solve mem task = .ok mem') :
    mem.Changes task.solutions [] mem' :=
  solve_invariant (P := fun next => mem.Changes task.solutions [] next)
    (fun _ hvar _ _ hchanges hrefills => hchanges.tail (hrefills.change hvar)) .refl h

mutual

/-- **What a statement changes.** Running a statement changes the memory under the names that it
    writes. -/
theorem changes_exec (s : Stmt α) {mem mem' : Memory α} (h : m.exec s mem = .ok mem') :
    mem.Changes s.writes s.binds mem' := by
  match s with
  | .assign var value =>
      rw [exec] at h
      rw [Stmt.writes, Stmt.binds]
      exact changes_assign h
  | .accumulate var value =>
      rw [exec] at h
      rw [Stmt.writes, Stmt.binds]
      exact changes_assign h
  | .loop header body =>
      rw [exec] at h
      rw [Stmt.writes, Stmt.binds]
      obtain ⟨visits, hvisits, h⟩ := Outcome.bind_eq_ok_iff.1 h
      refine Visits.run_invariant (P := fun s => mem.Changes _ _ s) ?_ .refl h
      intro indices hindices s s' hs hstep
      have hbind : s.Changes [] header.binders (s.withIndices indices) :=
        changes_withIndices indices (binders_of_visits hvisits hindices)
      have hbody := changes_execAll body hstep
      exact hs.trans ((hbind.mono (List.nil_subset _) (List.subset_append_left ..)).trans
        (hbody.mono (List.Subset.refl _) (List.subset_append_right ..)))
  | .zero var =>
      rw [Stmt.writes, Stmt.binds]
      exact (refills_execZero h).changes
  | .store buffer offset value accumulate =>
      rw [Stmt.writes, Stmt.binds]
      exact (refills_execStore h).changes
  | .sparseStore buffer position value accumulate block =>
      rw [Stmt.writes, Stmt.binds]
      exact (refills_execSparseStore h).changes
  | .fieldWrite set field value =>
      rw [exec] at h
      rw [Stmt.writes, Stmt.binds]
      exact changes_noteUpdate h
  | .solve task =>
      rw [exec] at h
      rw [Stmt.writes, Stmt.binds]
      exact changes_solve h
  | .tensorWrite tensor indices position value accumulate =>
      rw [exec] at h
      cases h
  | .assemble targets set kernel body =>
      rw [exec] at h
      cases h
termination_by structural s

theorem changes_execAll (body : List (Stmt α)) {mem mem' : Memory α}
    (h : m.execAll body mem = .ok mem') : mem.Changes (Stmt.writesOfList body) (Stmt.bindsOfList body) mem' := by
  match body with
  | [] =>
      rw [execAll] at h
      cases h
      exact .refl
  | s :: rest =>
      rw [execAll] at h
      rw [Stmt.writesOfList, Stmt.bindsOfList]
      obtain ⟨middle, hs, h⟩ := Outcome.bind_eq_ok_iff.1 h
      have hfirst := (changes_exec s hs).mono (List.subset_append_left _ (Stmt.writesOfList rest))
        (List.subset_append_left _ (Stmt.bindsOfList rest))
      have hrest := (changes_execAll rest h).mono (List.subset_append_right s.writes _)
        (List.subset_append_right s.binds _)
      exact hfirst.trans hrest
termination_by structural body

end

/-! ## Sequences -/

theorem execAll_singleton (s : Stmt α) (mem : Memory α) : m.execAll [s] mem = m.exec s mem := by
  rw [execAll]
  cases m.exec s mem <;> rfl

theorem execAll_append_eq_ok {first second : List (Stmt α)} :
    m.execAll (first ++ second) mem = .ok mem' ↔
      ∃ next, m.execAll first mem = .ok next ∧ m.execAll second next = .ok mem' := by
  induction first generalizing mem with
  | nil => simp [execAll]
  | cons s rest ih =>
      rw [List.cons_append]
      simp only [execAll_cons_eq_ok_iff, ih]
      constructor
      · rintro ⟨middle, hs, next, hrest, h⟩
        exact ⟨next, ⟨middle, hs, hrest⟩, h⟩
      · rintro ⟨next, ⟨middle, hs, hrest⟩, h⟩
        exact ⟨middle, hs, next, hrest, h⟩

theorem exec_elements {set : SetName} {element : VarName} {body : List (Stmt α)} {n : Nat}
    (hn : m.resolution.size set = .ok n) (mem : Memory α) :
    m.exec (.loop (.elements set element) body) mem =
      (List.range n).foldlM (fun mem e => m.execAll body (mem.withLocal element (.ofCount e)))
        mem := by
  rw [exec, visits, hn]
  change (Visits.below element n).run
    (fun indices mem => m.execAll body (mem.withIndices indices)) mem = _
  rw [Visits.run_eq_foldlM, Visits.toList_below, List.foldlM_map]
  rfl

theorem exec_elements_eq_ok_iff {set : SetName} {element : VarName} {body : List (Stmt α)} :
    m.exec (.loop (.elements set element) body) mem = .ok mem' ↔
      ∃ n, m.resolution.size set = .ok n ∧
        (List.range n).foldlM (fun mem e => m.execAll body (mem.withLocal element (.ofCount e)))
          mem = .ok mem' := by
  constructor
  · intro h
    obtain ⟨_, hvisits, _⟩ := exec_loop_eq_ok_iff.1 h
    obtain ⟨n, hn, _⟩ := visits_elements_eq_ok_iff.1 hvisits
    exact ⟨n, hn, exec_elements hn mem ▸ h⟩
  · rintro ⟨n, hn, h⟩
    exact (exec_elements hn mem).trans h

end Machine

end GraphTensor
