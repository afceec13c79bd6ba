import GraphTensor.Proofs.Machine.Evaluation
import GraphTensor.Proofs.Machine.Reached
import GraphTensor.Proofs.Topology.Room
set_option autoImplicit false

/-! # Evaluation in a run

The values of the locals are representable in every memory that a run comes through, if the
constants of the program and the bindings are (`Bindings.Representable`). So in all of these
memories every expression comes to a value or to an error, unless somewhere in it an operation
leaves its range.

Of a field that is declared every value has its place, and a pattern lacks room only over very large
sets; what is left are the integers, whose sums, differences, products and negatives are not checked
as their quotients are. -/

namespace GraphTensor

variable {α : Type}

/-- Bindings that a run can hold: parameters that are integers are words, the tuples of a relation
    are an array, and the blocks of fields have room. -/
structure Bindings.Representable (b : Bindings α) : Prop where
  /-- The parameters are representable. -/
  params : ∀ param v, b.param param = .ok v → v.Representable
  /-- The number of tuples is a word. -/
  tuples : ∀ set data ep, b.set set = .ok data → data.endpoints = some ep →
    ep.tuples.size < Word.bound
  /-- The blocks of fields have room. -/
  blocks : ∀ set field block values, b.field set field = .ok (.float block values) → block.HasRoom

namespace Bindings

theorem representable_empty : (Bindings.empty : Bindings α).Representable where
  params := nofun
  tuples := nofun
  blocks := nofun

theorem Representable.withSet {b : Bindings α} (h : b.Representable) (set : SetName)
    {data : SetData α}
    (htuples : ∀ ep, data.endpoints = some ep → ep.tuples.size < Word.bound)
    (hblocks : ∀ field block values, data.fields.get? field = some (.float block values) →
      block.HasRoom) : (b.withSet set data).Representable := by
  have hset {other : SetName} {found : SetData α}
      (hfound : (b.withSet set data).set other = .ok found) :
      found = data ∨ b.set other = .ok found := by
    rw [set_eq_ok_iff, Bindings.withSet, Table.get?_insert] at hfound
    split at hfound
    · exact Or.inl (Option.some.inj hfound).symm
    · exact Or.inr (set_eq_ok_iff.2 hfound)
  refine ⟨h.params, fun other found ep hfound hep => ?_, fun other field block values hvalues => ?_⟩
  · rcases hset hfound with rfl | hfound
    · exact htuples ep hep
    · exact h.tuples other found ep hfound hep
  · obtain ⟨found, hfound, hvalues⟩ := Outcome.bind_eq_ok_iff.1 hvalues
    have hget := Outcome.orFail_eq_ok_iff.1 hvalues
    rcases hset hfound with rfl | hfound
    · exact hblocks field block values hget
    · exact h.blocks other field block values ((field_eq_ok_iff hfound).2 hget)

end Bindings

namespace Memory

theorem Representable.withLocal {mem : Memory α} (h : mem.Representable) (var : VarName)
    {v : Value α} (hv : v.Representable) : (mem.withLocal var v).Representable := by
  intro other w hw
  rw [Memory.withLocal, Table.get?_insert] at hw
  split at hw
  · exact Option.some.inj hw ▸ hv
  · exact h other w hw

theorem Representable.of_locals_eq {mem mem' : Memory α} (h : mem.Representable)
    (hlocals : mem'.locals = mem.locals) : mem'.Representable := by
  rw [Representable, hlocals]
  exact h

end Memory

variable [Scalar α]

namespace Machine

variable {m : Machine α} {mem mem' : Memory α}

theorem representable_start {storages : Storages}
    (hparams : ∀ param v, m.bindings.param param = .ok v → v.Representable)
    (h : m.start storages = .ok mem) : mem.Representable := by
  obtain ⟨bound, hbound, hbuffers⟩ := Outcome.bind_eq_ok_iff.1 h
  have hentry : bound.Representable := by
    refine Except.foldlM_invariant (fun mem param mem' hmem hstep => ?_) (fun _ _ hv => ?_) hbound
    · obtain ⟨_, v, hv, rfl⟩ := addParam_spec hstep
      exact hmem.withLocal _ (hparams _ v hv)
    · cases hv
  -- the buffers are added to these locals
  refine Except.foldlM_invariant (fun mem var mem' hmem hstep => ?_) hentry hbuffers
  rcases addBuffer_spec hstep with ⟨_, rfl⟩ | ⟨_, _, _, _, _, _, rfl⟩ <;> exact hmem

theorem representable_assign (hm : m.Representable) (hmem : mem.Representable) {var : VarName}
    {e : Expr α} (he : e.Representable) {accumulate : Bool}
    (h : m.assign mem var e accumulate = .ok mem') : mem'.Representable := by
  cases hbuffer : mem.buffers.get? var with
  | some b => exact hmem.of_locals_eq (refills_assign hbuffer h).locals_eq
  | none =>
      obtain ⟨v, w, hv, rfl, rfl | ⟨current, hw⟩⟩ := local_of_assign hbuffer h
      · exact hmem.withLocal var ((settles_eval hm hmem e he).of_eq_ok hv)
      · exact hmem.withLocal var ((Value.settles_operate .add current v).of_eq_ok hw)

theorem keeps_representable {body : List (Stmt α)} (hm : m.Representable)
    (hbody : ∀ s ∈ Stmt.substmtsOfList body, ∀ e ∈ s.exprs, e.Representable) :
    m.Keeps body Memory.Representable where
  index := fun _ var n hmem => hmem.withLocal var (Value.representable_ofCount n)
  leaf := fun s hs hleaf mem mem' hmem h => by
    have hexprs := hbody s hs
    cases s with
    | loop header body => exact absurd rfl (hleaf header body)
    | assign var value =>
        rw [exec] at h
        exact representable_assign hm hmem (hexprs value (List.mem_singleton_self value)) h
    | accumulate var value =>
        rw [exec] at h
        exact representable_assign hm hmem (hexprs value (List.mem_singleton_self value)) h
    | zero var => exact hmem.of_locals_eq (refills_execZero h).locals_eq
    | fieldWrite set field value =>
        rw [exec] at h
        obtain ⟨_, _, _, _, _, _, _, _, _, rfl⟩ := noteUpdate_spec h
        exact hmem
    | solve task =>
        rw [exec] at h
        exact solve_invariant
          (fun _ _ _ _ hmem hrefills => hmem.of_locals_eq hrefills.locals_eq) hmem h
    | store buffer offset value accumulate =>
        exact hmem.of_locals_eq (refills_execStore h).locals_eq
    | sparseStore buffer position value accumulate block =>
        exact hmem.of_locals_eq (refills_execSparseStore h).locals_eq
    | tensorWrite tensor indices position value accumulate =>
        rw [exec] at h
        cases h
    | assemble targets set kernel body =>
        rw [exec] at h
        cases h

end Machine

namespace LoweredFunc

variable {l : LoweredFunc α} {b : Bindings α} {config : SolverConfig α} {m : Machine α}

theorem representable_machine (hb : b.Representable) (h : l.machine b config = .ok m) :
    m.Representable where
  tuples := fun relation t ht => by
    obtain ⟨decl, _, ep, _, _, _, _, data, hdata, htuples⟩ := relation_of_topology h ht
    rw [htuples]
    cases hbound : data.endpoints with
    | none => exact (by decide : 0 < Word.bound)
    | some bound => exact hb.tuples decl.name data bound hdata hbound
  blocks := (machine_spec h).2.1 ▸ hb.blocks

/-- Every value of a declared field has its place. -/
theorem not_overruns_declared (h : l.machine b config = .ok m) {decl : SetDecl}
    (hdecl : decl ∈ l.func.sets.decls) {field : FieldName} {type : FieldType}
    (hfield : decl.fields.get? field = some type) (mem : Memory α) (element : Expr α) :
    ¬ m.Overruns mem (.fieldLoad decl.name field element) := by
  rintro ⟨n, e, block, values, hn, _, hlt, hvalues, hover⟩
  obtain ⟨_, hbindings, _, hcheck, hfits⟩ := machine_spec h
  obtain ⟨data, hdata⟩ := (Bindings.check_eq_ok_iff.1 hcheck).1 decl hdecl
  obtain rfl := Except.ok.inj (hn.symm.trans (hfits.size_set hdecl hdata.bound))
  rw [hbindings] at hvalues
  obtain ⟨_, hword⟩ :=
    (hdata.fields _ (Table.find?_eq_some_mem hfield) _ hvalues).size_values
  -- the values of all elements are in one array, and the element is one of them
  have hstop : (e + 1) * block.length ≤ data.size * block.length := Nat.mul_le_mul_right _ hlt
  omega

/-- A search aborts only in a pattern over a very large set. -/
theorem large_of_overruns_locate (h : l.machine b config = .ok m) {mem : Memory α}
    {pattern : PatternRef} {row col : Expr α} {search : Search}
    (hover : m.Overruns mem (.locate pattern row col search)) :
    ∃ n, (m.resolution.size pattern.rows = .ok n ∨ m.resolution.size pattern.cols = .ok n) ∧
      2 ^ 59 ≤ n := by
  obtain ⟨_, _, _, hcheck, hfits⟩ := machine_spec h
  refine Resolution.large_of_build_abort hfits.topologies (fun relation t ht => ?_)
    ((Resolution.pattern_eq_build hfits.patterns pattern).symm.trans hover)
  obtain ⟨decl, hdecl, ep, rfl, hep, _⟩ := relation_of_topology h ht
  exact hfits.size_eq hcheck hdecl hep ht

/-- **Evaluation in a run.** In every memory that a run comes through, every expression comes to a
    value or to an error, unless somewhere in it an operation leaves its range; where one does, it
    aborts. Operations on integers come to the exact result if it is a signed word. If it is none,
    a quotient is an error, and the others leave their range. The value of a declared field never
    does, and a search does only over a set of at least `2 ^ 59` elements. Loads read slots inside
    their numbers alone. -/
theorem evaluation_safe {start mem : Memory α} (hb : b.Representable)
    (hbody : ∀ s ∈ Stmt.substmtsOfList l.func.body, ∀ e ∈ s.exprs, e.Representable)
    (hmachine : l.machine b config = .ok m) (hstart : m.start l.storages = .ok start)
    (hmem : m.Reaches l.func.body start mem) {e : Expr α} (he : e.Representable) :
    m.eval mem e ≠ .error .divergence ∧
    (∀ v, m.eval mem e = .ok v → v.Representable) ∧
    (m.eval mem e = .error .abort → m.OverrunsIn mem e) ∧
    (∀ s, m.Overruns mem s → m.eval mem s = .error .abort) ∧
    (∀ op lhs rhs x y, m.eval mem lhs = .ok (.int x) → m.eval mem rhs = .ok (.int y) →
      (∀ v, m.eval mem (.binary op lhs rhs) = .ok v ↔
        ∃ n, op.exactResult? x y = some n ∧ SignedWord.fits n = true ∧ v = .int n) ∧
      (m.Overruns mem (.binary op lhs rhs) ↔
        op ≠ .div ∧ ∃ n, op.exactResult? x y = some n ∧ SignedWord.fits n = false)) ∧
    (∀ inner x, m.eval mem inner = .ok (.int x) →
      (∀ v, m.eval mem (.neg inner) = .ok v ↔ SignedWord.fits (-x) = true ∧ v = .int (-x)) ∧
      (m.Overruns mem (.neg inner) ↔ SignedWord.fits (-x) = false)) ∧
    (∀ decl ∈ l.func.sets.decls, ∀ field type, decl.fields.get? field = some type →
      ∀ element, ¬ m.Overruns mem (.fieldLoad decl.name field element)) ∧
    (∀ pattern row col search, m.Overruns mem (.locate pattern row col search) →
      ∃ n, (m.resolution.size pattern.rows = .ok n ∨ m.resolution.size pattern.cols = .ok n) ∧
        2 ^ 59 ≤ n) ∧
    m.ReadsSlot mem e := by
  have hm : m.Representable := representable_machine hb hmachine
  have hentry : start.Representable :=
    Machine.representable_start ((machine_spec hmachine).2.1 ▸ hb.params) hstart
  have hlocals : mem.Representable := (Machine.keeps_representable hm hbody).reaches hentry hmem
  have hsettles := Machine.settles_eval hm hlocals e he
  exact ⟨hsettles.ne_divergence, fun _ => hsettles.of_eq_ok, hsettles.of_eq_abort,
    fun _ => Machine.Overruns.eval_eq_abort, fun _ _ _ _ _ => Machine.eval_binary_int,
    fun _ _ => Machine.eval_neg_int,
    fun _ hdecl _ _ hfield => not_overruns_declared hmachine hdecl hfield mem,
    fun _ _ _ _ => large_of_overruns_locate hmachine, Machine.readsSlot hm hlocals he⟩

end LoweredFunc

/-! ## Operands within the range -/

/-- Two elements with a number each. -/
def twoNumbers : Bindings ℚ :=
  Bindings.empty.withSet "V" ((SetData.plain 2).withScalars "x" #[5, 7])

/-- A local is bound to the index of the second element. -/
def secondIndex : LoweredFunc ℚ :=
  ⟨(Func.named "f").withSet ((SetDecl.plain "V").withField "x" (.float .scalar))
    |>.withStmt (.assign "i" (.binary .sub (.literal (.int 3)) (.literal (.int 2)))), Table.empty⟩

/-- The number of the second element, negated. -/
def secondNegated : Expr ℚ :=
  .neg (.fieldLoad "V" "x" (.var "i"))

/-- The number is read from its slot, in a memory where the local is bound. -/
theorem secondNegated_safe :
    ∃ m start mem, secondIndex.machine twoNumbers ⟨.lu, 0⟩ = .ok m ∧
      m.start secondIndex.storages = .ok start ∧ m.Reaches secondIndex.func.body start mem ∧
      m.eval mem secondNegated = .ok (.scalar (-7)) ∧
      (∀ v, m.eval mem secondNegated = .ok v → v.Representable) ∧
      (m.eval mem secondNegated = .error .abort → m.OverrunsIn mem secondNegated) := by
  obtain ⟨m, hmachine, start, hstart, mem, hmem, hvalue⟩ :
      ∃ m, secondIndex.machine twoNumbers ⟨.lu, 0⟩ = .ok m ∧
        ∃ start, m.start secondIndex.storages = .ok start ∧
          ∃ mem, m.execAll secondIndex.func.body start = .ok mem ∧
            m.eval mem secondNegated = .ok (.scalar (-7)) := by
    decide +kernel
  have hreach := Machine.reaches_execAll hmem
  have hb : twoNumbers.Representable := by
    refine Bindings.representable_empty.withSet "V" nofun fun field block values hvalues => ?_
    simp only [SetData.withScalars, SetData.withField, Table.get?_insert] at hvalues
    split at hvalues
    · obtain ⟨rfl, _⟩ := FieldData.float.inj (Option.some.inj hvalues)
      decide
    · cases hvalues
  have hbody : ∀ s ∈ Stmt.substmtsOfList secondIndex.func.body, ∀ e ∈ s.exprs,
      e.Representable := by
    intro s hs e he
    obtain rfl := List.mem_singleton.1 hs
    obtain rfl := List.mem_singleton.1 he
    simp [Expr.Representable, Expr.subexprs, Expr.Fits, SignedWord.fits]
  have he : secondNegated.Representable := by
    simp [secondNegated, Expr.Representable, Expr.subexprs, Expr.Fits]
  obtain ⟨_, hrepresentable, habort, _⟩ :=
    LoweredFunc.evaluation_safe hb hbody hmachine hstart hreach he
  exact ⟨m, start, mem, hmachine, hstart, hreach, hvalue, hrepresentable, habort⟩

/-! ## Operands that leave it -/

/-- One more than the largest signed word. -/
def overflowingSum : Expr ℚ :=
  .binary .add (.literal (.int (2 ^ 63 - 1))) (.literal (.int 1))

/-- The value of an element in the middle of a large set. -/
def middleElement : Expr ℚ :=
  .fieldLoad "V" "x" (.literal (.int (2 ^ 57)))

/-- A function that binds a local to an expression. -/
def assigning (e : Expr ℚ) : LoweredFunc ℚ :=
  ⟨(Func.named "f").withSet (.plain "V") |>.withStmt (.assign "t" e), Table.empty⟩

/-- A large set with a field without values that no function declares. -/
def undeclaredField : Bindings ℚ :=
  Bindings.empty.withSet "V" ((SetData.plain (2 ^ 58)).withField "x" (.float (.vector 128) #[]))

/-- A sum of two words that is no word is not reported as an error, and neither is an element that
    lies past the values of its field: both expressions and the bindings are representable, and the
    runs abort. -/
theorem largeOperands_abort :
    undeclaredField.Representable ∧ overflowingSum.Representable ∧ middleElement.Representable ∧
      ((assigning overflowingSum).execute undeclaredField ⟨.lu, 0⟩).2 = .error .abort ∧
      ((assigning middleElement).execute undeclaredField ⟨.lu, 0⟩).2 = .error .abort := by
  refine ⟨?_, ?_, ?_, rfl, rfl⟩
  · refine Bindings.representable_empty.withSet "V" nofun fun field block values hvalues => ?_
    simp only [SetData.withField, Table.get?_insert] at hvalues
    split at hvalues
    · obtain ⟨rfl, _⟩ := FieldData.float.inj (Option.some.inj hvalues)
      decide
    · cases hvalues
  · simp [overflowingSum, Expr.Representable, Expr.subexprs, Expr.Fits, SignedWord.fits]
  · simp [middleElement, Expr.Representable, Expr.subexprs, Expr.Fits, SignedWord.fits]

end GraphTensor
