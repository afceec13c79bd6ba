import GraphTensor.Proofs.Lowering.Groups
set_option autoImplicit false

/-! # Lowered code is a normal form

What is left after lowering is plain: loops, memory operations and whole-tensor operations over
expressions that name no entry of a tensor, no index and no variable of a kernel (`Expr.Plain`,
`Stmt.Plain`). Plain code is left alone by each of the three passes, and the descriptors that they
ask for have been asked for before. So lowering a lowered function again, with whatever options,
gives the same function.

That what lowering makes is plain is checked by its last step, which searches the body at every
depth (`leftoverIn?`). The inductions are therefore over plain code, not over what it was made
from. -/

namespace GraphTensor

variable {α : Type}

/-! ## Plain code -/

/-- An expression without symbolic constructs at any depth: no entry of a tensor, no index
    expression and no operand of one, and neither an endpoint nor a field of a kernel's element. -/
inductive Expr.Plain : Expr α → Prop where
  /-- A constant. -/
  | literal (value : Literal α) : Plain (.literal value)
  /-- A variable. -/
  | var (name : VarName) : Plain (.var name)
  /-- A whole field. -/
  | field (set : SetName) (name : FieldName) : Plain (.field set name)
  /-- The size of a set. -/
  | setSize (set : SetName) : Plain (.setSize set)
  /-- An endpoint of an element that is worked out. -/
  | endpointOf {set : SetName} {element : Expr α} {slot : Nat} (h : Plain element) :
      Plain (.endpointOf set element slot)
  /-- A field of an element that is worked out. -/
  | fieldLoad {set : SetName} {name : FieldName} {element : Expr α} (h : Plain element) :
      Plain (.fieldLoad set name element)
  /-- An operation. -/
  | binary {op : BinaryOp} {lhs rhs : Expr α} (hlhs : Plain lhs) (hrhs : Plain rhs) :
      Plain (.binary op lhs rhs)
  /-- A negative. -/
  | neg {inner : Expr α} (h : Plain inner) : Plain (.neg inner)
  /-- A search of a pattern. -/
  | locate {pattern : PatternRef} {row col : Expr α} {search : Search} (hrow : Plain row)
      (hcol : Plain col) : Plain (.locate pattern row col search)
  /-- A block at an offset. -/
  | load {buffer : VarName} {offset : Expr α} {block : BlockShape} (h : Plain offset) :
      Plain (.load buffer offset block)
  /-- A block at a position. -/
  | sparseLoad {buffer : VarName} {position : Expr α} {block : BlockShape} (h : Plain position) :
      Plain (.sparseLoad buffer position block)

/-- A statement that is no assembly and no write of an entry, with plain expressions, and the same
    of the statements in it. -/
inductive Stmt.Plain : Stmt α → Prop where
  /-- An assignment. -/
  | assign {var : VarName} {value : Expr α} (h : value.Plain) : Plain (.assign var value)
  /-- An addition to a local or register. -/
  | accumulate {var : VarName} {value : Expr α} (h : value.Plain) : Plain (.accumulate var value)
  /-- A loop. -/
  | loop {header : Loop α} {body : List (Stmt α)} (hheader : ∀ e ∈ header.exprs, e.Plain)
      (hbody : ∀ s ∈ body, Plain s) : Plain (.loop header body)
  /-- A clearing. -/
  | zero (var : VarName) : Plain (.zero var)
  /-- A write of a field. -/
  | fieldWrite (set : SetName) (field : FieldName) (value : VarName) :
      Plain (.fieldWrite set field value)
  /-- A solve. -/
  | solve (task : SolveTask) : Plain (.solve task)
  /-- A write at an offset. -/
  | store {buffer : VarName} {offset value : Expr α} {accumulate : Bool} (hoffset : offset.Plain)
      (hvalue : value.Plain) : Plain (.store buffer offset value accumulate)
  /-- A write at a position. -/
  | sparseStore {buffer : VarName} {position value : Expr α} {accumulate : Bool}
      {block : BlockShape} (hposition : position.Plain) (hvalue : value.Plain) :
      Plain (.sparseStore buffer position value accumulate block)

/-! ## The search for what is left -/

namespace Expr

/-- An expression in which nothing symbolic is found is plain. -/
theorem plain_of_leftover? (e : Expr α) (h : ∀ e' ∈ e.subexprs, e'.leftover? = none) :
    e.Plain := by
  have hself : e.leftover? = none := h e (by cases e <;> simp [subexprs])
  match e with
  | .literal value => exact .literal value
  | .var name => exact .var name
  | .field set name => exact .field set name
  | .setSize set => exact .setSize set
  | .endpointOf _ element _ =>
      exact .endpointOf (plain_of_leftover? element fun e' he' => h e' (by simp [subexprs, he']))
  | .fieldLoad _ _ element =>
      exact .fieldLoad (plain_of_leftover? element fun e' he' => h e' (by simp [subexprs, he']))
  | .binary _ lhs rhs =>
      exact .binary (plain_of_leftover? lhs fun e' he' => h e' (by simp [subexprs, he']))
        (plain_of_leftover? rhs fun e' he' => h e' (by simp [subexprs, he']))
  | .neg inner =>
      exact .neg (plain_of_leftover? inner fun e' he' => h e' (by simp [subexprs, he']))
  | .locate _ row col _ =>
      exact .locate (plain_of_leftover? row fun e' he' => h e' (by simp [subexprs, he']))
        (plain_of_leftover? col fun e' he' => h e' (by simp [subexprs, he']))
  | .load _ offset _ =>
      exact .load (plain_of_leftover? offset fun e' he' => h e' (by simp [subexprs, he']))
  | .sparseLoad _ position _ =>
      exact .sparseLoad (plain_of_leftover? position fun e' he' => h e' (by simp [subexprs, he']))
  | .endpoint _ _ | .elementField _ _ | .index _ _ | .indexed _ | .tensorRead _ _ _ => cases hself
termination_by structural e

theorem Plain.of_mem_subexprs {e e' : Expr α} (h : e.Plain) (he' : e' ∈ e.subexprs) :
    e'.Plain := by
  induction h with
  | literal | var | field | setSize =>
      rw [subexprs, List.mem_singleton] at he'
      rw [he']
      constructor
  | endpointOf h ih | fieldLoad h ih | neg h ih | load h ih | sparseLoad h ih =>
      rw [subexprs, List.mem_cons] at he'
      rcases he' with rfl | he'
      · constructor
        exact h
      · exact ih he'
  | binary hl hr ihl ihr | locate hl hr ihl ihr =>
      rw [subexprs, List.mem_cons, List.mem_append] at he'
      rcases he' with rfl | he' | he'
      · constructor
        · exact hl
        · exact hr
      · exact ihl he'
      · exact ihr he'

theorem Plain.leftover? {e : Expr α} (h : e.Plain) : e.leftover? = none := by
  cases h <;> rfl

theorem Plain.isIndexForm {e : Expr α} (h : e.Plain) : e.isIndexForm = false := by
  cases h <;> rfl

end Expr

namespace Stmt

/-- The expressions of a statement in which nothing symbolic is found are plain. -/
theorem plain_exprs_of_leftover? {s : Stmt α} (h : s.leftover? = none) :
    ∀ e ∈ s.exprs, e.Plain := by
  have hnone : (s.exprs.findSome? fun e => e.subexprs.findSome? Expr.leftover?) = none := by
    cases s with
    | tensorWrite => cases h
    | assemble => cases h
    | _ => exact h
  intro e he
  have hself := List.findSome?_eq_none_iff.1 hnone e he
  exact e.plain_of_leftover? (List.findSome?_eq_none_iff.1 hself)

mutual

/-- A statement in which nothing symbolic is found is plain. -/
theorem plain_of_leftover? (s : Stmt α) (h : ∀ s' ∈ s.substmts, s'.leftover? = none) : s.Plain := by
  have hself : s.leftover? = none := h s (by cases s <;> simp [substmts])
  have hplain := plain_exprs_of_leftover? hself
  match s with
  | .assign _ value => exact .assign (hplain value (by simp [exprs]))
  | .accumulate _ value => exact .accumulate (hplain value (by simp [exprs]))
  | .loop header body =>
      exact .loop hplain (plainBody_of_leftover? body fun s' hs' => h s' (by simp [substmts, hs']))
  | .zero var => exact .zero var
  | .fieldWrite set field value => exact .fieldWrite set field value
  | .solve task => exact .solve task
  | .store _ offset value _ =>
      exact .store (hplain offset (by simp [exprs])) (hplain value (by simp [exprs]))
  | .sparseStore _ position value _ _ =>
      exact .sparseStore (hplain position (by simp [exprs])) (hplain value (by simp [exprs]))
  | .assemble _ _ _ _ | .tensorWrite _ _ _ _ _ => cases hself
termination_by structural s

theorem plainBody_of_leftover? (body : List (Stmt α))
    (h : ∀ s' ∈ substmtsOfList body, s'.leftover? = none) : ∀ s ∈ body, s.Plain := by
  match body with
  | [] => exact fun _ hs => absurd hs List.not_mem_nil
  | s :: rest =>
      exact List.forall_mem_cons.2
        ⟨plain_of_leftover? s fun s' hs' => h s' (by simp [substmtsOfList, hs']),
          plainBody_of_leftover? rest fun s' hs' => h s' (by simp [substmtsOfList, hs'])⟩
termination_by structural body

end

theorem mem_substmtsOfList {body : List (Stmt α)} {s' : Stmt α} :
    s' ∈ substmtsOfList body ↔ ∃ s ∈ body, s' ∈ s.substmts := by
  induction body with
  | nil => simp [substmtsOfList]
  | cons s rest ih => simp [substmtsOfList, ih]

theorem Plain.of_mem_substmts {s s' : Stmt α} (h : s.Plain) (hs' : s' ∈ s.substmts) : s'.Plain := by
  induction h with
  | loop hheader hbody ih =>
      rw [substmts, List.mem_cons] at hs'
      rcases hs' with rfl | hs'
      · exact .loop hheader hbody
      · obtain ⟨s, hs, hs'⟩ := mem_substmtsOfList.1 hs'
        exact ih s hs hs'
  | assign h | accumulate h =>
      rw [substmts, List.mem_singleton] at hs'
      rw [hs']
      constructor
      exact h
  | zero | fieldWrite | solve =>
      rw [substmts, List.mem_singleton] at hs'
      rw [hs']
      constructor
  | store hplace hvalue | sparseStore hplace hvalue =>
      rw [substmts, List.mem_singleton] at hs'
      rw [hs']
      constructor
      · exact hplace
      · exact hvalue

theorem Plain.exprs {s : Stmt α} (h : s.Plain) : ∀ e ∈ s.exprs, e.Plain := by
  cases h with
  | assign h | accumulate h => simpa [Stmt.exprs] using h
  | loop hheader _ => exact hheader
  | zero | fieldWrite | solve => simp [Stmt.exprs]
  | store hplace hvalue | sparseStore hplace hvalue => simp [Stmt.exprs, hplace, hvalue]

theorem Plain.leftover? {s : Stmt α} (h : s.Plain) : s.leftover? = none := by
  have hnone : (s.exprs.findSome? fun e => e.subexprs.findSome? Expr.leftover?) = none :=
    List.findSome?_eq_none_iff.2 fun e he => List.findSome?_eq_none_iff.2 fun _ he' =>
      ((h.exprs e he).of_mem_subexprs he').leftover?
  cases h <;> exact hnone

theorem Plain.isAssemble {s : Stmt α} (h : s.Plain) : s.isAssemble = false := by
  cases h <;> rfl

theorem Plain.hasIndexForm {s : Stmt α} (h : s.Plain) : s.hasIndexForm = false := by
  rw [Stmt.hasIndexForm, List.any_eq_false]
  intro s' hs' hany
  obtain ⟨e, he, hany⟩ := List.any_eq_true.1 hany
  obtain ⟨e', he', hform⟩ := List.any_eq_true.1 hany
  have hplain := ((h.of_mem_substmts hs').exprs e he).of_mem_subexprs he'
  rw [hplain.isIndexForm] at hform
  cases hform

theorem Plain.isContraction {s : Stmt α} (h : s.Plain) : s.isContraction = false := by
  unfold Stmt.isContraction
  split
  · cases h with
    | assign h => cases h
  · rfl

end Stmt

/-- Nothing symbolic is found in a body just if all its statements are plain. -/
theorem leftoverIn?_eq_none_iff {body : List (Stmt α)} :
    leftoverIn? body = none ↔ ∀ s ∈ body, s.Plain := by
  rw [leftoverIn?, List.findSome?_eq_none_iff]
  constructor
  · exact Stmt.plainBody_of_leftover? body
  · intro h s' hs'
    obtain ⟨s, hs, hs'⟩ := Stmt.mem_substmtsOfList.1 hs'
    exact ((h s hs).of_mem_substmts hs').leftover?

/-! ## Passes over plain code -/

namespace AccessContext

/-- A plain expression has no accesses. -/
theorem lowerExpr_of_plain (c : AccessContext α) {e : Expr α} (h : e.Plain) :
    c.lowerExpr e = .ok e := by
  induction h with
  | literal | var | field | setSize => rfl
  | endpointOf _ ih | fieldLoad _ ih | neg _ ih | load _ ih | sparseLoad _ ih =>
      rw [lowerExpr, ih]
      rfl
  | binary _ _ ihl ihr | locate _ _ ihl ihr =>
      rw [lowerExpr, ihl, ihr]
      rfl

theorem lowerLoop_of_plain (c : AccessContext α) {header : Loop α}
    (h : ∀ e ∈ header.exprs, e.Plain) : c.lowerLoop header = .ok header := by
  cases header with
  | elements | range | pattern => rfl
  | row =>
      rw [lowerLoop, c.lowerExpr_of_plain (h _ (by simp [Loop.exprs]))]
      rfl
  | intersect =>
      rw [lowerLoop, c.lowerExpr_of_plain (h _ (by simp [Loop.exprs])),
        c.lowerExpr_of_plain (h _ (by simp [Loop.exprs]))]
      rfl

variable {c c' : AccessContext α}

/-- The write of an entry stays as it is once it is lowered. -/
theorem lowerStmt_write_of_plain {tensor : VarName} {value : Expr α} {accumulate : Bool}
    {address : Address α} (h : (address.write tensor value accumulate).Plain) :
    c.lowerStmt (address.write tensor value accumulate) =
      .ok (address.write tensor value accumulate) := by
  cases address with
  | dense | sparse => rfl
  | register =>
      cases accumulate with
      | false =>
          cases h with
          | assign hvalue =>
              simp only [Address.write, Bool.false_eq_true, if_false]
              rw [lowerStmt, c.lowerExpr_of_plain hvalue]
              rfl
      | true =>
          cases h with
          | accumulate hvalue =>
              simp only [Address.write, if_true]
              rw [lowerStmt, c.lowerExpr_of_plain hvalue]
              rfl

mutual

/-- A statement that a statement is lowered to, if it is plain, is lowered to itself: what it asks
    of the descriptors has been found before. -/
theorem lowerStmt_again (hstorages : c'.storages = c.storages) (s : Stmt α) {s' : Stmt α}
    (h : c.lowerStmt s = .ok s') (hplain : s'.Plain) : c'.lowerStmt s' = .ok s' := by
  match s with
  | .assign _ value =>
      obtain ⟨value', _, rfl⟩ := lowerStmt_assign_eq_ok_iff.1 h
      cases hplain with
      | assign hvalue => exact lowerStmt_assign_eq_ok_iff.2 ⟨_, c'.lowerExpr_of_plain hvalue, rfl⟩
  | .accumulate _ value =>
      obtain ⟨value', _, rfl⟩ := lowerStmt_accumulate_eq_ok_iff.1 h
      cases hplain with
      | accumulate hvalue =>
          exact lowerStmt_accumulate_eq_ok_iff.2 ⟨_, c'.lowerExpr_of_plain hvalue, rfl⟩
  | .tensorWrite _ _ _ _ _ =>
      obtain ⟨value', address, _, _, rfl⟩ := lowerStmt_tensorWrite_eq_ok_iff.1 h
      exact lowerStmt_write_of_plain hplain
  | .loop header body =>
      obtain ⟨header', body', _, hbody, rfl⟩ := lowerStmt_loop_eq_ok_iff.1 h
      cases hplain with
      | loop hheader hplain =>
          exact lowerStmt_loop_eq_ok_iff.2 ⟨_, _, c'.lowerLoop_of_plain hheader,
            lowerBody_again hstorages body hbody hplain, rfl⟩
  | .zero var =>
      obtain ⟨hstorage, rfl⟩ := lowerStmt_zero_eq_ok_iff.1 h
      exact lowerStmt_zero_eq_ok_iff.2 ⟨hstorages ▸ hstorage, rfl⟩
  | .fieldWrite _ _ value =>
      obtain ⟨hstorage, rfl⟩ := lowerStmt_fieldWrite_eq_ok_iff.1 h
      exact lowerStmt_fieldWrite_eq_ok_iff.2 ⟨hstorages ▸ hstorage, rfl⟩
  | .solve task =>
      obtain ⟨hcheck, rfl⟩ := lowerStmt_solve_eq_ok_iff.1 h
      have hagain : c'.checkSolve task = .ok () := by
        simp only [checkSolve, AccessContext.storage, hstorages]
        exact hcheck
      exact lowerStmt_solve_eq_ok_iff.2 ⟨hagain, rfl⟩
  | .assemble _ _ _ _ => cases h
  | .store _ _ _ _ =>
      obtain rfl := Except.ok.inj h
      rfl
  | .sparseStore _ _ _ _ _ =>
      obtain rfl := Except.ok.inj h
      rfl
termination_by structural s

theorem lowerBody_again (hstorages : c'.storages = c.storages) (body : List (Stmt α))
    {body' : List (Stmt α)} (h : c.lowerBody body = .ok body') (hplain : ∀ s ∈ body', s.Plain) :
    c'.lowerBody body' = .ok body' := by
  match body with
  | [] =>
      obtain rfl := Except.ok.inj h
      rfl
  | s :: rest =>
      obtain ⟨s', rest', hs, hrest, rfl⟩ := lowerBody_cons_eq_ok.1 h
      obtain ⟨hs', hrest'⟩ := List.forall_mem_cons.1 hplain
      exact lowerBody_cons_eq_ok.2 ⟨s', rest', lowerStmt_again hstorages s hs hs',
        lowerBody_again hstorages rest hrest hrest', rfl⟩
termination_by structural body

end

end AccessContext

namespace Func

variable (f : Func α) (storages : Storages) {body : List (Stmt α)}

/-- The first pass leaves plain statements alone. -/
theorem lowerAssembliesFrom_of_plain (h : ∀ s ∈ body, s.Plain) (zeroed : List VarName) :
    f.lowerAssembliesFrom storages zeroed body = .ok body := by
  induction body with
  | nil => rfl
  | cons s rest ih =>
      obtain ⟨hs, hrest⟩ := List.forall_mem_cons.1 h
      have hchildren : s.children.any Stmt.isAssemble = false := by
        rw [List.any_eq_false]
        intro s' hs'
        cases hs with
        | loop _ hbody => simp [(hbody s' hs').isAssemble]
        | _ => cases hs'
      unfold lowerAssembliesFrom
      split
      · contradiction
      · next heq =>
          cases heq
          cases hs
      · next heq =>
          cases heq
          rw [hchildren, ih hrest]
          rfl

variable [Scalar α]

theorem lowerIndexExpressionsFrom_of_plain (h : ∀ s ∈ body, s.Plain) (names : Nat) :
    f.lowerIndexExpressionsFrom storages names body = .ok body := by
  induction body with
  | nil => rfl
  | cons s rest ih =>
      obtain ⟨hs, hrest⟩ := List.forall_mem_cons.1 h
      unfold lowerIndexExpressionsFrom
      split
      · contradiction
      · next heq =>
          cases heq
          cases hs.isContraction
      · next heq =>
          cases heq
          rw [hs.hasIndexForm, ih hrest]
          rfl

variable {f storages}

/-- What lowering makes is plain, and the last pass made it. -/
theorem plain_of_lowerWith {options : LowerOptions} {l : LoweredFunc α}
    (h : f.lowerWith storages options = .ok l) :
    (∀ s ∈ l.func.body, s.Plain) ∧ l.storages = storages ∧
      ∃ (c : AccessContext α) (body : List (Stmt α)),
        c.storages = storages ∧ c.lowerBody body = .ok l.func.body := by
  obtain ⟨_, _, h⟩ := Outcome.bind_eq_ok_iff.1 h
  obtain ⟨g, _, h⟩ := Outcome.bind_eq_ok_iff.1 h
  obtain ⟨last, hlast, h⟩ := Outcome.bind_eq_ok_iff.1 h
  obtain rfl := Except.ok.inj h
  obtain ⟨body, hbody, hlast⟩ := Outcome.bind_eq_ok_iff.1 hlast
  split at hlast
  · cases hlast
  · next hleft =>
      obtain rfl := Except.ok.inj hlast
      exact ⟨leftoverIn?_eq_none_iff.1 hleft, rfl, _, g.body, rfl, hbody⟩

/-- **Lowered code is a normal form.** Whatever lowering makes of a function, against whatever table
    of descriptors, is plain at every depth, and each of the passes leaves it as it is. Lowering it
    again therefore succeeds and gives the same, also if rows are to be searched in another way. -/
theorem normalForm_of_lowerWith {options : LowerOptions} {l : LoweredFunc α}
    (h : f.lowerWith storages options = .ok l) :
    (∀ s ∈ l.func.body, s.Plain) ∧
      l.func.lowerAssemblies storages = .ok l.func ∧
      l.func.lowerIndexExpressions storages = .ok l.func ∧
      (∀ search, l.func.lowerAccesses storages search = .ok l.func) ∧
      ∀ options', l.func.lowerWith storages options' = .ok l := by
  obtain ⟨hplain, hstorages, c, body, hc, hbody⟩ := plain_of_lowerWith h
  have hfirst : l.func.lowerAssemblies storages = .ok l.func := by
    rw [lowerAssemblies, lowerAssembliesFrom_of_plain _ _ hplain]
    rfl
  have hsecond : l.func.lowerIndexExpressions storages = .ok l.func := by
    rw [lowerIndexExpressions, lowerIndexExpressionsFrom_of_plain _ _ hplain]
    rfl
  have hthird : ∀ search, l.func.lowerAccesses storages search = .ok l.func := by
    intro search
    refine Outcome.bind_eq_ok_iff.2 ⟨l.func.body, ?_, ?_⟩
    · have hcontext : (⟨l.func, storages, search⟩ : AccessContext α).storages = c.storages := hc.symm
      exact AccessContext.lowerBody_again hcontext body hbody hplain
    · rw [leftoverIn?_eq_none_iff.2 hplain]
      rfl
  refine ⟨hplain, hfirst, hsecond, hthird, fun options' => ?_⟩
  refine Outcome.bind_eq_ok_iff.2 ⟨l.func, hfirst, Outcome.bind_eq_ok_iff.2 ⟨l.func, hsecond,
    Outcome.bind_eq_ok_iff.2 ⟨l.func, hthird _, ?_⟩⟩⟩
  rw [← hstorages]
  rfl

end Func

/-- A matrix over edges is applied to a field, and solved for the product. What is left of that,
    with its searches by halving, is not lowered to scans. -/
theorem edgeProduct_normalForm :
    let one : Expr Float := .literal (.float 1)
    let i : IndexVar := ⟨"i", .set "V"⟩
    let j : IndexVar := ⟨"j", .set "V"⟩
    let f := (Func.named "f").withSet ((SetDecl.plain "V").withField "x" (.float .scalar))
      |>.withSet (.relation "E" "V" 2)
      |>.withLocal "A" (.matrix "V" "V" .scalar)
      |>.withLocal "b" (.vector "V" .scalar)
      |>.withResult "x" (.vector "V" .scalar)
      |>.withAssembly ["A"] "E" (fun k =>
        [.contribute "A" [k.endpointExpr 0, k.endpointExpr 1] one])
      |>.withStmt (.assign "x" (.field "V" "x"))
      |>.withStmt (.assign "b"
        (.index [i] (.binary .mul (.indexed ⟨"A", [i, j]⟩) (.indexed ⟨"x", [j]⟩))))
      |>.withStmt (.solve (.direct ⟨"A", "b", "x", none⟩))
      |>.withStmt (.fieldWrite "V" "x" "x")
    ∃ storages l, f.inferStorage = .ok storages ∧ f.lowerWith storages .standard = .ok l ∧
      (∀ s ∈ l.func.body, s.Plain) ∧ l.func.lowerWith storages ⟨.linear⟩ = .ok l := by
  intro one i j f
  obtain ⟨storages, hstorages, l, hlower, _⟩ : ∃ storages, f.inferStorage = .ok storages ∧
      ∃ l, f.lowerWith storages .standard = .ok l ∧ l.func.body.length = 7 := by
    decide +kernel
  obtain ⟨hplain, _, _, _, hagain⟩ := Func.normalForm_of_lowerWith hlower
  exact ⟨storages, l, hstorages, hlower, hplain, hagain ⟨.linear⟩⟩

end GraphTensor
