import GraphTensor.Proofs.Lowering.Groups
import GraphTensor.Proofs.Machine.Start
set_option autoImplicit false

/-! # The two searches cannot be told apart

Changing how a program searches rows (`Func.searching`) commutes with lowering and is not seen by a
run: halving and scanning find the same positions in every pattern that a run can get, since all of
these have ascending rows. So the strategy that a function is lowered with shows neither in whether
lowering succeeds nor in what the lowered function does.

For each function of the last pass and of the machine there is a lemma that lets the change pass
through it. Only one of them has to look at a search, `Machine.locateValue_of_searches`. -/

namespace GraphTensor

variable {α : Type}

/-! ## Changing the search of a program -/

namespace Expr

mutual

/-- An expression that searches rows in a given way wherever it looks up a place. -/
def searching (search : Search) (e : Expr α) : Expr α :=
  match e with
  | .endpointOf set element slot => .endpointOf set (element.searching search) slot
  | .fieldLoad set name element => .fieldLoad set name (element.searching search)
  | .binary op lhs rhs => .binary op (lhs.searching search) (rhs.searching search)
  | .neg inner => .neg (inner.searching search)
  | .index free body => .index free (body.searching search)
  | .tensorRead tensor indices position =>
    .tensorRead tensor (searchingList search indices) position
  | .locate pattern row col _ =>
    .locate pattern (row.searching search) (col.searching search) search
  | .load buffer offset block => .load buffer (offset.searching search) block
  | .sparseLoad buffer position block => .sparseLoad buffer (position.searching search) block
  | .literal value => .literal value
  | .var name => .var name
  | .endpoint endpoints slot => .endpoint endpoints slot
  | .elementField element name => .elementField element name
  | .field set name => .field set name
  | .indexed operand => .indexed operand
  | .setSize set => .setSize set
termination_by structural e

/-- The expressions of a list, each searching in a given way. -/
def searchingList (search : Search) (es : List (Expr α)) : List (Expr α) :=
  match es with
  | [] => []
  | e :: rest => e.searching search :: searchingList search rest
termination_by structural es

end

theorem searchingList_eq_map (search : Search) (es : List (Expr α)) :
    searchingList search es = es.map (searching search) := by
  induction es with
  | nil => rfl
  | cons e rest ih => rw [searchingList, ih, List.map_cons]

theorem length_searchingList (search : Search) (es : List (Expr α)) :
    (searchingList search es).length = es.length := by
  rw [searchingList_eq_map, List.length_map]

end Expr

/-- A header whose expressions search in a given way. -/
def Loop.searching (search : Search) : Loop α → Loop α
  | .row p place col position => .row p (place.searching search) col position
  | .intersect left right leftRow rightRow col leftPosition rightPosition =>
    .intersect left right (leftRow.searching search) (rightRow.searching search) col leftPosition
      rightPosition
  | .elements set element => .elements set element
  | .range var extent => .range var extent
  | .pattern p i j position => .pattern p i j position

namespace Stmt

mutual

/-- A statement that searches in a given way. -/
def searching (search : Search) (s : Stmt α) : Stmt α :=
  match s with
  | .assign var value => .assign var (value.searching search)
  | .accumulate var value => .accumulate var (value.searching search)
  | .tensorWrite tensor indices position value adds =>
    .tensorWrite tensor (Expr.searchingList search indices) position (value.searching search) adds
  | .assemble targets set kernel body => .assemble targets set kernel (searchingBody search body)
  | .loop header body => .loop (header.searching search) (searchingBody search body)
  | .store buffer offset value adds =>
    .store buffer (offset.searching search) (value.searching search) adds
  | .sparseStore buffer position value adds block =>
    .sparseStore buffer (position.searching search) (value.searching search) adds block
  | .zero var => .zero var
  | .fieldWrite set field value => .fieldWrite set field value
  | .solve task => .solve task
termination_by structural s

/-- The statements of a body, each searching in a given way. -/
def searchingBody (search : Search) (body : List (Stmt α)) : List (Stmt α) :=
  match body with
  | [] => []
  | s :: rest => s.searching search :: searchingBody search rest
termination_by structural body

end

end Stmt

/-- The function with all searches done in a given way. -/
def Func.searching (search : Search) (f : Func α) : Func α :=
  f.withBody (Stmt.searchingBody search f.body)

/-- The address with its expressions searching in a given way. -/
def Address.searching (search : Search) : Address α → Address α
  | .dense offset block => .dense (offset.searching search) block
  | .sparse position block => .sparse (position.searching search) block
  | .register => .register

/-! ## What the change keeps -/

namespace Expr

mutual

theorem subexprs_searching (search : Search) (e : Expr α) :
    (e.searching search).subexprs = e.subexprs.map (searching search) := by
  cases e with
  | endpointOf _ element _ =>
      simp [searching, subexprs, subexprs_searching search element]
  | fieldLoad _ _ element => simp [searching, subexprs, subexprs_searching search element]
  | binary _ lhs rhs =>
      simp [searching, subexprs, subexprs_searching search lhs, subexprs_searching search rhs]
  | neg inner => simp [searching, subexprs, subexprs_searching search inner]
  | index _ body => simp [searching, subexprs, subexprs_searching search body]
  | tensorRead _ indices _ =>
      simp [searching, subexprs, subexprsOfList_searchingList search indices]
  | locate _ row col _ =>
      simp [searching, subexprs, subexprs_searching search row, subexprs_searching search col]
  | load _ offset _ => simp [searching, subexprs, subexprs_searching search offset]
  | sparseLoad _ position _ => simp [searching, subexprs, subexprs_searching search position]
  | literal _ => rfl
  | var _ => rfl
  | endpoint _ _ => rfl
  | elementField _ _ => rfl
  | field _ _ => rfl
  | indexed _ => rfl
  | setSize _ => rfl
termination_by structural e

theorem subexprsOfList_searchingList (search : Search) (es : List (Expr α)) :
    subexprsOfList (searchingList search es) = (subexprsOfList es).map (searching search) := by
  cases es with
  | nil => rfl
  | cons e rest =>
      simp [searchingList, subexprsOfList, subexprs_searching search e,
        subexprsOfList_searchingList search rest]
termination_by structural es

end

/-- A property of expressions that does not depend on the search is found at the same places. -/
theorem findSome?_subexprs_searching {β : Type} {search : Search} {f : Expr α → Option β}
    (hf : ∀ e, f (e.searching search) = f e) (e : Expr α) :
    (e.searching search).subexprs.findSome? f = e.subexprs.findSome? f := by
  rw [subexprs_searching, List.findSome?_map]
  exact congrArg (e.subexprs.findSome? ·) (funext hf)

theorem leftover?_searching (search : Search) (e : Expr α) :
    (e.searching search).leftover? = e.leftover? := by
  cases e <;> rfl

theorem locatePattern?_searching (search : Search) (e : Expr α) :
    (e.searching search).locatePattern? = e.locatePattern? := by
  cases e <;> rfl

end Expr

namespace Stmt

theorem exprs_searching (search : Search) (s : Stmt α) :
    (s.searching search).exprs = s.exprs.map (Expr.searching search) := by
  cases s with
  | tensorWrite _ indices _ value _ =>
      simp [searching, exprs, Expr.searchingList_eq_map]
  | loop header _ => cases header <;> rfl
  | _ => rfl

mutual

theorem substmts_searching (search : Search) (s : Stmt α) :
    (s.searching search).substmts = s.substmts.map (searching search) := by
  cases s with
  | assemble _ _ _ body => simp [searching, substmts, substmtsOfList_searchingBody search body]
  | loop _ body => simp [searching, substmts, substmtsOfList_searchingBody search body]
  | assign _ _ => rfl
  | accumulate _ _ => rfl
  | tensorWrite _ _ _ _ _ => rfl
  | zero _ => rfl
  | fieldWrite _ _ _ => rfl
  | solve _ => rfl
  | store _ _ _ _ => rfl
  | sparseStore _ _ _ _ _ => rfl
termination_by structural s

theorem substmtsOfList_searchingBody (search : Search) (body : List (Stmt α)) :
    substmtsOfList (searchingBody search body) =
      (substmtsOfList body).map (searching search) := by
  cases body with
  | nil => rfl
  | cons s rest =>
      simp [searchingBody, substmtsOfList, substmts_searching search s,
        substmtsOfList_searchingBody search rest]
termination_by structural body

end

theorem leftover?_searching (search : Search) (s : Stmt α) :
    (s.searching search).leftover? = s.leftover? := by
  have hexprs : (s.searching search).exprs.findSome? (·.subexprs.findSome? Expr.leftover?) =
      s.exprs.findSome? (·.subexprs.findSome? Expr.leftover?) := by
    rw [exprs_searching, List.findSome?_map]
    exact congrArg (s.exprs.findSome? ·)
      (funext (Expr.findSome?_subexprs_searching (Expr.leftover?_searching search)))
  cases s with
  | tensorWrite _ _ _ _ _ => rfl
  | assemble _ _ _ _ => rfl
  | _ => exact hexprs

theorem patterns_searching (search : Search) (s : Stmt α) :
    (s.searching search).patterns = s.patterns := by
  have hlooked : ((s.searching search).exprs.flatMap fun e =>
      e.subexprs.filterMap Expr.locatePattern?) =
        s.exprs.flatMap fun e => e.subexprs.filterMap Expr.locatePattern? := by
    rw [exprs_searching, List.flatMap_map]
    refine congrArg (s.exprs.flatMap ·) (funext fun e => ?_)
    rw [Expr.subexprs_searching, List.filterMap_map]
    exact congrArg (e.subexprs.filterMap ·) (funext (Expr.locatePattern?_searching search))
  have hlooped : ∀ header : Loop α, (header.searching search).patterns = header.patterns := by
    intro header
    cases header <;> rfl
  cases s with
  | loop header body => exact congrArg₂ (· ++ ·) (hlooped header) hlooked
  | _ => exact hlooked

end Stmt

theorem leftoverIn?_searchingBody (search : Search) (body : List (Stmt α)) :
    leftoverIn? (Stmt.searchingBody search body) = leftoverIn? body := by
  rw [leftoverIn?, Stmt.substmtsOfList_searchingBody, List.findSome?_map]
  exact congrArg ((Stmt.substmtsOfList body).findSome? ·)
    (funext (Stmt.leftover?_searching search))

theorem Func.patterns_searching (search : Search) (f : Func α) (storages : Storages) :
    (f.searching search).patterns storages = f.patterns storages := by
  rw [patterns, patterns]
  refine congrArg (storages.values.filterMap TensorStorage.pattern? ++ ·) ?_
  show (Stmt.substmtsOfList (Stmt.searchingBody search f.body)).flatMap Stmt.patterns = _
  rw [Stmt.substmtsOfList_searchingBody, List.flatMap_map]
  exact congrArg ((Stmt.substmtsOfList f.body).flatMap ·)
    (funext (Stmt.patterns_searching search))

/-! ## Lowering -/

/-- The context with all searches done in a given way. -/
def AccessContext.searching (search : Search) (c : AccessContext α) : AccessContext α :=
  ⟨c.func.searching search, c.storages, search⟩

theorem Address.read_searching (search : Search) (tensor : VarName) (a : Address α) :
    (a.searching search).read tensor = (a.read tensor).searching search := by
  cases a <;> rfl

theorem Address.write_searching (search : Search) (tensor : VarName) (value : Expr α)
    (accumulate : Bool) (a : Address α) :
    (a.searching search).write tensor (value.searching search) accumulate =
      (a.write tensor value accumulate).searching search := by
  cases a with
  | register => cases accumulate <;> rfl
  | _ => rfl

theorem extentExpr_searching (search : Search) (dim : IndexDomain) :
    (dim.extentExpr : Expr α).searching search = dim.extentExpr := by
  cases dim <;> rfl

theorem rowMajorFrom_searching (search : Search) (outer : Expr α) (indices : List (Expr α))
    (dims : List IndexDomain) :
    rowMajorFrom (outer.searching search) (Expr.searchingList search indices) dims =
      (rowMajorFrom outer indices dims).searching search := by
  induction indices generalizing outer dims with
  | nil => rfl
  | cons index indices ih =>
      cases dims with
      | nil => rfl
      | cons dim dims =>
          rw [rowMajorFrom, ← ih]
          simp only [Expr.searchingList, rowMajorFrom, Expr.searching, extentExpr_searching]

theorem rowMajor_searching (search : Search) (indices : List (Expr α)) (dims : List IndexDomain) :
    rowMajor (Expr.searchingList search indices) dims = (rowMajor indices dims).searching search := by
  cases indices with
  | nil => rfl
  | cons index indices =>
      cases dims with
      | nil => rfl
      | cons dim dims => exact rowMajorFrom_searching search index indices dims

namespace AccessContext

variable {c : AccessContext α} {search : Search}

theorem offset_searching (type : TensorType) (block : BlockShape) (indices : List (Expr α)) :
    offset type block (Expr.searchingList search indices) =
      (·.searching search) <$> offset type block indices := by
  simp only [offset, map_bind, map_pure, rowMajor_searching]
  refine Except.bind_congr fun length _ => ?_
  split <;> rfl

theorem address_searching (tensor : VarName) (position : Option VarName) (count : Nat)
    (indices : Lowered (List (Expr α))) :
    (c.searching search).address tensor position count
        (Expr.searchingList search <$> indices) =
      (·.searching search) <$> c.address tensor position count indices := by
  simp only [address, map_bind]
  refine Except.bind_congr fun storage _ => ?_
  cases hkind : storage.kind with
  | dense =>
      simp only [map_bind, bind_map_left, offset_searching, map_pure]
      rfl
  | register => rfl
  | sparse pattern =>
      cases position with
      | some position => rfl
      | none =>
          simp only [map_bind, bind_map_left]
          refine Except.bind_congr fun _ _ => Except.bind_congr fun indices _ => ?_
          match indices with
          | [] => rfl
          | [_] => rfl
          | [_, _] => rfl
          | _ :: _ :: _ :: _ => rfl

mutual

theorem lowerExpr_searching (e : Expr α) :
    (c.searching search).lowerExpr (e.searching search) =
      (·.searching search) <$> c.lowerExpr e := by
  cases e with
  | tensorRead tensor indices position =>
      simp only [Expr.searching, lowerExpr, Expr.length_searchingList, lowerExprs_searching indices,
        address_searching, map_bind, bind_map_left, map_pure, Address.read_searching]
  | binary op lhs rhs =>
      simp only [Expr.searching, lowerExpr, lowerExpr_searching lhs, lowerExpr_searching rhs,
        map_bind, bind_map_left, map_pure]
  | locate pattern row col _ =>
      simp only [Expr.searching, lowerExpr, lowerExpr_searching row, lowerExpr_searching col,
        map_bind, bind_map_left, map_pure]
  | neg inner =>
      simp only [Expr.searching, lowerExpr, lowerExpr_searching inner, map_bind, bind_map_left,
        map_pure]
  | endpointOf _ element _ =>
      simp only [Expr.searching, lowerExpr, lowerExpr_searching element, map_bind, bind_map_left,
        map_pure]
  | fieldLoad _ _ element =>
      simp only [Expr.searching, lowerExpr, lowerExpr_searching element, map_bind, bind_map_left,
        map_pure]
  | load _ offset _ =>
      simp only [Expr.searching, lowerExpr, lowerExpr_searching offset, map_bind, bind_map_left,
        map_pure]
  | sparseLoad _ position _ =>
      simp only [Expr.searching, lowerExpr, lowerExpr_searching position, map_bind, bind_map_left,
        map_pure]
  | literal _ => rfl
  | var _ => rfl
  | field _ _ => rfl
  | setSize _ => rfl
  | endpoint _ _ => rfl
  | elementField _ _ => rfl
  | index _ _ => rfl
  | indexed _ => rfl
termination_by structural e

theorem lowerExprs_searching (es : List (Expr α)) :
    (c.searching search).lowerExprs (Expr.searchingList search es) =
      Expr.searchingList search <$> c.lowerExprs es := by
  cases es with
  | nil => rfl
  | cons e rest =>
      simp only [Expr.searchingList, lowerExprs, lowerExpr_searching e, lowerExprs_searching rest,
        map_bind, bind_map_left, map_pure]
termination_by structural es

end

theorem lowerLoop_searching (header : Loop α) :
    (c.searching search).lowerLoop (header.searching search) =
      (·.searching search) <$> c.lowerLoop header := by
  cases header with
  | row _ place _ _ =>
      simp only [Loop.searching, lowerLoop, lowerExpr_searching place, map_bind, bind_map_left,
        map_pure]
  | intersect _ _ leftRow rightRow _ _ _ =>
      simp only [Loop.searching, lowerLoop, lowerExpr_searching leftRow,
        lowerExpr_searching rightRow, map_bind, bind_map_left, map_pure]
  | elements _ _ => rfl
  | range _ _ => rfl
  | pattern _ _ _ _ => rfl

mutual

theorem lowerStmt_searching (s : Stmt α) :
    (c.searching search).lowerStmt (s.searching search) =
      (·.searching search) <$> c.lowerStmt s := by
  cases s with
  | assign _ value =>
      simp only [Stmt.searching, lowerStmt, lowerExpr_searching value, map_bind, bind_map_left,
        map_pure]
  | accumulate _ value =>
      simp only [Stmt.searching, lowerStmt, lowerExpr_searching value, map_bind, bind_map_left,
        map_pure]
  | tensorWrite tensor indices position value adds =>
      simp only [Stmt.searching, lowerStmt, lowerExpr_searching value,
        Expr.length_searchingList, lowerExprs_searching indices, address_searching, map_bind,
        bind_map_left, map_pure, Address.write_searching]
  | loop header body =>
      simp only [Stmt.searching, lowerStmt, lowerLoop_searching header, lowerBody_searching body,
        map_bind, bind_map_left, map_pure]
  | zero var =>
      simp only [Stmt.searching, lowerStmt, map_bind, map_pure]
      rfl
  | fieldWrite _ _ value =>
      simp only [Stmt.searching, lowerStmt, map_bind, map_pure]
      rfl
  | solve task =>
      simp only [Stmt.searching, lowerStmt, map_bind, map_pure]
      rfl
  | assemble _ _ _ _ => rfl
  | store _ _ _ _ => rfl
  | sparseStore _ _ _ _ _ => rfl
termination_by structural s

/-- **Lowering accesses commutes with changing the search.** -/
theorem lowerBody_searching (body : List (Stmt α)) :
    (c.searching search).lowerBody (Stmt.searchingBody search body) =
      Stmt.searchingBody search <$> c.lowerBody body := by
  cases body with
  | nil => rfl
  | cons s rest =>
      simp only [Stmt.searchingBody, lowerBody, lowerStmt_searching s, lowerBody_searching rest,
        map_bind, bind_map_left, map_pure]
termination_by structural body

end

end AccessContext

theorem Func.lowerAccesses_searching (search search' : Search) (f : Func α) (storages : Storages) :
    (f.searching search).lowerAccesses storages search =
      (·.searching search) <$> f.lowerAccesses storages search' := by
  have hbody : (AccessContext.searching search ⟨f, storages, search'⟩).lowerBody
      (Stmt.searchingBody search f.body) =
        Stmt.searchingBody search <$> (AccessContext.mk f storages search').lowerBody f.body :=
    AccessContext.lowerBody_searching f.body
  simp only [lowerAccesses, map_bind]
  show (AccessContext.lowerBody (AccessContext.searching search ⟨f, storages, search'⟩)
    (Stmt.searchingBody search f.body) >>= _) = _
  rw [hbody, bind_map_left]
  refine Except.bind_congr fun body _ => ?_
  rw [leftoverIn?_searchingBody]
  cases leftoverIn? body <;> rfl

/-! ## Running -/

namespace Machine

/-- The machine whose function searches in a given way. -/
def searching (search : Search) (m : Machine α) : Machine α :=
  { m with func := m.func.searching search }

theorem locateValue_of_searches {p : Pattern} (h : p.Valid) (search search' : Search)
    (row col : Int) : (locateValue p search row col : Value α) = locateValue p search' row col := by
  simp only [locateValue, h.locate_eq search search']

variable [Scalar α] {m : Machine α} {search : Search}

/-- **The value of an expression** does not depend on the search. -/
theorem eval_searching (hfit : m.resolution.PatternsFit) (mem : Memory α) :
    (e : Expr α) → (m.searching search).eval mem (e.searching search) = m.eval mem e
  | .locate pattern row col search' => by
      simp only [Expr.searching, eval, eval_searching hfit mem row, eval_searching hfit mem col]
      refine Except.bind_congr fun p hp => ?_
      simp only [locateValue_of_searches (hfit.valid hp) search search']
  | .endpointOf _ element _ => by
      simp only [Expr.searching, eval, eval_searching hfit mem element]
      rfl
  | .fieldLoad _ _ element => by
      simp only [Expr.searching, eval, eval_searching hfit mem element]
      rfl
  | .binary _ lhs rhs => by
      simp only [Expr.searching, eval, eval_searching hfit mem lhs, eval_searching hfit mem rhs]
  | .neg inner => by simp only [Expr.searching, eval, eval_searching hfit mem inner]
  | .load _ offset _ => by simp only [Expr.searching, eval, eval_searching hfit mem offset]
  | .sparseLoad _ position _ => by
      simp only [Expr.searching, eval, eval_searching hfit mem position]
  | .literal _ => rfl
  | .var _ => rfl
  | .field _ _ => rfl
  | .setSize _ => rfl
  | .endpoint _ _ => rfl
  | .elementField _ _ => rfl
  | .index _ _ => rfl
  | .indexed _ => rfl
  | .tensorRead _ _ _ => rfl
termination_by structural e => e

theorem visits_searching (hfit : m.resolution.PatternsFit) (mem : Memory α) (header : Loop α) :
    (m.searching search).visits mem (header.searching search) = m.visits mem header := by
  cases header with
  | row _ place _ _ => simp only [Loop.searching, visits, rowOf, eval_searching hfit mem place]; rfl
  | intersect _ _ leftRow rightRow _ _ _ =>
      simp only [Loop.searching, visits, rowOf, eval_searching hfit mem leftRow,
        eval_searching hfit mem rightRow]
      rfl
  | elements _ _ => rfl
  | range _ _ => rfl
  | pattern _ _ _ _ => rfl

theorem fillers_searching (hfit : m.resolution.PatternsFit) (mem : Memory α) (var : VarName)
    (value : Expr α) :
    (m.searching search).fillers mem var (value.searching search) = m.fillers mem var value := by
  have heval : (m.searching search).eval mem (value.searching search) = m.eval mem value :=
    eval_searching hfit mem value
  cases value <;> simp only [fillers, heval] <;> rfl

theorem assign_searching (hfit : m.resolution.PatternsFit) (mem : Memory α) (var : VarName)
    (value : Expr α) (accumulate : Bool) :
    (m.searching search).assign mem var (value.searching search) accumulate =
      m.assign mem var value accumulate := by
  simp only [assign, fill, bind, fillers_searching hfit, eval_searching hfit]

mutual

theorem exec_searching (hfit : m.resolution.PatternsFit) (s : Stmt α) (mem : Memory α) :
    (m.searching search).exec (s.searching search) mem = m.exec s mem := by
  cases s with
  | assign _ value => exact assign_searching hfit mem _ value false
  | accumulate _ value => exact assign_searching hfit mem _ value true
  | loop header body =>
      simp only [Stmt.searching, exec, visits_searching hfit,
        execAll_searching hfit body]
  | store _ offset value _ => simp only [Stmt.searching, exec, eval_searching hfit]
  | sparseStore _ position value _ _ => simp only [Stmt.searching, exec, eval_searching hfit]
  | zero _ => rfl
  | fieldWrite _ _ _ => rfl
  | solve _ => rfl
  | tensorWrite _ _ _ _ _ => rfl
  | assemble _ _ _ _ => rfl
termination_by structural s

/-- **What statements do** does not depend on the search. -/
theorem execAll_searching (hfit : m.resolution.PatternsFit) (body : List (Stmt α))
    (mem : Memory α) :
    (m.searching search).execAll (Stmt.searchingBody search body) mem = m.execAll body mem := by
  cases body with
  | nil => rfl
  | cons s rest =>
      simp only [Stmt.searchingBody, execAll, exec_searching hfit s, execAll_searching hfit rest]
termination_by structural body

end

end Machine

namespace LoweredFunc

/-- The lowered function with all searches done in a given way. -/
def searching (search : Search) (l : LoweredFunc α) : LoweredFunc α :=
  ⟨l.func.searching search, l.storages⟩

theorem machine_searching (search : Search) (l : LoweredFunc α) (b : Bindings α)
    (config : SolverConfig α) :
    (l.searching search).machine b config = (·.searching search) <$> l.machine b config := by
  simp only [machine, map_bind]
  refine Except.bind_congr fun _ _ => Except.bind_congr fun r _ => ?_
  simp only [Resolution.prepare, searching, Func.patterns_searching, map_pure]
  rfl

variable [Scalar α]

theorem compute_searching (search : Search) (l : LoweredFunc α) (b : Bindings α)
    (config : SolverConfig α) : (l.searching search).compute b config = l.compute b config := by
  simp only [compute, machine_searching, bind_map_left]
  refine Except.bind_congr fun m hm => ?_
  have hfit := (machine_spec hm).2.2.2.2.patterns
  refine Except.bind_congr fun mem _ => ?_
  simp only [searching, Func.searching, Func.withBody, Machine.execAll_searching hfit]

/-- **A run** does not depend on the search. -/
theorem execute_searching (search : Search) (l : LoweredFunc α) (b : Bindings α)
    (config : SolverConfig α) : (l.searching search).execute b config = l.execute b config := by
  rw [execute, execute, compute_searching]

end LoweredFunc

/-- The lowered function, with all searches made alike, does not depend on the strategy. -/
theorem Func.lowerWith_searching [Scalar α] (search search' : Search) (f : Func α)
    (storages : Storages) :
    (LoweredFunc.searching search <$> f.lowerWith storages ⟨search⟩) =
      LoweredFunc.searching search <$> f.lowerWith storages ⟨search'⟩ := by
  simp only [lowerWith, map_bind, map_pure]
  refine Except.bind_congr fun _ _ => Except.bind_congr fun g _ => ?_
  have hmap (s : Search) : (do
      let a ← g.lowerAccesses storages s
      pure (LoweredFunc.searching search ⟨a, storages⟩)) =
        (LoweredFunc.mk · storages) <$> (searching search <$> g.lowerAccesses storages s) := by
    cases g.lowerAccesses storages s <;> rfl
  rw [hmap, hmap, ← lowerAccesses_searching, ← lowerAccesses_searching]

/-- **The search strategy is not observable.** Against one table of descriptors, lowering for
    halving and lowering for scanning fail alike, or give functions of which every run has the same
    outcome and leaves the bindings in the same state. -/
theorem Func.execute_of_searches [Scalar α] (f : Func α) (storages : Storages) :
    (∃ fault, f.lowerWith storages ⟨.binary⟩ = .error fault ∧
      f.lowerWith storages ⟨.linear⟩ = .error fault) ∨
    ∃ l l', f.lowerWith storages ⟨.binary⟩ = .ok l ∧ f.lowerWith storages ⟨.linear⟩ = .ok l' ∧
      ∀ (b : Bindings α) (config : SolverConfig α), l.execute b config = l'.execute b config := by
  have h := f.lowerWith_searching .binary .linear storages
  cases hl : f.lowerWith storages ⟨.binary⟩ with
  | error fault =>
      cases hl' : f.lowerWith storages ⟨.linear⟩ with
      | error fault' =>
          rw [hl, hl'] at h
          obtain rfl : fault = fault' := Except.error.inj h
          exact .inl ⟨fault, rfl, rfl⟩
      | ok l' =>
          rw [hl, hl'] at h
          cases h
  | ok l =>
      cases hl' : f.lowerWith storages ⟨.linear⟩ with
      | error fault' =>
          rw [hl, hl'] at h
          cases h
      | ok l' =>
          rw [hl, hl'] at h
          have hsame : l.searching .binary = l'.searching .binary := Except.ok.inj h
          refine .inr ⟨l, l', rfl, rfl, fun b config => ?_⟩
          rw [← l.execute_searching .binary b config, hsame, l'.execute_searching]

end GraphTensor
