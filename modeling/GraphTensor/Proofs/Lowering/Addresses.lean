import GraphTensor.Lowering.Access
import GraphTensor.Proofs.Outcome
set_option autoImplicit false

/-! # Lowered accesses

What the address of an entry is made of, by the layout of its tensor (`AccessContext.Addresses`),
and what an expression, a loop header or a statement is lowered to, by its form. The lemmas invert
`AccessContext.lowerExpr` and `AccessContext.lowerStmt`, one for each form, so that proofs about
lowered code start from its parts. -/

namespace GraphTensor

variable {α : Type}

namespace AccessContext

/-- The addresses that an access of a tensor with some descriptor can be lowered to, by the position
    that it names. -/
inductive Addresses (c : AccessContext α) (tensor : VarName) (s : TensorStorage)
    (indices : List (Expr α)) : Option VarName → Address α → Prop where
  /-- The row-major place of the indices. -/
  | dense {position : Option VarName} {type : TensorType} {es : List (Expr α)} {offset : Expr α}
      (hkind : s.kind = .dense) (htype : c.func.tensorType? tensor = some type)
      (hcount : indices.length = type.rank) (hes : c.lowerExprs indices = .ok es)
      (hoffset : AccessContext.offset type s.block es = .ok offset) :
      Addresses c tensor s indices position (.dense offset s.block)
  /-- The position that the access names. -/
  | position {p : PatternRef} {position : VarName} (hkind : s.kind = .sparse p) :
      Addresses c tensor s indices (some position) (.sparse (.var position) s.block)
  /-- The position where the indices are found. -/
  | search {p : PatternRef} {row col : Expr α} (hkind : s.kind = .sparse p)
      (hcount : indices.length = 2) (hes : c.lowerExprs indices = .ok [row, col]) :
      Addresses c tensor s indices none (.sparse (.locate p row col c.search) s.block)
  /-- The register. -/
  | register {position : Option VarName} (hkind : s.kind = .register) :
      Addresses c tensor s indices position .register

variable {c : AccessContext α} {tensor : VarName} {s : TensorStorage} {indices : List (Expr α)}
  {position : Option VarName} {address : Address α}

theorem addresses_of_address (hs : c.storages.get? tensor = some s)
    (h : c.address tensor position indices.length (c.lowerExprs indices) = .ok address) :
    c.Addresses tensor s indices position address := by
  obtain ⟨found, hfound, haddress⟩ := Outcome.bind_eq_ok_iff.1 h
  obtain rfl : s = found :=
    Option.some.inj (hs.symm.trans (Outcome.orFail_eq_ok_iff.1 hfound))
  cases hkind : s.kind with
  | dense =>
      simp only [hkind] at haddress
      obtain ⟨type, htype, hcounted⟩ := Outcome.bind_eq_ok_iff.1 haddress
      obtain ⟨_, hcount, hlowered⟩ := Outcome.bind_eq_ok_iff.1 hcounted
      obtain ⟨es, hes, hresult⟩ := Outcome.bind_eq_ok_iff.1 hlowered
      obtain ⟨offset, hoffset, hdone⟩ := Outcome.bind_eq_ok_iff.1 hresult
      obtain rfl := Except.ok.inj hdone
      exact .dense hkind (Outcome.orFail_eq_ok_iff.1 htype)
        (by simpa using Outcome.failIf_eq_ok_iff.1 hcount) hes hoffset
  | sparse p =>
      cases position with
      | some position =>
          simp only [hkind] at haddress
          obtain rfl := Except.ok.inj haddress
          exact .position hkind
      | none =>
          simp only [hkind] at haddress
          obtain ⟨_, hcount, hlowered⟩ := Outcome.bind_eq_ok_iff.1 haddress
          obtain ⟨es, hes, hresult⟩ := Outcome.bind_eq_ok_iff.1 hlowered
          split at hresult
          · obtain rfl := Except.ok.inj hresult
            exact .search hkind (by simpa using Outcome.failIf_eq_ok_iff.1 hcount) hes
          · cases hresult
  | register =>
      simp only [hkind] at haddress
      obtain rfl := Except.ok.inj haddress
      exact .register hkind

/-! ## Lowered expressions -/

theorem lowerExpr_binary_eq_ok_iff {op : BinaryOp} {lhs rhs e : Expr α} :
    c.lowerExpr (.binary op lhs rhs) = .ok e ↔
      ∃ lhs' rhs', c.lowerExpr lhs = .ok lhs' ∧ c.lowerExpr rhs = .ok rhs' ∧
        e = .binary op lhs' rhs' := by
  refine Outcome.bind_eq_ok_iff.trans ?_
  simp only [Outcome.bind_eq_ok_iff, Except.pure_eq_ok_iff, exists_and_left]

theorem lowerExpr_neg_eq_ok_iff {inner e : Expr α} :
    c.lowerExpr (.neg inner) = .ok e ↔ ∃ inner', c.lowerExpr inner = .ok inner' ∧ e = .neg inner' := by
  refine Outcome.bind_eq_ok_iff.trans ?_
  simp only [Except.pure_eq_ok_iff]

theorem lowerExpr_endpointOf_eq_ok_iff {set : SetName} {element e : Expr α} {slot : Nat} :
    c.lowerExpr (.endpointOf set element slot) = .ok e ↔
      ∃ element', c.lowerExpr element = .ok element' ∧ e = .endpointOf set element' slot := by
  refine Outcome.bind_eq_ok_iff.trans ?_
  simp only [Except.pure_eq_ok_iff]

theorem lowerExpr_fieldLoad_eq_ok_iff {set : SetName} {field : FieldName} {element e : Expr α} :
    c.lowerExpr (.fieldLoad set field element) = .ok e ↔
      ∃ element', c.lowerExpr element = .ok element' ∧ e = .fieldLoad set field element' := by
  refine Outcome.bind_eq_ok_iff.trans ?_
  simp only [Except.pure_eq_ok_iff]

theorem lowerExpr_locate_eq_ok_iff {pattern : PatternRef} {row col e : Expr α} {search : Search} :
    c.lowerExpr (.locate pattern row col search) = .ok e ↔
      ∃ row' col', c.lowerExpr row = .ok row' ∧ c.lowerExpr col = .ok col' ∧
        e = .locate pattern row' col' search := by
  refine Outcome.bind_eq_ok_iff.trans ?_
  simp only [Outcome.bind_eq_ok_iff, Except.pure_eq_ok_iff, exists_and_left]

theorem lowerExpr_load_eq_ok_iff {buffer : VarName} {offset e : Expr α} {block : BlockShape} :
    c.lowerExpr (.load buffer offset block) = .ok e ↔
      ∃ offset', c.lowerExpr offset = .ok offset' ∧ e = .load buffer offset' block := by
  refine Outcome.bind_eq_ok_iff.trans ?_
  simp only [Except.pure_eq_ok_iff]

theorem lowerExpr_sparseLoad_eq_ok_iff {buffer : VarName} {place e : Expr α} {block : BlockShape} :
    c.lowerExpr (.sparseLoad buffer place block) = .ok e ↔
      ∃ place', c.lowerExpr place = .ok place' ∧ e = .sparseLoad buffer place' block := by
  refine Outcome.bind_eq_ok_iff.trans ?_
  simp only [Except.pure_eq_ok_iff]

theorem lowerExprs_cons_eq_ok_iff {e : Expr α} {rest es : List (Expr α)} :
    c.lowerExprs (e :: rest) = .ok es ↔
      ∃ e' rest', c.lowerExpr e = .ok e' ∧ c.lowerExprs rest = .ok rest' ∧ es = e' :: rest' := by
  refine Outcome.bind_eq_ok_iff.trans ?_
  simp only [Outcome.bind_eq_ok_iff, Except.pure_eq_ok_iff, exists_and_left]

theorem length_of_lowerExprs {es es' : List (Expr α)} (h : c.lowerExprs es = .ok es') :
    es'.length = es.length := by
  induction es generalizing es' with
  | nil =>
      obtain rfl := Except.ok.inj h
      rfl
  | cons e rest ih =>
      obtain ⟨e', rest', _, hrest, rfl⟩ := lowerExprs_cons_eq_ok_iff.1 h
      rw [List.length_cons, List.length_cons, ih hrest]

theorem lowerExpr_tensorRead {e : Expr α} (hs : c.storages.get? tensor = some s)
    (h : c.lowerExpr (.tensorRead tensor indices position) = .ok e) :
    ∃ address, c.Addresses tensor s indices position address ∧ e = address.read tensor := by
  rw [lowerExpr] at h
  obtain ⟨address, haddress, hread⟩ := Outcome.bind_eq_ok_iff.1 h
  exact ⟨address, addresses_of_address hs haddress, (Except.ok.inj hread).symm⟩

/-! ## Statements -/

theorem lowerLoop_row_eq_ok_iff {pattern : PatternRef} {row : Expr α} {col position : VarName}
    {header : Loop α} :
    c.lowerLoop (.row pattern row col position) = .ok header ↔
      ∃ row', c.lowerExpr row = .ok row' ∧ header = .row pattern row' col position := by
  refine Outcome.bind_eq_ok_iff.trans ?_
  simp only [Except.pure_eq_ok_iff]

theorem lowerLoop_intersect_eq_ok_iff {left right : PatternRef} {leftRow rightRow : Expr α}
    {col leftPosition rightPosition : VarName} {header : Loop α} :
    c.lowerLoop (.intersect left right leftRow rightRow col leftPosition rightPosition) = .ok header ↔
      ∃ leftRow' rightRow', c.lowerExpr leftRow = .ok leftRow' ∧ c.lowerExpr rightRow = .ok rightRow' ∧
        header = .intersect left right leftRow' rightRow' col leftPosition rightPosition := by
  refine Outcome.bind_eq_ok_iff.trans ?_
  simp only [Outcome.bind_eq_ok_iff, Except.pure_eq_ok_iff, exists_and_left]

variable {out : Stmt α}

theorem lowerStmt_assign_eq_ok_iff {var : VarName} {value : Expr α} :
    c.lowerStmt (.assign var value) = .ok out ↔
      ∃ value', c.lowerExpr value = .ok value' ∧ out = .assign var value' := by
  refine Outcome.bind_eq_ok_iff.trans ?_
  simp only [Except.pure_eq_ok_iff]

theorem lowerStmt_accumulate_eq_ok_iff {var : VarName} {value : Expr α} :
    c.lowerStmt (.accumulate var value) = .ok out ↔
      ∃ value', c.lowerExpr value = .ok value' ∧ out = .accumulate var value' := by
  refine Outcome.bind_eq_ok_iff.trans ?_
  simp only [Except.pure_eq_ok_iff]

theorem lowerStmt_tensorWrite_eq_ok_iff {value : Expr α} {accumulate : Bool} :
    c.lowerStmt (.tensorWrite tensor indices position value accumulate) = .ok out ↔
      ∃ value' address, c.lowerExpr value = .ok value' ∧
        c.address tensor position indices.length (c.lowerExprs indices) = .ok address ∧
        out = address.write tensor value' accumulate := by
  refine Outcome.bind_eq_ok_iff.trans ?_
  simp only [Outcome.bind_eq_ok_iff, Except.pure_eq_ok_iff, exists_and_left]

theorem lowerStmt_loop_eq_ok_iff {header : Loop α} {body : List (Stmt α)} :
    c.lowerStmt (.loop header body) = .ok out ↔
      ∃ header' body', c.lowerLoop header = .ok header' ∧ c.lowerBody body = .ok body' ∧
        out = .loop header' body' := by
  refine Outcome.bind_eq_ok_iff.trans ?_
  simp only [Outcome.bind_eq_ok_iff, Except.pure_eq_ok_iff, exists_and_left]

theorem lowerStmt_zero_eq_ok_iff {var : VarName} :
    c.lowerStmt (.zero var) = .ok out ↔ (∃ s, c.storages.get? var = some s) ∧ out = .zero var := by
  refine Outcome.bind_eq_ok_iff.trans ?_
  simp only [storage, Except.pure_eq_ok_iff,
    Outcome.orFail_eq_ok_iff, exists_and_right]

theorem lowerStmt_fieldWrite_eq_ok_iff {set : SetName} {field : FieldName} {value : VarName} :
    c.lowerStmt (.fieldWrite set field value) = .ok out ↔
      (∃ s, c.storages.get? value = some s) ∧ out = .fieldWrite set field value := by
  refine Outcome.bind_eq_ok_iff.trans ?_
  simp only [storage, Except.pure_eq_ok_iff,
    Outcome.orFail_eq_ok_iff, exists_and_right]

theorem lowerStmt_solve_eq_ok_iff {task : SolveTask} :
    c.lowerStmt (.solve task) = .ok out ↔ c.checkSolve task = .ok () ∧ out = .solve task := by
  refine Outcome.check_bind_eq_ok_iff.trans ?_
  simp only [Except.pure_eq_ok_iff]

theorem lowerBody_cons_eq_ok {s : Stmt α} {rest out : List (Stmt α)} :
    c.lowerBody (s :: rest) = .ok out ↔
      ∃ s' rest', c.lowerStmt s = .ok s' ∧ c.lowerBody rest = .ok rest' ∧ out = s' :: rest' := by
  rw [lowerBody]
  simp only [Outcome.bind_eq_ok_iff]
  constructor
  · rintro ⟨s', hs, rest', hrest, h⟩
    cases h
    exact ⟨s', rest', hs, hrest, rfl⟩
  · rintro ⟨s', rest', hs, hrest, rfl⟩
    exact ⟨s', hs, rest', hrest, rfl⟩

theorem lowerBody_append_eq_ok {a b out : List (Stmt α)} :
    c.lowerBody (a ++ b) = .ok out ↔
      ∃ a' b', c.lowerBody a = .ok a' ∧ c.lowerBody b = .ok b' ∧ out = a' ++ b' := by
  induction a generalizing out with
  | nil =>
      rw [lowerBody]
      constructor
      · intro h
        exact ⟨[], out, rfl, h, rfl⟩
      · rintro ⟨a', b', ha, hb, rfl⟩
        cases ha
        exact hb
  | cons s rest ih =>
      rw [List.cons_append]
      simp only [lowerBody_cons_eq_ok, ih]
      constructor
      · rintro ⟨s', _, hs, ⟨rest', b', hrest, hb, rfl⟩, rfl⟩
        exact ⟨s' :: rest', b', ⟨s', rest', hs, hrest, rfl⟩, hb, rfl⟩
      · rintro ⟨_, b', ⟨s', rest', hs, hrest, rfl⟩, hb, rfl⟩
        exact ⟨s', rest' ++ b', hs, ⟨rest', b', hrest, hb, rfl⟩, rfl⟩

theorem lowerStmt_tensorWrite {value : Expr α} {accumulate : Bool} {out : Stmt α}
    (hs : c.storages.get? tensor = some s)
    (h : c.lowerStmt (.tensorWrite tensor indices position value accumulate) = .ok out) :
    ∃ value' address, c.lowerExpr value = .ok value' ∧
      c.Addresses tensor s indices position address ∧
      out = address.write tensor value' accumulate := by
  obtain ⟨value', address, hvalue, haddress, rfl⟩ := lowerStmt_tensorWrite_eq_ok_iff.1 h
  exact ⟨value', address, hvalue, addresses_of_address hs haddress, rfl⟩

end AccessContext

end GraphTensor
