import GraphTensor.Proofs.Lowering.Errors
import GraphTensor.Proofs.Lowering.NormalForm
import Mathlib.Data.List.Basic
set_option autoImplicit false

/-! # What the last pass can lower

The last pass takes what the others have left without checking it: it looks up descriptors and
counts indices as it meets accesses, and then fails if anything symbolic remains. Statements are
settled (`Stmt.Settled`) if they give it no cause to fail, since tensors are declared and accessed
with an index for each dimension; of settled statements it leaves plain code.

`Lowered.Yields` is the form of these statements: a result with a property, or an error that lies in
the program. -/

namespace GraphTensor

variable {α : Type}

open Outcome

/-! ## Computations -/

/-- A part of lowering comes to a value with a property, unless it ends in an error that lies in the
    program. -/
structure Lowered.Yields {β : Type} (o : Lowered β) (P : β → Prop) : Prop where
  /-- An error lies in the program. -/
  configuration : o.Avoids fun e => !e.isConfiguration
  /-- A value has the property. -/
  value : ∀ b, o = .ok b → P b

namespace Lowered

variable {β γ : Type} {P : β → Prop} {Q : γ → Prop}

theorem yields_ok {b : β} (h : P b) : Yields (.ok b) P :=
  ⟨avoids_ok b, fun _ hb => Except.ok.inj hb ▸ h⟩

theorem yields_fail {cause : LowerError} (hcause : cause.isConfiguration = true) :
    Yields (.error (.error cause)) P :=
  ⟨avoids_fail (congrArg Bool.not hcause), fun _ h => nomatch h⟩

theorem yields_orAbort {o : Option β} (h : ∀ b, o = some b → P b) : Yields (orAbort o) P :=
  ⟨avoids_orAbort o, fun b hb => h b (orAbort_eq_ok_iff.1 hb)⟩

theorem Yields.bind {o : Lowered β} {g : β → Lowered γ} (ho : o.Yields P)
    (hg : ∀ b, P b → (g b).Yields Q) : Lowered.Yields (o >>= g) Q := by
  cases o with
  | error fault =>
      refine ⟨⟨fun cause h => ?_⟩, fun _ h => nomatch h⟩
      exact ho.configuration.error cause (congrArg Except.error (Except.error.inj h))
  | ok b => exact hg b (ho.value b rfl)

theorem OnlyChecks.configuration {o : Lowered β} (h : o.OnlyChecks) :
    o.Avoids fun e => !e.isConfiguration :=
  h.mono fun cause hcause => by
    cases cause with
    | missingStorage | unloweredAccess => rfl
    | _ => cases hcause

theorem OnlyChecks.yields {o : Lowered β} (h : o.OnlyChecks) : o.Yields fun b => o = .ok b :=
  ⟨h.configuration, fun _ hb => hb⟩

end Lowered

open Lowered

/-! ## What the last pass can lower -/

/-- An expression that the last pass leaves nothing of: it is no part of a kernel and no part of an
    index expression, and its accesses are to declared tensors, with an index for each dimension. -/
inductive Expr.Settled (types : VarName → Option TensorType) : Expr α → Prop where
  /-- A constant. -/
  | literal (value : Literal α) : Settled types (.literal value)
  /-- A variable. -/
  | var (name : VarName) : Settled types (.var name)
  /-- A whole field. -/
  | field (set : SetName) (name : FieldName) : Settled types (.field set name)
  /-- The size of a set. -/
  | setSize (set : SetName) : Settled types (.setSize set)
  /-- An endpoint of an element that is worked out. -/
  | endpointOf {set : SetName} {element : Expr α} {slot : Nat} (h : Settled types element) :
      Settled types (.endpointOf set element slot)
  /-- A field of an element that is worked out. -/
  | fieldLoad {set : SetName} {name : FieldName} {element : Expr α} (h : Settled types element) :
      Settled types (.fieldLoad set name element)
  /-- An operation. -/
  | binary {op : BinaryOp} {lhs rhs : Expr α} (hlhs : Settled types lhs)
      (hrhs : Settled types rhs) : Settled types (.binary op lhs rhs)
  /-- A negative. -/
  | neg {inner : Expr α} (h : Settled types inner) : Settled types (.neg inner)
  /-- An entry of a declared tensor. -/
  | tensorRead {tensor : VarName} {type : TensorType} {indices : List (Expr α)}
      {position : Option VarName} (htype : types tensor = some type)
      (hcount : indices.length = type.rank) (hindices : ∀ e ∈ indices, Settled types e) :
      Settled types (.tensorRead tensor indices position)
  /-- A search of a pattern. -/
  | locate {pattern : PatternRef} {row col : Expr α} {search : Search} (hrow : Settled types row)
      (hcol : Settled types col) : Settled types (.locate pattern row col search)
  /-- A block at an offset. -/
  | load {buffer : VarName} {offset : Expr α} {block : BlockShape} (h : Settled types offset) :
      Settled types (.load buffer offset block)
  /-- A block at a position. -/
  | sparseLoad {buffer : VarName} {position : Expr α} {block : BlockShape}
      (h : Settled types position) : Settled types (.sparseLoad buffer position block)

/-- A statement that the last pass leaves nothing of: it is no assembly, and the tensors in it are
    declared. Memory is not written by what is still to be lowered. -/
inductive Stmt.Settled (types : VarName → Option TensorType) : Stmt α → Prop where
  /-- An assignment. -/
  | assign {var : VarName} {value : Expr α} (h : value.Settled types) :
      Settled types (.assign var value)
  /-- An addition to a local or register. -/
  | accumulate {var : VarName} {value : Expr α} (h : value.Settled types) :
      Settled types (.accumulate var value)
  /-- A write of an entry of a declared tensor. -/
  | tensorWrite {tensor : VarName} {type : TensorType} {indices : List (Expr α)}
      {position : Option VarName} {value : Expr α} {accumulate : Bool}
      (htype : types tensor = some type) (hcount : indices.length = type.rank)
      (hindices : ∀ e ∈ indices, e.Settled types) (hvalue : value.Settled types) :
      Settled types (.tensorWrite tensor indices position value accumulate)
  /-- A loop. -/
  | loop {header : Loop α} {body : List (Stmt α)} (hheader : ∀ e ∈ header.exprs, e.Settled types)
      (hbody : ∀ s ∈ body, Settled types s) : Settled types (.loop header body)
  /-- A clearing of a declared tensor. -/
  | zero {var : VarName} {type : TensorType} (htype : types var = some type) :
      Settled types (.zero var)
  /-- A write of a field from a declared tensor. -/
  | fieldWrite {set : SetName} {field : FieldName} {value : VarName} {type : TensorType}
      (htype : types value = some type) : Settled types (.fieldWrite set field value)
  /-- A solve with declared tensors. -/
  | solve {task : SolveTask}
      (htypes : ∀ var ∈ task.vectors ++ task.matrices, (types var).isSome = true) :
      Settled types (.solve task)
  /-- A write at an offset. -/
  | store {buffer : VarName} {offset value : Expr α} {accumulate : Bool} (hoffset : offset.Plain)
      (hvalue : value.Plain) : Settled types (.store buffer offset value accumulate)
  /-- A write at a position. -/
  | sparseStore {buffer : VarName} {position value : Expr α} {accumulate : Bool}
      {block : BlockShape} (hposition : position.Plain) (hvalue : value.Plain) :
      Settled types (.sparseStore buffer position value accumulate block)

/-! ## The last pass -/

/-- Every tensor has a descriptor, and a pattern only if it has two dimensions. -/
def Storages.Describe (storages : Storages) (types : VarName → Option TensorType) : Prop :=
  ∀ var type, types var = some type →
    ∃ s, storages.get? var = some s ∧ ∀ p, s.kind = .sparse p → type.rank = 2

/-- An address with a plain expression. -/
inductive Address.Plain : Address α → Prop where
  /-- An offset. -/
  | dense {offset : Expr α} {block : BlockShape} (h : offset.Plain) : Plain (.dense offset block)
  /-- A position. -/
  | sparse {position : Expr α} {block : BlockShape} (h : position.Plain) :
      Plain (.sparse position block)
  /-- A register. -/
  | register : Plain .register

theorem Address.Plain.read {address : Address α} (h : address.Plain) (tensor : VarName) :
    (address.read tensor).Plain := by
  cases h with
  | dense h => exact .load h
  | sparse h => exact .sparseLoad h
  | register => exact .var tensor

theorem Address.Plain.write {address : Address α} {tensor : VarName} {value : Expr α}
    {accumulate : Bool} (h : address.Plain) (hvalue : value.Plain) :
    (address.write tensor value accumulate).Plain := by
  cases h with
  | dense h => exact .store h hvalue
  | sparse h => exact .sparseStore h hvalue
  | register =>
      cases accumulate with
      | true => exact .accumulate hvalue
      | false => exact .assign hvalue

theorem plain_extentExpr (dim : IndexDomain) : (dim.extentExpr : Expr α).Plain := by
  cases dim with
  | set name => exact .setSize name
  | dense extent => exact .literal _

theorem plain_rowMajorFrom {outer : Expr α} {indices : List (Expr α)} (dims : List IndexDomain)
    (houter : outer.Plain) (h : ∀ e ∈ indices, e.Plain) :
    (rowMajorFrom outer indices dims).Plain := by
  induction indices generalizing outer dims with
  | nil => exact houter
  | cons index rest ih =>
      obtain ⟨hindex, hrest⟩ := List.forall_mem_cons.1 h
      cases dims with
      | nil => exact houter
      | cons dim dims =>
          exact ih dims (.binary (.binary houter (plain_extentExpr dim)) hindex) hrest

namespace AccessContext

variable {c : AccessContext α}

theorem yields_offset (type : TensorType) (block : BlockShape) {indices : List (Expr α)}
    (h : ∀ e ∈ indices, e.Plain) : (offset type block indices).Yields Expr.Plain := by
  have hplace : (rowMajor indices type.dims).Plain := by
    cases indices with
    | nil => exact .literal _
    | cons index rest =>
        obtain ⟨hindex, hrest⟩ := List.forall_mem_cons.1 h
        cases type.dims with
        | nil => exact .literal _
        | cons dim dims => exact plain_rowMajorFrom dims hindex hrest
  refine (yields_orAbort fun _ h => h).bind fun length _ => ?_
  refine yields_ok ?_
  split
  · exact hplace
  · exact .binary hplace (.literal _)

theorem yields_storage {var : VarName} {s : TensorStorage} (h : c.storages.get? var = some s) :
    (c.storage var).Yields (· = s) := by
  rw [storage, h]
  exact yields_ok rfl

theorem yields_address (hdescribed : c.storages.Describe c.func.tensorType?) {tensor : VarName}
    {type : TensorType} {position : Option VarName} {count : Nat}
    {indices : Lowered (List (Expr α))} (htype : c.func.tensorType? tensor = some type)
    (hcount : count = type.rank)
    (hindices : indices.Yields fun es => es.length = count ∧ ∀ e ∈ es, e.Plain) :
    (c.address tensor position count indices).Yields Address.Plain := by
  obtain ⟨s, hs, hrank⟩ := hdescribed tensor type htype
  refine (yields_storage hs).bind fun _ h => ?_
  obtain rfl := h
  split
  · rw [htype]
    refine (yields_ok (P := (· = type)) rfl).bind fun _ h => ?_
    obtain rfl := h
    rw [failIf, if_neg (by simpa using hcount)]
    refine hindices.bind fun es hes => ?_
    exact (yields_offset _ _ hes.2).bind fun _ hoffset => yields_ok (.dense hoffset)
  · exact yields_ok (.sparse (.var _))
  · next pattern hkind =>
      have hcount : count = 2 := hcount.trans (hrank pattern hkind)
      rw [failIf, if_neg (by simpa using hcount)]
      refine hindices.bind fun es hes => ?_
      obtain ⟨row, col, rfl⟩ := List.length_eq_two.1 (hes.1.trans hcount)
      exact yields_ok (.sparse (.locate (hes.2 row (by simp)) (hes.2 col (by simp))))
  · exact yields_ok .register

mutual

/-- The last pass makes a settled expression plain. -/
theorem yields_lowerExpr (hdescribed : c.storages.Describe c.func.tensorType?) (e : Expr α)
    (h : e.Settled c.func.tensorType?) : (c.lowerExpr e).Yields Expr.Plain := by
  match e with
  | .literal value =>
      rw [lowerExpr]
      exact yields_ok (.literal value)
  | .var name =>
      rw [lowerExpr]
      exact yields_ok (.var name)
  | .field set name =>
      rw [lowerExpr]
      exact yields_ok (.field set name)
  | .setSize set =>
      rw [lowerExpr]
      exact yields_ok (.setSize set)
  | .endpointOf _ element _ =>
      cases h with
      | endpointOf h =>
          rw [lowerExpr]
          exact (yields_lowerExpr hdescribed element h).bind fun _ h' => yields_ok (.endpointOf h')
  | .fieldLoad _ _ element =>
      cases h with
      | fieldLoad h =>
          rw [lowerExpr]
          exact (yields_lowerExpr hdescribed element h).bind fun _ h' => yields_ok (.fieldLoad h')
  | .binary _ lhs rhs =>
      cases h with
      | binary hlhs hrhs =>
          rw [lowerExpr]
          exact (yields_lowerExpr hdescribed lhs hlhs).bind fun _ hlhs' =>
            (yields_lowerExpr hdescribed rhs hrhs).bind fun _ hrhs' =>
              yields_ok (.binary hlhs' hrhs')
  | .neg inner =>
      cases h with
      | neg h =>
          rw [lowerExpr]
          exact (yields_lowerExpr hdescribed inner h).bind fun _ h' => yields_ok (.neg h')
  | .tensorRead tensor indices _ =>
      cases h with
      | tensorRead htype hcount hindices =>
          rw [lowerExpr]
          exact (yields_address hdescribed htype hcount
            (yields_lowerExprs hdescribed indices hindices)).bind fun _ h' =>
              yields_ok (h'.read tensor)
  | .locate _ row col _ =>
      cases h with
      | locate hrow hcol =>
          rw [lowerExpr]
          exact (yields_lowerExpr hdescribed row hrow).bind fun _ hrow' =>
            (yields_lowerExpr hdescribed col hcol).bind fun _ hcol' =>
              yields_ok (.locate hrow' hcol')
  | .load _ offset _ =>
      cases h with
      | load h =>
          rw [lowerExpr]
          exact (yields_lowerExpr hdescribed offset h).bind fun _ h' => yields_ok (.load h')
  | .sparseLoad _ position _ =>
      cases h with
      | sparseLoad h =>
          rw [lowerExpr]
          exact (yields_lowerExpr hdescribed position h).bind fun _ h' =>
            yields_ok (.sparseLoad h')
  | .endpoint _ _ | .elementField _ _ | .index _ _ | .indexed _ => cases h
termination_by structural e

theorem yields_lowerExprs (hdescribed : c.storages.Describe c.func.tensorType?) (es : List (Expr α))
    (h : ∀ e ∈ es, e.Settled c.func.tensorType?) :
    (c.lowerExprs es).Yields fun es' => es'.length = es.length ∧ ∀ e ∈ es', e.Plain := by
  match es with
  | [] =>
      rw [lowerExprs]
      exact yields_ok ⟨rfl, fun _ he => absurd he List.not_mem_nil⟩
  | e :: rest =>
      obtain ⟨he, hrest⟩ := List.forall_mem_cons.1 h
      rw [lowerExprs]
      exact (yields_lowerExpr hdescribed e he).bind fun _ he' =>
        (yields_lowerExprs hdescribed rest hrest).bind fun _ hrest' =>
          yields_ok ⟨congrArg (· + 1) hrest'.1, List.forall_mem_cons.2 ⟨he', hrest'.2⟩⟩
termination_by structural es

end

theorem yields_lowerLoop (hdescribed : c.storages.Describe c.func.tensorType?) {header : Loop α}
    (h : ∀ e ∈ header.exprs, e.Settled c.func.tensorType?) :
    (c.lowerLoop header).Yields fun header' => ∀ e ∈ header'.exprs, e.Plain := by
  cases header with
  | elements | range | pattern => exact yields_ok fun _ he => absurd he List.not_mem_nil
  | row pattern place =>
      exact (yields_lowerExpr hdescribed place (h _ (by simp [Loop.exprs]))).bind fun _ hplace =>
        yields_ok (by simpa [Loop.exprs] using hplace)
  | intersect left right leftRow rightRow =>
      exact (yields_lowerExpr hdescribed leftRow (h _ (by simp [Loop.exprs]))).bind
        fun _ hleft => (yields_lowerExpr hdescribed rightRow (h _ (by simp [Loop.exprs]))).bind
          fun _ hright => yields_ok (by simpa [Loop.exprs] using ⟨hleft, hright⟩)

theorem yields_checkSolve (hdescribed : c.storages.Describe c.func.tensorType?) {task : SolveTask}
    (h : ∀ var ∈ task.vectors ++ task.matrices, (c.func.tensorType? var).isSome = true) :
    (c.checkSolve task).Yields fun _ => True := by
  have hstorage : ∀ var ∈ task.vectors ++ task.matrices, ∃ s, c.storages.get? var = some s := by
    intro var hvar
    obtain ⟨type, htype⟩ := Option.isSome_iff_exists.1 (h var hvar)
    obtain ⟨s, hs, _⟩ := hdescribed var type htype
    exact ⟨s, hs⟩
  refine ⟨?_, fun _ _ => trivial⟩
  refine Avoids.bind (avoids_forM fun var hvar => ?_) fun _ _ => avoids_forM fun var hvar => ?_
  · obtain ⟨s, hs⟩ := hstorage var (List.mem_append_left _ hvar)
    exact (yields_storage hs).configuration.bind fun _ _ => avoids_ok _
  · obtain ⟨s, hs⟩ := hstorage var (List.mem_append_right _ hvar)
    exact (yields_storage hs).configuration.bind fun _ _ => avoids_failIf _ rfl

mutual

/-- **The last pass** makes a settled statement plain. -/
theorem yields_lowerStmt (hdescribed : c.storages.Describe c.func.tensorType?) (s : Stmt α)
    (h : s.Settled c.func.tensorType?) : (c.lowerStmt s).Yields Stmt.Plain := by
  match s with
  | .assign _ value =>
      cases h with
      | assign h =>
          rw [lowerStmt]
          exact (yields_lowerExpr hdescribed value h).bind fun _ h' => yields_ok (.assign h')
  | .accumulate _ value =>
      cases h with
      | accumulate h =>
          rw [lowerStmt]
          exact (yields_lowerExpr hdescribed value h).bind fun _ h' => yields_ok (.accumulate h')
  | .tensorWrite _ indices _ value _ =>
      cases h with
      | tensorWrite htype hcount hindices hvalue =>
          rw [lowerStmt]
          exact (yields_lowerExpr hdescribed value hvalue).bind fun _ hvalue' =>
            (yields_address hdescribed htype hcount
              (yields_lowerExprs hdescribed indices hindices)).bind fun _ h' =>
                yields_ok (h'.write hvalue')
  | .loop header body =>
      cases h with
      | loop hheader hbody =>
          rw [lowerStmt]
          exact (yields_lowerLoop hdescribed hheader).bind fun _ hheader' =>
            (yields_lowerBody hdescribed body hbody).bind fun _ hbody' =>
              yields_ok (.loop hheader' hbody')
  | .zero var =>
      cases h with
      | zero htype =>
          obtain ⟨s, hs, _⟩ := hdescribed _ _ htype
          rw [lowerStmt]
          exact (yields_storage hs).bind fun _ _ => yields_ok (.zero var)
  | .fieldWrite set field value =>
      cases h with
      | fieldWrite htype =>
          obtain ⟨s, hs, _⟩ := hdescribed _ _ htype
          rw [lowerStmt]
          exact (yields_storage hs).bind fun _ _ => yields_ok (.fieldWrite set field value)
  | .solve task =>
      cases h with
      | solve htypes =>
          rw [lowerStmt]
          exact (yields_checkSolve hdescribed htypes).bind fun _ _ => yields_ok (.solve task)
  | .store _ _ _ _ =>
      cases h with
      | store hoffset hvalue =>
          rw [lowerStmt]
          exact yields_ok (.store hoffset hvalue)
  | .sparseStore _ _ _ _ _ =>
      cases h with
      | sparseStore hposition hvalue =>
          rw [lowerStmt]
          exact yields_ok (.sparseStore hposition hvalue)
  | .assemble _ _ _ _ => cases h
termination_by structural s

theorem yields_lowerBody (hdescribed : c.storages.Describe c.func.tensorType?)
    (body : List (Stmt α)) (h : ∀ s ∈ body, s.Settled c.func.tensorType?) :
    (c.lowerBody body).Yields fun body' => ∀ s ∈ body', s.Plain := by
  match body with
  | [] =>
      rw [lowerBody]
      exact yields_ok fun _ hs => absurd hs List.not_mem_nil
  | s :: rest =>
      obtain ⟨hs, hrest⟩ := List.forall_mem_cons.1 h
      rw [lowerBody]
      exact (yields_lowerStmt hdescribed s hs).bind fun _ hs' =>
        (yields_lowerBody hdescribed rest hrest).bind fun _ hrest' =>
          yields_ok (List.forall_mem_cons.2 ⟨hs', hrest'⟩)
termination_by structural body

end

end AccessContext

theorem Func.yields_lowerAccesses {f : Func α} {storages : Storages}
    (hdescribed : storages.Describe f.tensorType?)
    (h : ∀ s ∈ f.body, s.Settled f.tensorType?) (search : Search) :
    (f.lowerAccesses storages search).Yields fun _ => True := by
  refine (AccessContext.yields_lowerBody (c := ⟨f, storages, search⟩) hdescribed f.body h).bind
    fun body hbody => ?_
  rw [leftoverIn?_eq_none_iff.2 hbody]
  exact yields_ok trivial

end GraphTensor
