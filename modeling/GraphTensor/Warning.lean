import GraphTensor.Storage.Inference
set_option autoImplicit false

/-! # Warnings

Some programs can be lowered and run but hardly mean what they say: an assembly fills a tensor that
nothing uses (`Func.unusedTargets`), a system matrix over sets is dense (`Func.matrixWarnings`), or
a boundary condition marks its unknowns on the wrong set or by a field that is no marker
(`Func.boundaryWarnings`). Warnings (`Warning`) report these and stop nothing.

`Func.warnings` takes the function as it is given, before or after lowering: what uses a tensor is
told by `Stmt.uses`, and where a matrix lies by storage inferred from the body at hand. -/

namespace GraphTensor

/-- A likely mistake. -/
inductive Warning where
  /-- A target of an assembly that nothing uses. -/
  | unusedTarget (target : VarName) (set : SetName)
  /-- A system matrix over sets that is stored densely. -/
  | denseMatrix (matrix : VarName)
  /-- Unknowns that are marked on a set other than the rows of the matrix; `rows` is the set of the
      rows, if they range over one. -/
  | markerMismatch (set : SetName) (matrix : VarName) (rows : Option SetName)
  /-- A marker that is not declared as a field of truth values. -/
  | missingMarker (set : SetName) (field : FieldName)
deriving DecidableEq, Repr

namespace Warning

/-- The variable, set or field that a warning is about. -/
def entity : Warning → String
  | unusedTarget target _ => target
  | denseMatrix matrix => matrix
  | markerMismatch set _ _ => set
  | missingMarker set field => s!"{set}.{field}"

/-- The message of a warning. -/
def message : Warning → String
  | unusedTarget target set => s!"'{target}' is assembled over '{set}' but never used"
  | denseMatrix matrix =>
    s!"system matrix '{matrix}' has dense storage; assemble it over a relation to make it sparse"
  | markerMismatch set matrix rows =>
    let found := match rows with
      | some rows => s!"'{rows}'"
      | none => "a dense extent"
    s!"boundary marker on '{set}' but '{matrix}' has rows on {found}"
  | missingMarker set field =>
    s!"'{set}.{field}' is not declared as a bool field; no unknowns will be fixed"

end Warning

variable {α : Type}

/-- The variable that an expression reads, apart from its parts. -/
def Expr.reads? : Expr α → Option VarName
  | var name => some name
  | tensorRead tensor _ _ => some tensor
  | indexed operand => some operand.tensor
  | _ => none

/-- The variables that a statement uses, apart from the statements in it. -/
def Stmt.uses (s : Stmt α) : List VarName :=
  s.exprs.flatMap (fun e => e.subexprs.filterMap Expr.reads?) ++
    match s with
    | .fieldWrite _ _ value => [value]
    | .solve task => task.operands
    | _ => []

namespace Func

/-- The variables that a function uses; its results are used by the caller. -/
def uses (f : Func α) : List VarName :=
  f.results.map Variable.name ++ (Stmt.substmtsOfList f.body).flatMap Stmt.uses

/-- The targets of assemblies that nothing uses. -/
def unusedTargets (f : Func α) : List Warning :=
  let used := f.uses
  f.body.flatMap fun s =>
    match s with
    | .assemble targets set _ _ =>
      (targets.filter fun target => !used.contains target).map fun target =>
        .unusedTarget target set
    | _ => []

/-- The set that the rows of a matrix range over. -/
def rowSet? (f : Func α) (matrix : VarName) : Option SetName :=
  match (f.tensorType? matrix).bind (·.dims.head?) with
  | some (.set set) => some set
  | _ => none

/-- What is wrong with the boundary condition of a solve. -/
def boundaryWarnings (f : Func α) (matrix : VarName) (b : BoundaryCondition) : List Warning :=
  let rows := f.rowSet? matrix
  let marker := (f.set? b.set).bind fun decl => decl.fields.get? b.marker
  (if rows = some b.set then [] else [.markerMismatch b.set matrix rows]) ++
    (if marker = some .bool then [] else [.missingMarker b.set b.marker])

/-- The warning about a system matrix that is over sets and dense. -/
def matrixWarnings (f : Func α) (storages : Storages) (matrix : VarName) : List Warning :=
  let overSets := (f.tensorType? matrix).any fun t => t.dims.any IndexDomain.isSet
  let dense := (storages.get? matrix).any fun s => s.kind = .dense
  if overSets && dense then [.denseMatrix matrix] else []

/-- The warnings about the solves of a function. -/
def solveWarnings (f : Func α) (storages : Storages) : List Warning :=
  f.body.flatMap fun s =>
    match s with
    | .solve task =>
      let boundary := match task with
        | .direct ⟨matrix, _, _, some b⟩ => f.boundaryWarnings matrix b
        | _ => []
      boundary ++ task.matrices.flatMap (f.matrixWarnings storages)
    | _ => []

/-- The warnings about a function. Where inference fails no matrix is taken to be dense, since
    lowering reports the failure. -/
def warnings {ε : Type} [Scalar α] (f : Func α) : Outcome ε (List Warning) :=
  let unused := f.unusedTargets
  match f.inferStorage with
  | .ok storages => .ok (unused ++ f.solveWarnings storages)
  | .error (.error _) => .ok (unused ++ f.solveWarnings Table.empty)
  | .error .abort => .error .abort
  | .error .divergence => .error .divergence

end Func

end GraphTensor
