import GraphTensor.Json.Basic
import GraphTensor.Storage.Basic
set_option autoImplicit false

/-! # Writing programs in JSON

Every form of a program is written as a list that starts with the word for the form
(`Notation.exprTag`, `Notation.stmtTag`), without the abbreviations that may stand for it:
`Notation.ofExpr` and `Notation.ofStmt` go through the parts, `Notation.ofFunc` lists the
declarations and the body. How numbers are written is left to the caller. -/

namespace GraphTensor

namespace Notation

/-! ## Types and references -/

/-- The list of the sizes of a shape. -/
def ofShape : BlockShape → Json
  | .scalar => .array []
  | .vector n => .array [.ofNat n]
  | .matrix r c => .array [.ofNat r, .ofNat c]

/-- Writes a domain. -/
def ofDomain : IndexDomain → Json
  | .set name => .str name
  | .dense extent => .ofNat extent

/-- Writes a type. -/
def ofType : ValueType → Json
  | .int => .str "int"
  | .bool => .str "bool"
  | .block shape => .tagged "block" [ofShape shape]
  | .tensor type => .tagged "tensor" [.list ofDomain type.dims, ofShape type.block]
  | .element set => .tagged "element" [.str set]
  | .endpoints set => .tagged "endpoints" [.str set]

/-- Writes a variable. -/
def ofVariable (v : Variable) : Json :=
  .array [.str v.name, ofType v.type]

/-- Writes a reference to a pattern. -/
def ofPatternRef (p : PatternRef) : Json :=
  match p.source with
  | .relation set => .tagged "relation" [.str set, .str p.rows, .str p.cols]
  | .diagonal set => .tagged "diagonal" [.str set, .str p.rows, .str p.cols]

/-- Writes an index variable. -/
def ofIndexVar (i : IndexVar) : Json :=
  .array [.str i.name, ofDomain i.domain]

/-- Writes the descriptors of variables by their texts. -/
def ofStorages (s : Storages) : Json :=
  .list (fun (var, storage) => .array [.str var, .str storage.text]) s.entries

/-! ## Expressions -/

variable {α : Type}

/-- The word for an operation. -/
def operation : BinaryOp → String
  | .add => "+"
  | .sub => "-"
  | .mul => "*"
  | .div => "/"

/-- The word for the form of an expression. -/
def exprTag : Expr α → String
  | .literal (.float _) => "float"
  | .literal (.int _) => "int"
  | .literal (.bool _) => "bool"
  | .literal (.block _ _) => "block"
  | .var _ => "var"
  | .endpoint _ _ => "endpoint"
  | .elementField _ _ => "element_field"
  | .endpointOf _ _ _ => "endpoint_of"
  | .fieldLoad _ _ _ => "field_load"
  | .field _ _ => "field"
  | .binary op _ _ => operation op
  | .neg _ => "neg"
  | .index _ _ => "index"
  | .indexed _ => "indexed"
  | .tensorRead _ _ _ => "read"
  | .setSize _ => "set_size"
  | .locate _ _ _ _ => "locate"
  | .load _ _ _ => "load"
  | .sparseLoad _ _ _ => "sparse_load"

/-- What follows the word of a constant. -/
def ofLiteral (number : α → Json) : Literal α → List Json
  | .float x => [number x]
  | .int n => [.ofInt n]
  | .bool b => [.bool b]
  | .block shape values => [ofShape shape, .list number values.toList]

mutual

/-- Writes an expression. -/
def ofExpr (number : α → Json) (e : Expr α) : Json :=
  .tagged (exprTag e) (match e with
    | .literal value => ofLiteral number value
    | .var name => [.str name]
    | .endpoint endpoints slot => [.str endpoints, .ofNat slot]
    | .elementField element field => [.str element, .str field]
    | .endpointOf set element slot => [.str set, ofExpr number element, .ofNat slot]
    | .fieldLoad set field element => [.str set, .str field, ofExpr number element]
    | .field set field => [.str set, .str field]
    | .binary _ lhs rhs => [ofExpr number lhs, ofExpr number rhs]
    | .neg inner => [ofExpr number inner]
    | .index free body => [.list ofIndexVar free, ofExpr number body]
    | .indexed operand => [.str operand.tensor, .list ofIndexVar operand.indices]
    | .tensorRead tensor indices position =>
      [.str tensor, .array (ofExprs number indices), .nullable .str position]
    | .setSize set => [.str set]
    | .locate pattern row col search =>
      [ofPatternRef pattern, ofExpr number row, ofExpr number col, .str search.text]
    | .load buffer offset block => [.str buffer, ofExpr number offset, ofShape block]
    | .sparseLoad buffer position block =>
      [.str buffer, ofExpr number position, ofShape block])
termination_by structural e

/-- Writes the expressions of a list. -/
def ofExprs (number : α → Json) (es : List (Expr α)) : List Json :=
  match es with
  | [] => []
  | e :: rest => ofExpr number e :: ofExprs number rest
termination_by structural es

end

/-! ## Statements -/

/-- The word for the form of a statement. -/
def stmtTag : Stmt α → String
  | .assign _ _ => "assign"
  | .accumulate _ _ => "accumulate"
  | .tensorWrite _ _ _ _ _ => "write"
  | .assemble _ _ _ _ => "assemble"
  | .loop (.elements _ _) _ => "for_elements"
  | .loop (.range _ _) _ => "for_range"
  | .loop (.pattern _ _ _ _) _ => "for_pattern"
  | .loop (.row _ _ _ _) _ => "for_row"
  | .loop (.intersect _ _ _ _ _ _ _) _ => "for_intersect"
  | .zero _ => "zero"
  | .fieldWrite _ _ _ => "field_write"
  | .solve (.direct _) => "direct"
  | .solve (.schur _) => "schur"
  | .store _ _ _ _ => "store"
  | .sparseStore _ _ _ _ _ => "sparse_store"

/-- What follows the word of a loop, without the body. -/
def ofLoop (number : α → Json) : Loop α → List Json
  | .elements set element => [.str set, .str element]
  | .range var extent => [.str var, ofDomain extent]
  | .pattern pattern row col position =>
    [ofPatternRef pattern, .str row, .str col, .str position]
  | .row pattern row col position =>
    [ofPatternRef pattern, ofExpr number row, .str col, .str position]
  | .intersect left right leftRow rightRow col leftPosition rightPosition =>
    [ofPatternRef left, ofPatternRef right, ofExpr number leftRow, ofExpr number rightRow,
      .str col, .str leftPosition, .str rightPosition]

/-- What follows the word of a solve. -/
def ofSolve : SolveTask → List Json
  | .direct t =>
    [.str t.matrix, .str t.rhs, .str t.result,
      .nullable (fun b => .array [.str b.set, .str b.marker, .str b.values]) t.boundary]
  | .schur t =>
    [.str t.primary, .str t.coupling, .nullable .str t.derived, .str t.rhsPrimary,
      .str t.rhsDerived, .str t.resultPrimary, .str t.resultDerived]

mutual

/-- Writes a statement. -/
def ofStmt (number : α → Json) (s : Stmt α) : Json :=
  .tagged (stmtTag s) (match s with
    | .assign var value => [.str var, ofExpr number value]
    | .accumulate var value => [.str var, ofExpr number value]
    | .tensorWrite tensor indices position value accumulate =>
      [.str tensor, .array (ofExprs number indices), .nullable .str position,
        ofExpr number value, .bool accumulate]
    | .assemble targets set kernel body =>
      [.list .str targets, .str set, ofVariable kernel.element,
        .nullable ofVariable kernel.endpoints, .array (ofStmts number body)]
    | .loop header body => ofLoop number header ++ [.array (ofStmts number body)]
    | .zero var => [.str var]
    | .fieldWrite set field value => [.str set, .str field, .str value]
    | .solve task => ofSolve task
    | .store buffer offset value accumulate =>
      [.str buffer, ofExpr number offset, ofExpr number value, .bool accumulate]
    | .sparseStore buffer position value accumulate block =>
      [.str buffer, ofExpr number position, ofExpr number value, .bool accumulate, ofShape block])
termination_by structural s

/-- Writes the statements of a list. -/
def ofStmts (number : α → Json) (body : List (Stmt α)) : List Json :=
  match body with
  | [] => []
  | s :: rest => ofStmt number s :: ofStmts number rest
termination_by structural body

end

/-! ## Functions -/

/-- Writes the type of a field. -/
def ofFieldType : FieldType → Json
  | .bool => .str "bool"
  | .float block => ofShape block

/-- Writes the declaration of a set. -/
def ofSetDecl (d : SetDecl) : Json :=
  .array [.str d.name,
    .nullable (fun e => .array [.str e.set, .ofNat e.arity]) d.endpoints,
    .list (fun (field, type) => .array [.str field, ofFieldType type]) d.fields.entries]

/-- Writes the statements of a body. -/
def ofBody (number : α → Json) (body : List (Stmt α)) : Json :=
  .array (ofStmts number body)

/-- Writes a function. -/
def ofFunc (number : α → Json) (f : Func α) : Json :=
  .record [("id", .str f.name), ("sets", .list ofSetDecl f.sets.decls),
    ("params", .list ofVariable f.params), ("locals", .list ofVariable f.locals),
    ("results", .list ofVariable f.results), ("body", ofBody number f.body)]

end Notation

end GraphTensor
