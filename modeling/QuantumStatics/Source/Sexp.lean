/-
  Programs as s-expressions.

  Every node of a program is shown as its name followed by labelled parts, each
  label and part on a line of its own, four columns further in.  A list shows its
  members the same way, unless there is at most one.

  * `Sexp.render` lays out an s-expression;
  * `Expr.sexp`, `Stmt.sexp` and `Def.sexp` are the s-expressions of programs.
-/
import QuantumStatics.Source.Basic
import QuantumStatics.Ty.Print

namespace QuantumStatics.Source

mutual

/-- An s-expression. -/
inductive Sexp where
  | atom (text : String)
  /-- A named node with labelled parts. -/
  | node (name : String) (parts : List Part)
  | list (members : List Sexp)

/-- A labelled part of a node. -/
structure Part where
  label : String
  value : Sexp

end

/-! ## Layout -/

/-- The start of a new line that is indented. -/
def newline (indent : Nat) : String := "\n" ++ "".pushn ' ' indent

mutual

/-- An s-expression as text, its first line standing at column `indent`. -/
def Sexp.render (indent : Nat) : Sexp → String
  | .atom text => text
  | .node name parts => "(" ++ name ++ renderParts (indent + 4) parts ++ ")"
  | .list [] => "()"
  | .list [s] => "(" ++ s.render indent ++ ")"
  | .list (s₁ :: s₂ :: ss) =>
    "(" ++ newline (indent + 4) ++ s₁.render (indent + 4) ++
      newline (indent + 4) ++ s₂.render (indent + 4) ++ renderLines (indent + 4) ss ++
      newline indent ++ ")"

/-- Some s-expressions, each on a new line. -/
def Sexp.renderLines (indent : Nat) : List Sexp → String
  | [] => ""
  | s :: ss => newline indent ++ s.render indent ++ renderLines indent ss

/-- Labelled parts, each label and part on a new line. -/
def Sexp.renderParts (indent : Nat) : List Part → String
  | [] => ""
  | ⟨label, s⟩ :: ps =>
    newline indent ++ ":" ++ label ++ newline indent ++ s.render indent ++ renderParts indent ps

end

/-! ## Leaves -/

namespace Sexp

/-- A name in quotes. -/
def quoted (s : String) : Sexp := .atom ("\"" ++ s ++ "\"")

/-- A type in angle brackets. -/
def type (t : Ty) : Sexp := .atom ("<" ++ t.text ++ ">")

/-- What may be missing. -/
def optional {α : Type} (f : α → Sexp) : Option α → Sexp
  | some a => f a
  | none => .atom "null"

/-- A generic type parameter with its bound. -/
def typeParam (p : TypeParam) : String :=
  p.name ++ (if p.copyable then "" else if p.droppable then " @affine" else " @linear")

/-- Generic parameters, nat parameters marked. -/
def generics (g : Generics) : Sexp :=
  .atom ("[" ++ ", ".intercalate (g.types.map typeParam ++ g.nats.map ("nat " ++ ·)) ++ "]")

/-- A parameter of a function. -/
def param (p : Param) : Sexp :=
  .atom ("(" ++ p.name ++ " <" ++ p.type.text ++ "> " ++ p.ownership.text ++ ")")

/-- A struct declaration. -/
def structDecl (d : StructDecl) : Sexp :=
  .atom ("(struct " ++ d.name ++
    String.join (d.fields.map fun f => " (" ++ f.name ++ " <" ++ f.type.text ++ ">)") ++ ")")

end Sexp

/-! ## Programs -/

mutual

/-- The s-expression of an expression. -/
def Expr.sexp : Expr → Sexp
  | .int _ value => .node "IntLiteralExpr" [⟨"value", .atom (toString value.toInt ++ "i")⟩]
  | .float _ value => .node "FloatLiteralExpr" [⟨"value", .atom value.text⟩]
  | .bool _ value => .node "BoolLiteralExpr" [⟨"value", .atom (if value then "true" else "false")⟩]
  | .name _ n => .node "NameExpr" [⟨"name", .quoted n⟩]
  | .tuple _ elems => .node "TupleExpr" [⟨"elements", .list (Expr.sexps elems)⟩]
  | .array _ elems => .node "ArrayExpr" [⟨"elements", .list (Expr.sexps elems)⟩]
  | .call _ callee args =>
    .node "CallExpr" [⟨"callee", .quoted callee⟩, ⟨"args", .list (Expr.sexps args)⟩]
  | .methodCall _ receiver method args =>
    .node "MethodCallExpr"
      [⟨"receiver", receiver.sexp⟩, ⟨"method", .quoted method⟩, ⟨"args", .list (Expr.sexps args)⟩]
  | .field _ object label =>
    .node "FieldExpr" [⟨"object", object.sexp⟩, ⟨"field", .quoted label⟩]
  | .subscript _ indexed index =>
    .node "SubscriptExpr" [⟨"array", indexed.sexp⟩, ⟨"index", index.sexp⟩]
  | .binary _ op left right =>
    .node "BinaryOpExpr" [⟨"op", .quoted op⟩, ⟨"left", left.sexp⟩, ⟨"right", right.sexp⟩]
  | .unary _ op operand =>
    .node "UnaryOpExpr" [⟨"op", .quoted op⟩, ⟨"operand", operand.sexp⟩]
  | .annotated _ expr type => .node "AnnotatedExpr" [⟨"expr", expr.sexp⟩, ⟨"type", .type type⟩]

/-- The s-expressions of some expressions. -/
def Expr.sexps : List Expr → List Sexp
  | [] => []
  | e :: es => e.sexp :: Expr.sexps es

end

mutual

/-- The s-expression of a statement. -/
def Stmt.sexp : Stmt → Sexp
  | .assign _ target value stated =>
    .node "AssignStmt" [⟨"target", .quoted target⟩, ⟨"value", value.sexp⟩,
      ⟨"annotation", .optional .type stated⟩]
  | .tupleAssign _ targets value =>
    .node "TupleAssignStmt" [⟨"targets", .list (targets.map .quoted)⟩, ⟨"value", value.sexp⟩]
  | .expr _ value => .node "ExprStmt" [⟨"expr", value.sexp⟩]
  | .ret _ value => .node "ReturnStmt" [⟨"value", .optional Expr.sexp value⟩]
  | .branch _ condition thenBody elseBody =>
    .node "IfStmt" [⟨"condition", condition.sexp⟩, ⟨"then_body", .list (Stmt.sexps thenBody)⟩,
      ⟨"else_body", .list (Stmt.sexps elseBody)⟩]
  | .whileLoop _ condition body =>
    .node "WhileStmt" [⟨"condition", condition.sexp⟩, ⟨"body", .list (Stmt.sexps body)⟩]
  | .forLoop _ loopVar iterable body =>
    .node "ForStmt" [⟨"variable", .quoted loopVar⟩, ⟨"iterable", iterable.sexp⟩,
      ⟨"body", .list (Stmt.sexps body)⟩]
  | .breakLoop _ => .node "BreakStmt" []
  | .continueLoop _ => .node "ContinueStmt" []

/-- The s-expressions of some statements. -/
def Stmt.sexps : List Stmt → List Sexp
  | [] => []
  | s :: ss => s.sexp :: Stmt.sexps ss

end

/-- The s-expression of a function. -/
def FunctionDef.sexp (f : FunctionDef) : Sexp :=
  .node "FunctionDef" [⟨"name", .quoted f.name⟩, ⟨"generics", .generics f.generics⟩,
    ⟨"params", .list (f.params.map .param)⟩, ⟨"return_type", .optional .type f.result⟩,
    ⟨"body", .list (Stmt.sexps f.body)⟩]

/-- The s-expression of a definition. -/
def Def.sexp : Def → Sexp
  | .function f => f.sexp
  | .struct s =>
    .node "StructDef" [⟨"decl", .structDecl s.decl⟩,
      ⟨"methods", .list (s.methods.map FunctionDef.sexp)⟩]

end QuantumStatics.Source
