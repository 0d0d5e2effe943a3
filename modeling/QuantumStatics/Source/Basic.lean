/-
  Programs before checking.

  Names are plain strings, and the types in annotations and declarations are
  given as types.
-/
import QuantumStatics.Binary64
import QuantumStatics.Location
import QuantumStatics.Ty.Basic

namespace QuantumStatics.Source

/-- An expression. -/
inductive Expr where
  | int (location : Location) (value : Int64)
  | float (location : Location) (value : Binary64)
  | bool (location : Location) (value : Bool)
  | name (location : Location) (name : String)
  | tuple (location : Location) (elems : List Expr)
  | array (location : Location) (elems : List Expr)
  | call (location : Location) (callee : String) (args : List Expr)
  | methodCall (location : Location) (receiver : Expr) (method : String) (args : List Expr)
  | field (location : Location) (object : Expr) (field : String)
  | subscript (location : Location) (array index : Expr)
  | binary (location : Location) (op : String) (left right : Expr)
  | unary (location : Location) (op : String) (operand : Expr)
  /-- An expression with a stated type. -/
  | annotated (location : Location) (expr : Expr) (type : Ty)
  deriving Inhabited

/-- Where an expression stands. -/
def Expr.location : Expr → Location
  | int l _ | float l _ | bool l _ | name l _ | tuple l _ | array l _ | call l _ _
  | methodCall l _ _ _ | field l _ _ | subscript l _ _ | binary l _ _ _ | unary l _ _
  | annotated l _ _ => l

/-- A statement. -/
inductive Stmt where
  | assign (location : Location) (target : String) (value : Expr) (stated : Option Ty)
  /-- Takes a tuple apart. -/
  | tupleAssign (location : Location) (targets : List String) (value : Expr)
  | expr (location : Location) (value : Expr)
  | ret (location : Location) (value : Option Expr)
  | branch (location : Location) (condition : Expr) (thenBody elseBody : List Stmt)
  | whileLoop (location : Location) (condition : Expr) (body : List Stmt)
  /-- Runs over a range or an array. -/
  | forLoop (location : Location) (loopVar : String) (iterable : Expr) (body : List Stmt)
  | breakLoop (location : Location)
  | continueLoop (location : Location)
  deriving Inhabited

/-- The definition of a function or method. -/
structure FunctionDef where
  location : Location := {}
  name : String
  generics : Generics := {}
  params : List Param
  /-- The declared result; nothing is returned if there is none. -/
  result : Option Ty
  body : List Stmt

/-- The definition of a struct. -/
structure StructDef where
  location : Location
  decl : StructDecl
  methods : List FunctionDef

/-- A top-level definition. -/
inductive Def where
  | function (f : FunctionDef)
  | struct (s : StructDef)

/-- The name that a definition introduces. -/
def Def.name : Def → String
  | function f => f.name
  | struct s => s.decl.name

end QuantumStatics.Source
