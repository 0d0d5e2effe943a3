/-
  Programs after checking.

  Every expression carries its type, every place (a name, a field or an element)
  how it is used, and every call what it calls and with which generic arguments.
-/
import QuantumStatics.Binary64
import QuantumStatics.Signature.Basic

namespace QuantumStatics.Typed

/-- How a place is used. -/
inductive UseKind where
  /-- A copyable value is read. -/
  | read
  /-- The value is lent. -/
  | borrow
  /-- The value is given away. -/
  | consume
  deriving DecidableEq, Inhabited, Repr

/-- The name of a use. -/
def UseKind.text : UseKind → String
  | .read => "Read"
  | .borrow => "Borrow"
  | .consume => "Consume"

/-- What a call invokes. -/
inductive CallKind where
  | function
  | method
  /-- The constructor of a struct. -/
  | constructor
  /-- A function held in a local binding. -/
  | localValue
  deriving DecidableEq, Inhabited, Repr

/-- The name of a kind of call. -/
def CallKind.text : CallKind → String
  | .function => "Function"
  | .method => "Method"
  | .constructor => "Constructor"
  | .localValue => "Local"

/-- The callee of a call and the generic arguments it is called with. -/
structure CallTarget where
  callee : String
  kind : CallKind
  /-- How the parameters receive the arguments, the receiver first. -/
  ownership : List Ownership
  typeArgs : List Ty := []
  natArgs : List NatTerm := []
  /-- The key of the specialization that is called, once it is known. -/
  specialization : Option String := none

/-- A typed expression. -/
inductive Expr where
  /-- An integer of type `int` or `nat`. -/
  | int (location : Location) (type : Ty) (value : Int64)
  | float (location : Location) (value : Binary64)
  | bool (location : Location) (value : Bool)
  /-- A local binding. -/
  | name (location : Location) (type : Ty) (name : String) (use : UseKind)
  /-- A nat parameter of the definition, used as a value. -/
  | natParam (location : Location) (name : String)
  /-- A function used as a value. -/
  | fnRef (location : Location) (type : Ty) (name : String)
  | tuple (location : Location) (type : Ty) (elems : List Expr)
  | array (location : Location) (type : Ty) (elems : List Expr)
  /-- A call; the receiver of a method is its first argument. -/
  | call (location : Location) (type : Ty) (target : CallTarget) (args : List Expr)
  | field (location : Location) (type : Ty) (object : Expr) (field : String) (index : Nat)
    (use : UseKind)
  | subscript (location : Location) (type : Ty) (array index : Expr) (use : UseKind)
  deriving Inhabited

namespace Expr

/-- Where an expression stands. -/
def location : Expr → Location
  | int l _ _ | float l _ | bool l _ | name l _ _ _ | natParam l _ | fnRef l _ _ | tuple l _ _
  | array l _ _ | call l _ _ _ | field l _ _ _ _ _ | subscript l _ _ _ _ => l

/-- The type of an expression. -/
def type : Expr → Ty
  | int _ t _ | name _ t _ _ | fnRef _ t _ | tuple _ t _ | array _ t _ | call _ t _ _
  | field _ t _ _ _ _ | subscript _ t _ _ _ => t
  | float _ _ => .float
  | bool _ _ => .bool
  | natParam _ _ => .nat

/-- The local binding that a place projects from. -/
def root? : Expr → Option String
  | name _ _ n _ => some n
  | field _ _ object _ _ _ => object.root?
  | subscript _ _ indexed _ _ => indexed.root?
  | _ => none

/-- What a chain of projections starts from. -/
def base : Expr → Expr
  | field _ _ object _ _ _ => object.base
  | subscript _ _ indexed _ _ => indexed.base
  | e => e

end Expr

/-- A typed statement. -/
inductive Stmt where
  | assign (location : Location) (target : String) (value : Expr)
  /-- Takes a tuple apart. -/
  | tupleAssign (location : Location) (targets : List String) (value : Expr)
  | expr (location : Location) (value : Expr)
  | ret (location : Location) (value : Option Expr)
  | branch (location : Location) (condition : Expr) (thenBody elseBody : List Stmt)
  | whileLoop (location : Location) (condition : Expr) (body : List Stmt)
  /-- Runs over a range or an array, binding the loop variable to its elements. -/
  | forLoop (location : Location) (loopVar : String) (varType : Ty) (iterable : Expr)
    (body : List Stmt)
  | breakLoop (location : Location)
  | continueLoop (location : Location)
  deriving Inhabited

/-- Where a statement stands. -/
def Stmt.location : Stmt → Location
  | assign l _ _ | tupleAssign l _ _ | expr l _ | ret l _ | branch l _ _ _ | whileLoop l _ _
  | forLoop l _ _ _ _ | breakLoop l | continueLoop l => l

/-- A checked function or method. -/
structure Function where
  location : Location := {}
  name : String
  /-- The struct that a method belongs to; empty for functions. -/
  owner : String := ""
  generics : Generics := {}
  params : List Param
  result : Ty
  body : List Stmt

/-- The name under which a function is registered. -/
def Function.qualifiedName (f : Function) : String :=
  if f.owner.isEmpty then f.name else methodName f.owner f.name

end QuantumStatics.Typed
