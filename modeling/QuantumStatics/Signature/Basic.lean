/-
  Signatures: the declared interfaces of functions, methods and operators.

  A method `m` of `S` is registered under the name `S.m`, and an operator is a
  method of the type of its left operand (`binaryMethod?`, `unaryMethod?`).
-/
import QuantumStatics.Location
import QuantumStatics.Ty.Equal

namespace QuantumStatics

/-- The declared interface of a function, method or operator. -/
structure Signature where
  name : String
  generics : Generics := {}
  params : List Param
  result : Ty
  location : Location

namespace Signature

/-- Whether a signature has generic parameters. -/
def isGeneric (s : Signature) : Bool := !s.generics.isEmpty

/-- A signature as a type. -/
def functionType (s : Signature) : Ty :=
  .fn (s.params.map fun p => ⟨p.type, p.ownership⟩) s.result s.generics

/-- Whether the parameters of two signatures have the same types and are passed
    alike. -/
def sameParams : List Param → List Param → Bool
  | [], [] => true
  | l :: ls, r :: rs => l.ownership = r.ownership && l.type.equal r.type && sameParams ls rs
  | _, _ => false

/-- Whether two signatures declare the same interface.  The names of the
    parameters and the locations do not matter. -/
def same (l r : Signature) : Bool :=
  l.name = r.name && l.generics = r.generics && l.result.equal r.result &&
    sameParams l.params r.params

end Signature

/-- The name under which a method is registered. -/
def methodName (owner method : String) : String := owner ++ "." ++ method

/-! ## Operators -/

/-- The methods that implement binary operators. -/
def binaryOperators : List (String × String) :=
  [("+", "__add__"), ("-", "__sub__"), ("*", "__mul__"), ("/", "__div__"), ("%", "__mod__"),
    ("==", "__eq__"), ("!=", "__ne__"), ("<", "__lt__"), ("<=", "__le__"), (">", "__gt__"),
    (">=", "__ge__"), ("and", "__and__"), ("or", "__or__")]

/-- The methods that implement unary operators. -/
def unaryOperators : List (String × String) := [("-", "__neg__"), ("not", "__not__")]

/-- The method that implements a binary operator. -/
def binaryMethod? (op : String) : Option String := binaryOperators.lookup op

/-- The method that implements a unary operator. -/
def unaryMethod? (op : String) : Option String := unaryOperators.lookup op

/-- Whether a method implements a comparison. -/
def isComparison (method : String) : Bool :=
  ["__eq__", "__ne__", "__lt__", "__le__", "__gt__", "__ge__"].contains method

end QuantumStatics
