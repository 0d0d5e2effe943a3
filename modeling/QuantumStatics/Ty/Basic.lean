/-
  The types of the language.

  A type may mention four kinds of variables (`Var`): type and nat variables,
  which are the generic parameters of a definition, and undetermined types and
  nats, which are made up during inference and told apart by a stamp.

  A struct type carries its declaration.  Declarations are built from earlier
  ones, so a type is a finite tree, however deeply struct types nest.
-/
import QuantumStatics.Ownership

namespace QuantumStatics

/-- The number that tells undetermined types, or undetermined nats, apart. -/
abbrev Stamp := UInt64

/-- A number known when a program is compiled, such as the length of an array. -/
inductive NatTerm where
  /-- A given number. -/
  | const (value : UInt64)
  /-- A nat parameter of a definition. -/
  | var (name : String)
  /-- A number still to be inferred. -/
  | undet (stamp : Stamp)
  deriving DecidableEq, Inhabited, Repr

mutual

/-- A type. -/
inductive Ty where
  /-- A leaf type.  Leaves are the only types whose class is stated. -/
  | prim (name : String) (cls : OwnershipClass)
  /-- A generic type parameter. -/
  | var (param : TypeParam)
  /-- A type still to be inferred. -/
  | undet (stamp : Stamp)
  | tuple (elems : List Ty)
  | array (elem : Ty) (length : NatTerm)
  /-- A struct declaration applied to type and nat arguments. -/
  | struct (decl : StructDecl) (typeArgs : List Ty) (natArgs : List NatTerm)
  /-- A function.  The generic parameters are bound by the type. -/
  | fn (params : List ParamType) (result : Ty) (generics : Generics)
  /-- A value that may be absent. -/
  | option (inner : Ty)

/-- A parameter in a function type. -/
structure ParamType where
  type : Ty
  ownership : Ownership

/-- A field of a struct. -/
structure Field where
  name : String
  type : Ty

/-- The declaration of a struct.  The field types may mention the generic
    parameters `params`. -/
structure StructDecl where
  name : String
  params : Generics
  fields : List Field

end

instance : Inhabited Ty := ⟨.tuple []⟩

instance : Inhabited StructDecl := ⟨⟨"", {}, []⟩⟩

/-- A named parameter of a function. -/
structure Param where
  name : String
  type : Ty
  ownership : Ownership

/-! ## Leaf types -/

namespace Ty

/-- Signed integers. -/
def int : Ty := .prim "int" .copyable

/-- Natural numbers. -/
def nat : Ty := .prim "nat" .copyable

/-- Floating-point numbers. -/
def float : Ty := .prim "float" .copyable

/-- Truth values. -/
def bool : Ty := .prim "bool" .copyable

/-- The type of functions that return nothing. -/
def none : Ty := .prim "none" .copyable

/-- Ranges of integers. -/
def range : Ty := .prim "range" .copyable

/-- Qubits. -/
def qubit : Ty := .prim "qubit" .linear

/-- Random number generators. -/
def rng : Ty := .prim "rng" .affine

/-- The leaf types that every program may use. -/
def builtins : List (String × Ty) :=
  [("int", int), ("nat", nat), ("float", float), ("bool", bool), ("none", none),
    ("range", range), ("qubit", qubit), ("rng", rng)]

/-- The builtin leaf type of a name. -/
def builtin? (name : String) : Option Ty := builtins.lookup name

/-- The name of a leaf type. -/
def primName? : Ty → Option String
  | .prim name _ => some name
  | _ => Option.none

/-- The element type and the length of an array type. -/
def array? : Ty → Option (Ty × NatTerm)
  | .array elem length => some (elem, length)
  | _ => Option.none

end Ty

/-! ## Struct declarations -/

namespace StructDecl

/-- The position of the first field of a name. -/
def fieldIndex? (d : StructDecl) (name : String) : Option Nat :=
  d.fields.findIdx? (·.name = name)

/-- The struct applied to its own generic parameters: the type of `self` in its
    methods and the result of its constructor. -/
def selfType (d : StructDecl) : Ty :=
  .struct d (d.params.types.map .var) (d.params.nats.map .var)

end StructDecl

/-! ## Lists of parts -/

section

variable {α β : Type} {F : List α → List β}

/-- A function on types has companions on the lists that types hold.  A companion that puts one
    value for every entry is a map. -/
theorem companion_eq_map {f : α → β} (nil : F [] = [])
    (cons : ∀ a as, F (a :: as) = f a :: F as) (as : List α) : F as = as.map f := by
  induction as with
  | nil => exact nil
  | cons a as ih => rw [cons, ih, List.map_cons]

theorem companion_eq_flatMap {f : α → List β} (nil : F [] = [])
    (cons : ∀ a as, F (a :: as) = f a ++ F as) (as : List α) : F as = as.flatMap f := by
  induction as with
  | nil => exact nil
  | cons a as ih => rw [cons, ih, List.flatMap_cons]

end

end QuantumStatics
