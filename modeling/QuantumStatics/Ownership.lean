/-
  Ownership classes and generic parameters.

  Values of a `copyable` type may be copied and dropped, values of an `affine`
  type may be dropped but not copied, and values of a `linear` type must be used
  exactly once.  The classes are ordered from least to most restrictive.

  A type parameter states a bound by two flags; `TypeParam.boundClass` is the
  most restrictive class that may stand for it, and `TypeParam.admits` compares
  a class with that bound.
-/

namespace QuantumStatics

/-! ## Classes of types -/

/-- How values of a type may be used. -/
inductive OwnershipClass where
  /-- Values may be copied and dropped. -/
  | copyable
  /-- Values may be dropped but not copied. -/
  | affine
  /-- Values must be used exactly once. -/
  | linear
  deriving DecidableEq, Inhabited, Repr

namespace OwnershipClass

/-- The place of a class in the order from least to most restrictive. -/
def rank : OwnershipClass → Nat
  | copyable => 0
  | affine => 1
  | linear => 2

instance : LE OwnershipClass := ⟨fun a b => a.rank ≤ b.rank⟩

instance (a b : OwnershipClass) : Decidable (a ≤ b) := inferInstanceAs (Decidable (a.rank ≤ b.rank))

/-- The more restrictive of two classes. -/
def join (a b : OwnershipClass) : OwnershipClass := if a.rank < b.rank then b else a

/-- The name of a class in messages. -/
def text : OwnershipClass → String
  | copyable => "Copyable"
  | affine => "Affine"
  | linear => "Linear"

@[simp] theorem copyable_join (a : OwnershipClass) : copyable.join a = a := by cases a <;> rfl

theorem le_join_left (a b : OwnershipClass) : a ≤ a.join b := by cases a <;> cases b <;> decide

theorem le_join_right (a b : OwnershipClass) : b ≤ a.join b := by cases a <;> cases b <;> decide

theorem join_le {a b c : OwnershipClass} (ha : a ≤ c) (hb : b ≤ c) : a.join b ≤ c := by
  unfold join
  split <;> assumption

end OwnershipClass

/-! ## Parameters of functions -/

/-- How a function parameter receives its argument. -/
inductive Ownership where
  /-- The argument is lent for the duration of the call. -/
  | borrowed
  /-- The argument is given away. -/
  | owned
  deriving DecidableEq, Inhabited, Repr

/-- The name of a passing mode in messages. -/
def Ownership.text : Ownership → String
  | .borrowed => "Borrowed"
  | .owned => "Owned"

/-! ## Generic parameters -/

/-- A generic type parameter.  A `copyable` one accepts only copyable types, a
    `droppable` one also affine types, and any other one every type. -/
structure TypeParam where
  name : String
  copyable : Bool := true
  droppable : Bool := true
  deriving DecidableEq, Inhabited, Repr

/-- The most restrictive class a type parameter accepts. -/
def TypeParam.boundClass (p : TypeParam) : OwnershipClass :=
  if p.copyable then .copyable else if p.droppable then .affine else .linear

/-- Whether types of a class may stand for a parameter. -/
def TypeParam.admits (p : TypeParam) (c : OwnershipClass) : Bool := c ≤ p.boundClass

/-- The generic parameters of a definition, in order. -/
structure Generics where
  types : List TypeParam := []
  nats : List String := []
  deriving DecidableEq, Inhabited, Repr

namespace Generics

/-- Whether there are no parameters. -/
def isEmpty (g : Generics) : Bool := g.types.isEmpty && g.nats.isEmpty

/-- The first type parameter of a name. -/
def findType (g : Generics) (name : String) : Option TypeParam := g.types.find? (·.name = name)

/-- Whether a name is a nat parameter. -/
def hasNat (g : Generics) (name : String) : Bool := g.nats.contains name

/-- The names of the type parameters. -/
def typeNames (g : Generics) : List String := g.types.map (·.name)

/-- All names, the type parameters first. -/
def names (g : Generics) : List String := g.typeNames ++ g.nats

end Generics

end QuantumStatics
