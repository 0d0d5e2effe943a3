/-
  Specializations and their cache.

  A specialization is a definition or a struct with its generic parameters
  replaced by closed arguments.  Specializations are kept by the text of their
  key; the first one stored stays.

  While one is made, others may be needed.  The keys in progress form a chain.
  Generic definitions treat their parameters alike whatever the arguments are, so
  a chain that comes back to a name either repeats a key or goes on with ever new
  arguments: both are refused (`enter`).
-/
import QuantumStatics.Specialization.Key
import QuantumStatics.Typed.Basic

namespace QuantumStatics

/-- A function or method specialized to closed arguments. -/
structure ConcreteDefinition where
  key : String
  /-- The definition, with every type closed and without generic parameters. -/
  function : Typed.Function
  /-- The keys of the definitions that it calls, in order of their first call. -/
  callees : List String
  /-- The keys of the structs that its types mention. -/
  structs : List String

/-- A struct specialized to closed arguments. -/
structure ConcreteStruct where
  key : Key
  fields : List Field
  ownership : OwnershipClass

namespace Specialization

/-- The specializations made so far. -/
structure Cache where
  definitions : Dict String ConcreteDefinition := ∅
  structs : Dict String ConcreteStruct := ∅
  deriving Inhabited

/-- Computations that make specializations. -/
abbrev Specializing := Analysis Cache

/-- Keeps a specialized definition, unless there is one of its key already, and
    returns the one kept. -/
def publish (d : ConcreteDefinition) : Specializing ConcreteDefinition :=
  modifyGet fun c =>
    let definitions := c.definitions.insertNew d.key d
    ((definitions.get? d.key).getD d, { c with definitions })

/-- Keeps a specialized struct, unless there is one of its key already, and
    returns the one kept. -/
def publishStruct (s : ConcreteStruct) : Specializing ConcreteStruct :=
  modifyGet fun c =>
    let structs := c.structs.insertNew s.key.text s
    ((structs.get? s.key.text).getD s, { c with structs })

/-- The keys in progress, each needed by the one before it. -/
abbrev Chain := List Key

/-- Adds a key to the chain, which must not have one of the same name. -/
def enter (chain : Chain) (key : Key) (location : Location) : Except Failure Chain :=
  match chain.find? (·.name = key.name) with
  | some earlier =>
    let cause : Cause :=
      if earlier.text = key.text then .requiresItself (chain.map Key.text) key.text
      else .reenters (chain.map Key.text) key.text key.name
    Failure.reject location cause
  | none => .ok (chain ++ [key])

end Specialization

end QuantumStatics
