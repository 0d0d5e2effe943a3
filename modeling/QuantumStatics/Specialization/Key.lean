/-
  Keys of specializations.

  A `Key` names a definition or a struct and the arguments for its generic
  parameters.  Its text identifies the specialization.  The arguments must be as
  many as the parameters, closed, and of classes that the parameters admit
  (`Key.checkArgs`).
-/
import QuantumStatics.Classification
import QuantumStatics.Diagnostic.Basic

namespace QuantumStatics

/-- A name and arguments for its generic parameters. -/
structure Key where
  name : String
  typeArgs : List Ty := []
  natArgs : List NatTerm := []

namespace Key

/-- The text of a key, `name[T1, T2; n1]`, or only the name if there are no
    arguments. -/
def text (k : Key) : String :=
  k.name ++ bracketed (Ty.texts k.typeArgs) (k.natArgs.map NatTerm.text)

/-- Checks the type arguments of a key. -/
def checkTypeArgs (name : String) (location : Location) :
    List TypeParam → List Ty → Except Failure Unit
  | p :: ps, t :: ts => do
    unless t.closed do
      Failure.reject location (.openTypeArgument t p.name name)
    let cls ← t.classify.mapError .defect
    unless p.admits cls do
      Failure.reject location (.inadmissible t cls p.name name)
    checkTypeArgs name location ps ts
  | _, _ => pure ()

/-- Checks the nat arguments of a key. -/
def checkNatArgs (name : String) (location : Location) :
    List String → List NatTerm → Except Failure Unit
  | p :: ps, n :: ns => do
    unless n.isConst do
      Failure.reject location (.openNatArgument n p name)
    checkNatArgs name location ps ns
  | _, _ => pure ()

/-- Checks the arguments of a key against the parameters that they are for. -/
def checkArgs (k : Key) (g : Generics) (location : Location) : Except Failure Unit := do
  unless k.typeArgs.length = g.types.length ∧ k.natArgs.length = g.nats.length do
    Failure.reject location
      (.genericArity k.name g.types.length g.nats.length k.typeArgs.length k.natArgs.length)
  checkTypeArgs k.name location g.types k.typeArgs
  checkNatArgs k.name location g.nats k.natArgs

end Key

/-! ## The structs in a type -/

mutual

/-- The keys of the struct types in a type, in the order in which they are
    written. -/
def Ty.structKeys : Ty → List Key
  | .prim _ _ | .var _ | .undet _ => []
  | .tuple elems => Ty.structKeysAll elems
  | .array elem _ => elem.structKeys
  | .struct decl typeArgs natArgs => ⟨decl.name, typeArgs, natArgs⟩ :: Ty.structKeysAll typeArgs
  | .fn params result _ => Ty.structKeysParams params ++ result.structKeys
  | .option inner => inner.structKeys

/-- The keys of the struct types in some types. -/
def Ty.structKeysAll : List Ty → List Key
  | [] => []
  | t :: ts => t.structKeys ++ Ty.structKeysAll ts

/-- The keys of the struct types in the parameters of a function type. -/
def Ty.structKeysParams : List ParamType → List Key
  | [] => []
  | ⟨t, _⟩ :: ps => t.structKeys ++ Ty.structKeysParams ps

end

end QuantumStatics
