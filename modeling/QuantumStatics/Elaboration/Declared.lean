/-
  Declared types and signatures.

  A declared type may mention the generic parameters in scope and registered
  structs, applied to as many arguments as they take; a struct must be the one
  that is registered under its name (`checkType`).

  A method is registered with the generic parameters of its struct followed by
  its own (`methodSignature`).
-/
import QuantumStatics.Signature.Table
import QuantumStatics.Source.Basic

namespace QuantumStatics.Elaboration

/-! ## Types -/

/-- Checks that a nat mentions only the given parameters. -/
def checkNat (g : Generics) (location : Location) : NatTerm → Except Failure Unit
  | .var name => unless g.hasNat name do Failure.reject location (.unknownNatParameter name)
  | .const _ | .undet _ => pure ()

/-- Checks that a struct is registered and applied to the right number of
    arguments. -/
def checkStruct (T : SignatureTable) (location : Location) (d : StructDecl) (types nats : Nat) :
    Except Failure Unit := do
  match T.findStruct? d.name with
  | none => Failure.reject location (.unknownStruct d.name)
  | some registered =>
    unless registered.same d do
      Failure.reject location (.staleStruct d.name)
    unless types = d.params.types.length ∧ nats = d.params.nats.length do
      Failure.reject location (.structArity d.name d.params.types.length d.params.nats.length)

mutual

/-- Checks that a declared type mentions only the given parameters and registered
    structs. -/
def checkType (T : SignatureTable) (g : Generics) (location : Location) : Ty → Except Failure Unit
  | .prim _ _ => pure ()
  | .var p =>
    unless (g.findType p.name).isSome do Failure.reject location (.unknownTypeParameter p.name)
  | .undet stamp => .error (.defect (.undeterminedDeclared stamp))
  | .tuple elems => checkTypes T g location elems
  | .array elem length => do
    checkType T g location elem
    checkNat g location length
  | .struct decl typeArgs natArgs => do
    checkStruct T location decl typeArgs.length natArgs.length
    checkTypes T g location typeArgs
    natArgs.forM (checkNat g location)
  | .fn params result _ => do
    checkParamTypes T g location params
    checkType T g location result
  | .option inner => checkType T g location inner

/-- Checks some declared types. -/
def checkTypes (T : SignatureTable) (g : Generics) (location : Location) :
    List Ty → Except Failure Unit
  | [] => pure ()
  | t :: ts => do
    checkType T g location t
    checkTypes T g location ts

/-- Checks the parameters of a declared function type. -/
def checkParamTypes (T : SignatureTable) (g : Generics) (location : Location) :
    List ParamType → Except Failure Unit
  | [] => pure ()
  | ⟨t, _⟩ :: ps => do
    checkType T g location t
    checkParamTypes T g location ps

end

/-! ## Names -/

/-- The first member of a list that occurs earlier in it, or among `seen`. -/
def firstRepeated (seen : List String) : List String → Option String
  | [] => none
  | n :: ns => if seen.contains n then some n else firstRepeated (n :: seen) ns

/-- Checks that no generic parameter is declared twice. -/
def checkGenerics (g : Generics) (location : Location) : Except Failure Unit :=
  match firstRepeated [] g.names with
  | some name => Failure.reject location (.genericTwice name)
  | none => pure ()

/-- Checks that no parameter is declared twice and that their types are declared
    properly. -/
def checkParams (T : SignatureTable) (g : Generics) (function : String) (location : Location)
    (seen : List String) : List Param → Except Failure Unit
  | [] => pure ()
  | p :: ps => do
    if seen.contains p.name then
      Failure.reject location (.parameterTwice p.name function)
    checkType T g location p.type
    checkParams T g function location (p.name :: seen) ps

/-- Checks that no field is declared twice and that their types are declared
    properly. -/
def checkFields (T : SignatureTable) (g : Generics) (struct : String) (location : Location)
    (seen : List String) : List Field → Except Failure Unit
  | [] => pure ()
  | f :: fs => do
    if seen.contains f.name then
      Failure.reject location (.fieldTwice f.name struct)
    checkType T g location f.type
    checkFields T g struct location (f.name :: seen) fs

/-! ## Signatures -/

/-- The signature under which a function is registered. -/
def functionSignature (f : Source.FunctionDef) : Signature where
  name := f.name
  generics := f.generics
  params := f.params
  result := f.result.getD .none
  location := f.location

/-- Adds the type parameters of a method to those of its struct. -/
def addTypeParams (redeclared : String → Except Failure Generics) (g : Generics) :
    List TypeParam → Except Failure Generics
  | [] => .ok g
  | p :: ps =>
    if (g.findType p.name).isSome || g.hasNat p.name then redeclared p.name
    else addTypeParams redeclared { g with types := g.types ++ [p] } ps

/-- Adds the nat parameters of a method to those of its struct. -/
def addNatParams (redeclared : String → Except Failure Generics) (g : Generics) :
    List String → Except Failure Generics
  | [] => .ok g
  | n :: ns =>
    if (g.findType n).isSome || g.hasNat n then redeclared n
    else addNatParams redeclared { g with nats := g.nats ++ [n] } ns

/-- The signature under which a method is registered. -/
def methodSignature (owner : StructDecl) (m : Source.FunctionDef) : Except Failure Signature := do
  let redeclared (param : String) : Except Failure Generics :=
    Failure.reject m.location (.redeclaredParameter m.name param owner.name)
  let generics ← addTypeParams redeclared owner.params m.generics.types
  let generics ← addNatParams redeclared generics m.generics.nats
  return { functionSignature m with name := methodName owner.name m.name, generics }

/-- The signature under which a function, or a method of a struct, is registered. -/
def signatureOf (owner : Option StructDecl) (f : Source.FunctionDef) : Except Failure Signature :=
  match owner with
  | some d => methodSignature d f
  | none => .ok (functionSignature f)

/-- Checks that a method takes its struct as `self`. -/
def checkSelf (owner : StructDecl) (s : Signature) (location : Location) : Except Failure Unit :=
  let fits := match s.params with
    | p :: _ => p.name = "self" && p.type.equal owner.selfType
    | [] => false
  unless fits do Failure.reject location (.selfParameter s.name owner.selfType)

/-- Checks the declared part of a function. -/
def checkSignature (T : SignatureTable) (owner : Option StructDecl) (s : Signature)
    (location : Location) : Except Failure Unit := do
  checkGenerics s.generics location
  checkParams T s.generics s.name location [] s.params
  checkType T s.generics location s.result
  match owner with
  | some d => checkSelf d s location
  | none => pure ()

end QuantumStatics.Elaboration
