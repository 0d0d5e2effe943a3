/-
  Making specializations.

  Specializing a struct also specializes the structs that its fields mention.
  Specializing a definition replaces its types throughout, and also specializes the
  structs that its types mention and the definitions that it calls.  Calls of
  functions without a definition, such as built-in ones and constructors, only
  record the key.  A request that fails keeps the specializations that it has made
  by then.

  Each request is written with the requests that it needs as a parameter
  (`structWith`, `definitionWith`), and tied to itself by a bound on the length
  of the chain.  A chain never has a name twice, so the number of structs, or of
  definitions, is enough.
-/
import QuantumStatics.Signature.Table
import QuantumStatics.Specialization.Basic
import QuantumStatics.Typed.Replacement

namespace QuantumStatics.Specialization

/-! ## Structs -/

/-- A way to answer requests for structs that are needed by others. -/
abbrev StructRequest := Chain → Key → Location → Specializing ConcreteStruct

/-- Specializes a struct, and by `nested` the structs that its fields mention. -/
def structWith (T : SignatureTable) (nested : StructRequest) : StructRequest :=
  fun chain key location => do
    let decl ← T.lookupStruct key.name location
    .ofExcept (key.checkArgs decl.params location)
    match (← get).structs.get? key.text with
    | some s => return s
    | none =>
      let chain ← .ofExcept (enter chain key location)
      let fields ← .ofDefect (decl.instantiateFields key.typeArgs key.natArgs)
      (fields.flatMap (·.type.structKeys)).forM fun k => discard (nested chain k location)
      let ownership ← .ofDefect (Ty.struct decl key.typeArgs key.natArgs).classify
      publishStruct { key, fields, ownership }

/-- Specializes a struct, with at most `bound` further ones in progress. -/
def structWithin (T : SignatureTable) : (bound : Nat) → StructRequest
  | 0 => structWith T fun _ _ _ => .defect .chainTooLong
  | bound + 1 => structWith T (structWithin T bound)

/-- Specializes a struct. -/
def requestStruct (T : SignatureTable) (key : Key) (location : Location) :
    Specializing ConcreteStruct :=
  structWithin T T.structs.size [] key location

/-! ## Definitions -/

/-- A specialized definition in the making. -/
structure Draft where
  cache : Cache
  callees : List String := []
  structs : List String := []

/-- Computations that make a specialized definition. -/
abbrev Drafting := Analysis Draft

namespace Draft

/-- Makes other specializations. -/
def specializing {α : Type} (make : Specializing α) : Drafting α := fun d =>
  match make d.cache with
  | .ok a cache => .ok a { d with cache }
  | .error e cache => .error e { d with cache }

/-- Adds a key to some keys, unless it is one of them. -/
def addKey (keys : List String) (key : String) : List String :=
  if keys.contains key then keys else keys ++ [key]

/-- Records a definition that is called. -/
def addCallee (key : String) : Drafting Unit :=
  modify fun d => { d with callees := addKey d.callees key }

/-- Records a struct that is mentioned. -/
def addStruct (key : String) : Drafting Unit :=
  modify fun d => { d with structs := addKey d.structs key }

end Draft

/-- The definitions that can be specialized, by their registered names. -/
abbrev Definitions := Dict String Typed.Function

/-- The definitions among some functions; of two with one name, the first. -/
def definitionsOf (functions : List Typed.Function) : Definitions :=
  .ofListFirst (functions.map fun f => (f.qualifiedName, f))

/-- A way to answer requests for definitions that are needed by others. -/
abbrev DefinitionRequest := Chain → Key → Location → Specializing ConcreteDefinition

/-- Replaces a type by its instance, and specializes the structs that it
    mentions. -/
def closeType (T : SignatureTable) (I : Instantiation) (location : Location) (t : Ty) :
    Drafting Ty := do
  let closed := I.apply t
  unless closed.closed do
    .defect (.openType closed)
  closed.structKeys.forM fun k => do
    let s ← Draft.specializing (requestStruct T k location)
    Draft.addStruct s.key.text
  return closed

/-- Replaces a nat by its instance. -/
def closeNat (I : Instantiation) (n : NatTerm) : Drafting NatTerm := do
  let closed := I.applyNat n
  unless closed.isConst do
    .defect (.openNat closed)
  return closed

/-- Records which specialization a call invokes, and makes it by `nested`. -/
def linkCall (D : Definitions) (nested : Key → Location → Specializing ConcreteDefinition)
    (location : Location) (target : Typed.CallTarget) : Drafting Typed.CallTarget := do
  let key : Key := ⟨target.callee, target.typeArgs, target.natArgs⟩
  if D.contains target.callee then
    let callee ← Draft.specializing (nested key location)
    Draft.addCallee callee.key
    return { target with specialization := some callee.key }
  else
    return { target with specialization := some key.text }

/-- Replaces the generic parameters of a definition at `location` by closed
    arguments. -/
def closing (T : SignatureTable) (D : Definitions) (I : Instantiation) (location : Location)
    (nested : Key → Location → Specializing ConcreteDefinition) : Typed.Replacement Draft where
  type := closeType T I location
  nat := closeNat I
  call := linkCall D nested

/-- Runs the replacement of the types of a definition, and returns the definition
    with what was recorded. -/
def drafting (key : String) (replaced : Drafting Typed.Function) :
    Specializing ConcreteDefinition := fun cache =>
  match replaced { cache } with
  | .ok f d =>
    .ok { key, function := { f with generics := {} }, callees := d.callees, structs := d.structs }
      d.cache
  | .error e d => .error e d.cache

/-- Specializes a definition, and by `nested` the definitions that it calls. -/
def definitionWith (T : SignatureTable) (D : Definitions) (nested : DefinitionRequest) :
    DefinitionRequest :=
  fun chain key location => do
    match D.get? key.name with
    | none => .reject location (.noDefinition key.name)
    | some f =>
      .ofExcept (key.checkArgs f.generics location)
      match (← get).definitions.get? key.text with
      | some d => return d
      | none =>
        let chain ← .ofExcept (enter chain key location)
        let I ← .ofDefect (Instantiation.ofArgs f.generics key.typeArgs key.natArgs)
        publish (← drafting key.text (f.replace (closing T D I f.location (nested chain))))

/-- Specializes a definition, with at most `bound` further ones in progress. -/
def definitionWithin (T : SignatureTable) (D : Definitions) : (bound : Nat) → DefinitionRequest
  | 0 => definitionWith T D fun _ _ _ => .defect .chainTooLong
  | bound + 1 => definitionWith T D (definitionWithin T D bound)

/-- Specializes a definition. -/
def request (T : SignatureTable) (D : Definitions) (key : Key) (location : Location) :
    Specializing ConcreteDefinition :=
  definitionWithin T D D.size [] key location

/-- The place of requests that do not come from a program. -/
def requestLocation : Location := ⟨"<specialize>", 0⟩

end QuantumStatics.Specialization
