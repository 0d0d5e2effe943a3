/-
  The table of signatures and structs.

  Names are registered first; then registration ends (`finalize`) and the table
  is only read.  Registering an equal entry again does nothing, and any other use
  of a taken name is rejected.  A struct is registered together with its
  constructor, which has the name of the struct and one owned parameter for each
  field.
-/
import QuantumStatics.Diagnostic.Basic
import QuantumStatics.Signature.Basic

namespace QuantumStatics

/-- The registered signatures and structs. -/
structure SignatureTable where
  signatures : Dict String Signature := ∅
  structs : Dict String StructDecl := ∅
  /-- Whether registration has ended. -/
  finalized : Bool := false
  deriving Inhabited

/-- The constructor of a struct. -/
def StructDecl.constructorSignature (d : StructDecl) (location : Location) : Signature where
  name := d.name
  generics := d.params
  params := d.fields.map fun f => ⟨f.name, f.type, .owned⟩
  result := d.selfType
  location := location

/-- Computations that register names. -/
abbrev Registration := Analysis SignatureTable

namespace SignatureTable

/-- The number of registered signatures. -/
def size (T : SignatureTable) : Nat := T.signatures.size

/-- The signature registered under a name. -/
def find? (T : SignatureTable) (name : String) : Option Signature := T.signatures.get? name

/-- The struct registered under a name. -/
def findStruct? (T : SignatureTable) (name : String) : Option StructDecl := T.structs.get? name

/-- The signature registered under a name, which must be known. -/
def lookup {σ : Type} (T : SignatureTable) (name : String) (location : Location) :
    Analysis σ Signature :=
  match T.find? name with
  | some s => return s
  | none => .reject location (.unknownFunction name)

/-- The struct registered under a name, which must be known. -/
def lookupStruct {σ : Type} (T : SignatureTable) (name : String) (location : Location) :
    Analysis σ StructDecl :=
  match T.findStruct? name with
  | some d => return d
  | none => .reject location (.unknownStruct name)

/-- The method of a leaf or struct type. -/
def findMethod? (T : SignatureTable) (receiver : Ty) (method : String) : Option Signature :=
  match receiver with
  | .prim name _ => T.find? (methodName name method)
  | .struct decl _ _ => T.find? (methodName decl.name method)
  | _ => none

/-- Checks that registration has not ended. -/
def checkOpen (name : String) : Registration Unit := do
  if (← get).finalized then
    .defect (.registrationEnded name)

/-- Registers a signature. -/
def add (s : Signature) : Registration Unit := do
  checkOpen s.name
  let T ← get
  match T.find? s.name with
  | some earlier =>
    unless earlier.same s do
      .reject s.location (.conflictingSignature s.name earlier.location)
  | none => set { T with signatures := T.signatures.insert s.name s }

/-- Registers a struct and its constructor. -/
def addStruct (d : StructDecl) (location : Location) : Registration Unit := do
  checkOpen d.name
  match (← get).findStruct? d.name with
  | some earlier =>
    unless earlier.same d do
      .reject location (.conflictingStruct d.name)
  | none =>
    add (d.constructorSignature location)
    modify fun T => { T with structs := T.structs.insert d.name d }

/-- Ends registration. -/
def finalize (T : SignatureTable) : SignatureTable := { T with finalized := true }

end SignatureTable

end QuantumStatics
