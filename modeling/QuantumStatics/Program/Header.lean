/-
  Registering the headers of definitions.

  Before any definition is checked, all of them register what they declare: a
  function its signature, a struct its declaration, its constructor and its
  methods.  A definition must introduce new names only.  This is found out before
  anything is registered, so a rejected header leaves no trace.
-/
import QuantumStatics.Elaboration.Declared

namespace QuantumStatics.Header

/-- Checks that nothing is registered under a name. -/
def checkNew (name : String) (location : Location) : Registration Unit := do
  let T ← get
  if (T.find? name).isSome || (T.findStruct? name).isSome then
    .reject location (.alreadyDefined name)

/-- The signatures of the methods of a struct, whose names must be new and
    different from the names in `seen`. -/
def methodSignatures (owner : StructDecl) (seen : List String) :
    List Source.FunctionDef → Registration (List Signature)
  | [] => return []
  | m :: ms => do
    let s ← .ofExcept (Elaboration.methodSignature owner m)
    if seen.contains s.name then
      .reject m.location (.methodTwice s.name)
    checkNew s.name m.location
    return s :: (← methodSignatures owner (s.name :: seen) ms)

/-- Registers what a definition declares. -/
def register : Source.Def → Registration Unit
  | .function f => do
    let s := Elaboration.functionSignature f
    checkNew s.name f.location
    SignatureTable.add s
  | .struct d => do
    checkNew d.decl.name d.location
    let methods ← methodSignatures d.decl [] d.methods
    SignatureTable.addStruct d.decl d.location
    methods.forM SignatureTable.add

end QuantumStatics.Header
