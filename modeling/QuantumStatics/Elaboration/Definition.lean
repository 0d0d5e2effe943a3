/-
  Checking definitions.

  A function is checked against its signature: the declared types first, then the
  body, and last that a function with a result cannot run off its end.  What
  inference has found out is then put into the typed tree.
-/
import QuantumStatics.Elaboration.Stmt
import QuantumStatics.Typed.Replacement

namespace QuantumStatics.Elaboration

/-- Runs the check of a body, keeping what outlives it. -/
def Check.withMemory {α : Type} (check : Check α) (env : Env) :
    Analysis CheckerMemory (α × BodyState) := fun memory =>
  match check { toCheckerMemory := memory, env } with
  | .ok a s => .ok (a, s) s.toCheckerMemory
  | .error f s => .error f s.toCheckerMemory

/-- The environment in which a body starts. -/
def paramEnv (params : List Param) : Env where
  bindings := .ofList (params.map fun p => (p.name, p.type))

/-- Checks a function, or a method of a struct. -/
def checkFunction (T : SignatureTable) (owner : Option StructDecl) (f : Source.FunctionDef) :
    Analysis CheckerMemory Typed.Function := do
  let s ← .ofExcept (signatureOf owner f)
  .ofExcept (checkSignature T owner s f.location)
  let Γ : Scope :=
    { table := T, function := s.name, generics := s.generics, result := s.result,
      assigned := assignedNamesAll f.body }
  let (body, final) ← (checkBlock Γ f.body).withMemory (paramEnv s.params)
  if final.env.reachable && !s.result.equal .none then
    .reject f.location (.missingReturn s.name s.result)
  let checked : Typed.Function :=
    { location := f.location, name := f.name, owner := (owner.map (·.name)).getD "",
      generics := s.generics, params := s.params, result := s.result, body }
  checked.replace (.ofSubstitution final.subs)

/-- Checks a struct and its methods. -/
def checkStructDef (T : SignatureTable) (s : Source.StructDef) :
    Analysis CheckerMemory (List Typed.Function) := do
  .ofExcept (checkGenerics s.decl.params s.location)
  .ofExcept (checkFields T s.decl.params s.decl.name s.location [] s.decl.fields)
  s.methods.mapM (checkFunction T (some s.decl))

end QuantumStatics.Elaboration
