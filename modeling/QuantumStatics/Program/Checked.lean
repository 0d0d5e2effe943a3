/-
  Checking programs.

  The headers of all definitions are registered together with the prelude, and
  then each definition is checked by itself.  The outcome is a `Verdict` for each
  definition; what a program offers and what users are told is read off the
  verdicts, in the order of the definitions.  A rejected definition does not keep
  the others from being checked.
-/
import QuantumStatics.Consumption.Analysis
import QuantumStatics.Elaboration.Definition
import QuantumStatics.Program.Header
import QuantumStatics.Signature.Prelude

namespace QuantumStatics

/-- How programs are checked.  Whether definitions are checked one after the other or
    several at once is no option: a check reads the finished table and nothing that
    another check leaves behind, so the verdicts are the same. -/
structure CheckOptions where
  /-- Whether the consumption of values is analysed. -/
  consumption : Bool := true

/-- The outcome of checking a definition. -/
inductive Verdict where
  /-- The definition is accepted, with its functions or methods. -/
  | accepted (functions : List Typed.Function) (warnings : List Diagnostic)
  /-- The definition is rejected, after some warnings. -/
  | rejected (rejection : Rejection) (warnings : List Diagnostic)

namespace Verdict

/-- Whether a definition is rejected. -/
def isRejected : Verdict → Bool
  | accepted _ _ => false
  | rejected _ _ => true

/-- The accepted functions. -/
def functions : Verdict → List Typed.Function
  | accepted fs _ => fs
  | rejected _ _ => []

/-- What users are told about a definition. -/
def diagnostics (definition : String) : Verdict → List Diagnostic
  | accepted _ warnings => warnings
  | rejected rejection warnings => warnings ++ [rejection.toDiagnostic definition]

end Verdict

/-! ## Definitions -/

/-- The analysis of some functions, one after the other. -/
structure Review where
  memo : ClassMemo := {}
  warnings : List Diagnostic := []

/-- Analyses the consumption of values in a function. -/
def Review.add (f : Typed.Function) : Analysis Review Unit := fun review =>
  match Consumption.checkFunction f review.memo with
  | .ok warnings memo => .ok () { memo, warnings := review.warnings ++ warnings }
  | .error e memo => .error e { review with memo }

/-- Elaborates a definition to its functions or methods. -/
def Source.Def.elaborate (T : SignatureTable) :
    Source.Def → Analysis Elaboration.CheckerMemory (List Typed.Function)
  | .function f => return [← Elaboration.checkFunction T none f]
  | .struct s => Elaboration.checkStructDef T s

/-- Checks a definition against the finished table. -/
def Source.Def.check (T : SignatureTable) (options : CheckOptions) (d : Source.Def) :
    Except Defect Verdict :=
  match d.elaborate T {} with
  | .error (.defect e) _ => .error e
  | .error (.rejected r) _ => .ok (.rejected r [])
  | .ok functions _ =>
    if options.consumption then
      match functions.forM Review.add {} with
      | .ok _ review => .ok (.accepted functions review.warnings)
      | .error (.rejected r) review => .ok (.rejected r review.warnings)
      | .error (.defect e) _ => .error e
    else .ok (.accepted functions [])

/-! ## Programs -/

/-- Registers the headers of some definitions, and returns for each definition
    why its header was rejected, if it was. -/
def registerHeaders (T : SignatureTable) :
    List Source.Def → Except Defect (List (Source.Def × Option Rejection) × SignatureTable)
  | [] => .ok ([], T)
  | d :: ds =>
    match Header.register d T with
    | .ok () T => do
      let (headers, T) ← registerHeaders T ds
      return ((d, none) :: headers, T)
    | .error (.rejected r) T => do
      let (headers, T) ← registerHeaders T ds
      return ((d, some r) :: headers, T)
    | .error (.defect e) _ => .error e

/-- A program after checking. -/
structure CheckedProgram where
  /-- The table against which the definitions were checked. -/
  table : SignatureTable
  /-- The definitions and the verdicts on them. -/
  verdicts : List (Source.Def × Verdict)

namespace CheckedProgram

/-- Checks a program. -/
def check (options : CheckOptions) (defs : List Source.Def) : Except Defect CheckedProgram := do
  let (headers, T) ← registerHeaders Prelude.table defs
  let table := T.finalize
  let verdicts ← headers.mapM fun
    | (d, some r) => .ok (d, .rejected r [])
    | (d, none) => do return (d, ← d.check table options)
  return { table, verdicts }

/-- The accepted functions and methods. -/
def functions (p : CheckedProgram) : List Typed.Function :=
  p.verdicts.flatMap fun (_, v) => v.functions

/-- The accepted structs. -/
def structs (p : CheckedProgram) : List StructDecl :=
  p.verdicts.filterMap fun
    | (.struct s, .accepted _ _) => some s.decl
    | _ => none

/-- Everything users are told. -/
def diagnostics (p : CheckedProgram) : List Diagnostic :=
  p.verdicts.flatMap fun (d, v) => v.diagnostics d.name

/-- Whether nothing is an error. -/
def ok (p : CheckedProgram) : Bool := p.diagnostics.all (·.severity ≠ .error)

/-- The accepted function or method of a registered name. -/
def find? (p : CheckedProgram) (name : String) : Option Typed.Function :=
  p.functions.find? (·.qualifiedName = name)

/-- The number of rejected definitions. -/
def rejectedCount (p : CheckedProgram) : Nat := p.verdicts.countP (·.2.isRejected)

/-- What checking a program prints on the console: a line for each diagnostic and
    a summary. -/
def console (p : CheckedProgram) : String :=
  String.join (p.diagnostics.map Diagnostic.consoleLine) ++ "Checked " ++
    toString p.verdicts.length ++ " definitions, " ++ toString p.rejectedCount ++ " rejected\n"

end CheckedProgram

end QuantumStatics
