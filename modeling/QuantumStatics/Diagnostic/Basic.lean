/-
  Rejections, diagnostics and the console.

  A `Rejection` is a cause at a place.  A `Diagnostic` is what users are told: a
  rejection attributed to a definition, or a warning.  Every diagnostic has one
  line on the console.

  `Analysis σ` is the monad of the analyses: they work on a state, which survives
  a failure, and fail by rejecting the program or by finding that a promise was
  broken.
-/
import QuantumStatics.Defect
import QuantumStatics.Diagnostic.Cause

namespace QuantumStatics

/-! ## Rejections -/

/-- A cause for rejection and where it arose. -/
structure Rejection where
  cause : Cause
  location : Location

/-- A rejection as one line of text. -/
def Rejection.text (r : Rejection) : String :=
  r.location.text ++ ": error: [" ++ r.cause.kind.text ++ "] " ++ r.cause.message

/-- How an analysis fails. -/
inductive Failure where
  /-- The program under analysis is at fault. -/
  | rejected (r : Rejection)
  /-- The caller is at fault. -/
  | defect (d : Defect)

/-- Computations with a state that survives a failure. -/
abbrev Analysis (σ : Type) := EStateM Failure σ

namespace Analysis

variable {σ α : Type}

/-- Rejects the program. -/
def reject (location : Location) (cause : Cause) : Analysis σ α :=
  throw (.rejected ⟨cause, location⟩)

/-- Reports a broken promise. -/
def defect (d : Defect) : Analysis σ α := throw (.defect d)

/-- The result of a computation that may find a promise broken. -/
def ofDefect : Except Defect α → Analysis σ α
  | .ok a => return a
  | .error d => defect d

/-- The result of a computation without state. -/
def ofExcept : Except Failure α → Analysis σ α
  | .ok a => return a
  | .error f => throw f

end Analysis

/-- Rejects the program, without state. -/
def Failure.reject {α : Type} (location : Location) (cause : Cause) : Except Failure α :=
  .error (.rejected ⟨cause, location⟩)

/-! ## Diagnostics -/

/-- How grave a diagnostic is. -/
inductive Severity where
  | error
  | warning
  deriving DecidableEq, Inhabited, Repr

/-- The name of a severity. -/
def Severity.text : Severity → String
  | .error => "Error"
  | .warning => "Warning"

/-- What users are told about a definition. -/
structure Diagnostic where
  /-- The kind of rejection; warnings have none. -/
  kind : Option ErrorKind := none
  severity : Severity
  location : Location
  /-- The definition that was checked, or nothing. -/
  definition : String := ""
  message : String
  /-- The names and types involved. -/
  names : List String := []
  deriving DecidableEq, Repr

/-- The diagnostic of a rejected definition. -/
def Rejection.toDiagnostic (r : Rejection) (definition : String) : Diagnostic where
  kind := r.cause.kind
  severity := .error
  location := r.location
  definition := definition
  message := r.cause.message
  names := r.cause.names

/-- The line that a diagnostic prints on the console. -/
def Diagnostic.consoleLine (d : Diagnostic) : String :=
  match d.severity with
  | .error =>
    d.location.text ++ ": error: [" ++ (d.kind.map ErrorKind.text).getD "Error" ++ "] " ++
      d.message ++ "\n"
  | .warning => d.location.text ++ ": warning: " ++ d.message ++ "\n"

end QuantumStatics
