/-
  Source positions.

  A position is assigned by whoever builds a definition and is only threaded
  through to diagnostics: no analysis looks at it.
-/

namespace QuantumStatics

/-- A line of a source file.  The file name is empty if it is not known. -/
structure Location where
  file : String := ""
  line : Int := 0
  deriving DecidableEq, Inhabited, Repr

/-- A position as diagnostics show it, such as `main.q:12`. -/
def Location.text (l : Location) : String :=
  (if l.file.isEmpty then "<unknown>" else l.file) ++ ":" ++ toString l.line

end QuantumStatics
