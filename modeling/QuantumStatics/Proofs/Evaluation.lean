/-
  Evaluating given runs.

  A run on a given program is evaluated with `cbv`, which rewrites with the equations of the
  definitions and of the library's functions.  The modules that show such runs take the
  library from here as a whole, so that none of them derives those equations anew.  Where the
  result is too large to be written down, a test of it is evaluated, and the lemmas here give the
  result back.
-/
import Mathlib

namespace QuantumStatics

theorem isOk_iff {ε : Type} {x : Except ε Unit} : x.isOk ↔ x = .ok () := by
  cases x <;> simp [Except.isOk, Except.toBool]

theorem exists_of_any {ε α : Type} {x : Except ε α} {test : α → Bool}
    (h : x.toOption.any test = true) : ∃ a, x = .ok a ∧ test a := by
  cases x with
  | error e => cases h
  | ok a => exact ⟨a, rfl, h⟩

/-- Whether a run succeeds with a result that passes a test. -/
def runPasses {ε σ α : Type} (r : EStateM.Result ε σ α) (test : α → Bool) : Bool :=
  match r with
  | .ok a _ => test a
  | .error _ _ => false

theorem exists_of_runPasses {ε σ α : Type} {r : EStateM.Result ε σ α} {test : α → Bool}
    (h : runPasses r test = true) : ∃ a s, r = .ok a s ∧ test a := by
  cases r with
  | ok a s => exact ⟨a, s, rfl, h⟩
  | error e s => cases h

end QuantumStatics
