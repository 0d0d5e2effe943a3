/-
  Elaboration preserves the program.

  The body of a checked function has the statements of the source body in the same order and
  nesting, and their expressions are those of the source with types.
-/
import QuantumStatics.Proofs.Elaboration.BodyAccounts

namespace QuantumStatics.Elaboration

/-- **Elaboration preserves the program.**  The body of a checked function has the statements of the
    source body in the same order and nesting, and their expressions are those of the source with
    types. -/
theorem body_elaborates_to_checked_body {T : SignatureTable} (keyed : T.Keyed)
    {owner : Option StructDecl} {d : Source.FunctionDef} {f : Typed.Function}
    {memory memory' : CheckerMemory} (h : checkFunction T owner d memory = .ok f memory') :
    List.Forall₂ (StmtElaboratesTo T f.generics) d.body f.body := by
  obtain ⟨sig, -, -, signature, -⟩ := checkFunction_eq_ok h
  obtain ⟨checked, S, rfl, generics, known⟩ := checkFunction_notes signature h
  show List.Forall₂ (StmtElaboratesTo T checked.generics) d.body
    (Typed.Stmt.substAll S checked.body)
  rw [generics]
  exact known.faithful keyed

/-- A method of integers that results in an integer. -/
def intMethod (method : String) (params : List Param) : Signature where
  name := methodName "int" method
  params := params
  result := .int
  location := {}

/-- The methods of `int` for two operators. -/
def intTable : SignatureTable where
  signatures :=
    let sub := intMethod "__sub__" [⟨"l", .int, .borrowed⟩, ⟨"r", .int, .borrowed⟩]
    let neg := intMethod "__neg__" [⟨"l", .int, .borrowed⟩]
    (Dict.insert ∅ sub.name sub).insert neg.name neg

/-- The function `fn decrement(x: int) -> int` with the body `y = x - (1: int)`, `return -y` and,
    out of reach, `y.__sub__(x)`. -/
def decrement : Source.FunctionDef where
  location := { line := 1 }
  name := "decrement"
  params := [⟨"x", .int, .borrowed⟩]
  result := some .int
  body := [
    .assign { line := 2 } "y" (.binary { line := 2 } "-" (.name { line := 2 } "x")
      (.annotated { line := 2 } (.int { line := 2 } 1) .int)) none,
    .ret { line := 3 } (some (.unary { line := 3 } "-" (.name { line := 3 } "y"))),
    .expr { line := 4 } (.methodCall { line := 4 } (.name { line := 4 } "y") "__sub__"
      [.name { line := 4 } "x"])]

theorem decrement_elaborates :
    intTable.Keyed ∧ ∃ f memory, checkFunction intTable none decrement {} = .ok f memory ∧
      List.Forall₂ (StmtElaboratesTo intTable f.generics) decrement.body f.body := by
  have keyed : intTable.Keyed := by
    intro n s h
    simp only [SignatureTable.find?, intTable, Dict.get?_insert, Dict.get?_empty] at h
    split at h
    · rename_i hn
      cases h
      exact hn.symm
    · split at h
      · rename_i hn
        cases h
        exact hn.symm
      · cases h
  have run : ∃ f memory, checkFunction intTable none decrement {} = .ok f memory := ⟨_, _, by cbv⟩
  obtain ⟨f, memory, h⟩ := run
  exact ⟨keyed, f, memory, h, body_elaborates_to_checked_body keyed h⟩

end QuantumStatics.Elaboration
