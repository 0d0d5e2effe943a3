/-
  Accepted functions run safely.

  On every execution of a function that the checker accepts, every use finds a value unless
  the value is affine, nothing linear is overwritten or left behind, and a loop over linear
  elements runs to its end.  Two conditions are needed: the tests of loops give nothing
  away, and joined paths agree on classes.

  Borrowed parameters are the exception.  One of a linear type is given back at an exit
  except where it is spent: it may hold an affine value in between, which is gone when a
  loop goes round, and the checker does not look at affine values there.

  * `safe_on_every_execution`: the safety of all executions, with the exact condition for
    borrowed parameters;
  * `borrowed_parameter_not_given_back`: a function that is accepted and does not give its
    parameter back.
-/
import QuantumStatics.Proofs.Consumption.Simulation
import QuantumStatics.Proofs.Evaluation

namespace QuantumStatics.Consumption

open Execution Typed

/-- Nothing linear is missing, overwritten or left behind, after the history `h`. -/
def Safe (κ : Ty → OwnershipClass) (ps : List Param) (h : List Action) : Action → Prop
  | .use u => ∃ c, Store.after κ h u.name = some c ∧ (c.live ∨ κ c.type = .affine)
  | .bind n _ => ∀ c, Store.after κ h n = some c → c.live → κ c.type ≠ .linear
  | .leave =>
    (∀ x c, Store.after κ h x = some c → c.live → κ c.type = .linear →
      ∃ p, lastParam ps x = some p ∧ p.ownership = .borrowed) ∧
    ∀ x p, lastParam ps x = some p → p.ownership = .borrowed → κ p.type = .linear →
      ∃ c, Store.after κ h x = some c ∧ (c.live ↔ ¬ Spent κ h x)
  | .again => True

theorem safe_of_acceptable {κ : Ty → OwnershipClass} {ps : List Param} {marked : String → Prop}
    (hm : MarksBorrowed κ ps marked) {h : List Action} {a : Action}
    (ha : Acceptable κ marked True h a) : Safe κ ps h a := by
  cases a with
  | use u =>
    obtain ⟨c, hc, -, hlive⟩ := ha
    exact ⟨c, hc, hlive trivial⟩
  | bind n t => exact ha
  | leave =>
    obtain ⟨left, back⟩ := ha
    refine ⟨fun x c hc hlive hlin => hm.borrowed (left x c hc hlive hlin), fun x p hp ho hl => ?_⟩
    obtain ⟨c, hc, hdead⟩ := back x (hm.linear hp ho hl)
    exact ⟨c, hc, live_iff_not_spent hc fun hd => (hdead hd).2⟩
  | again => trivial

theorem tests_ofFunction {f : Function} {keeps : Prop}
    (hk : keeps → (Control.ofFunction f).Tests GivesNothingAway) :
    (Control.ofFunction f).Tests (IsTest keeps) := by
  have evaluations : (Control.ofFunction f).Tests IsEvaluation :=
    ⟨Control.tests_ofBlock f.body, trivial⟩
  by_cases h : keeps
  · exact (evaluations.and (hk h)).mono fun p hp => ⟨hp.1, fun _ => hp.2⟩
  · exact evaluations.mono fun p hp => ⟨hp, fun h' => absurd h' h⟩

/-- **Every execution of an accepted function is safe**, if the tests of its loops give nothing
    away and joined paths agree on classes.  Every used name is bound and has its value unless
    the value is affine; nothing linear is overwritten; at every exit nothing linear is left
    but in borrowed parameters, and a borrowed parameter of a linear type has a value exactly
    if it is not spent; a loop over linear elements is not left by a jump. -/
theorem safe_on_every_execution {f : Function} {memo final : ClassMemo} {ws : List Diagnostic}
    (accepted : checkFunction f memo = .ok ws final)
    (keeps : (Control.ofFunction f).Tests GivesNothingAway)
    (agreeing : Agreeing (joinsFunction f memo)) :
    (∀ p o, (Control.ofFunction f).Path p o →
      Fine (Safe final.classOf f.params) (bindings f.params) p) ∧
    ∀ p location loopVar varType iterable body elem length,
      (Control.ofFunction f).Reaches p
        (.ofStmt (.forLoop location loopVar varType iterable body)) →
      iterable.type = .array elem length → final.classOf varType = .linear →
      ∀ q o, (Control.ofBlock body).Path q o → o ≠ .broke ∧ o ≠ .returned := by
  obtain ⟨F, marked, marks, admits, related⟩ := start_of_checkFunction accepted agreeing
  have tests := tests_ofFunction fun _ : True => keeps
  let S := simulation final.classOf marked True
  refine ⟨fun p o hp => ?_, ?_⟩
  · exact (S.path admits tests related hp).1.mono fun h a => safe_of_acceptable marks
  · intro p location loopVar varType iterable body elem length hreach harray hlin q o hq
    obtain ⟨⟨-, testsLoop⟩, X, F', Q, ⟨F₁, hs, hloop⟩, related'⟩ :=
      S.reaches admits tests related hreach
    have helements : Control.elements iterable varType = some varType := by
      simp [Control.elements, harray]
    rw [helements] at hloop testsLoop
    exact S.not_left hloop testsLoop (S.steps hs related').2 hlin hq

/-! ## Two functions -/

/-- A call of a function without generic arguments. -/
def callOf (callee : String) (result : Ty) (ownership : List Ownership) (args : List Expr) : Expr :=
  .call {} result { callee, kind := .function, ownership } args

theorem agreeing_of_all {joins : List (Flow × Flow)}
    (h : joins.all (fun p => sameClasses p.1.bindings p.2.bindings) = true) : Agreeing joins :=
  fun p hp _ _ => List.all_eq_true.mp h p hp

theorem not_agreeing_of_any {joins : List (Flow × Flow)}
    (h : joins.any (fun p =>
      p.1.reachable && p.2.reachable && !sameClasses p.1.bindings p.2.bindings) = true) :
    ¬ Agreeing joins := by
  intro agreeing
  obtain ⟨p, hp, differ⟩ := List.any_eq_true.mp h
  simp only [Bool.and_eq_true, Bool.not_eq_true'] at differ
  simpa [differ.2] using agreeing p hp differ.1.1 differ.1.2

/-- A loop that gives away the elements of an array. -/
def drainLoop : Stmt :=
  .forLoop {} "x" .qubit (.name {} (.array .qubit (.const 2)) "a" .consume)
    [.expr {} (callOf "discard" .none [.owned] [.name {} .qubit "x" .consume])]

/-- Gives away the elements of an array, and with them the array. -/
def drains : Function where
  name := "drains"
  params := [⟨"a", .array .qubit (.const 2), .owned⟩]
  result := .none
  body := [drainLoop]

theorem drains_safe :
    let final : ClassMemo :=
      { classes := .ofList [("array[qubit, 2]", .linear), ("none", .copyable), ("qubit", .linear)] }
    let round : List Action := [.bind "x" .qubit, .use ⟨"x", .consume, some .qubit⟩, .again]
    let p := .use ⟨"a", .consume, some (.array .qubit (.const 2))⟩ :: (round ++ round ++ [.leave])
    checkFunction drains {} = .ok [] final ∧ (Control.ofFunction drains).Tests GivesNothingAway ∧
    Agreeing (joinsFunction drains {}) ∧ (Control.ofFunction drains).Path p .returned ∧
    Fine (Safe final.classOf drains.params) (bindings drains.params) p ∧
    (Control.ofFunction drains).Reaches [] (.ofStmt drainLoop) ∧
    final.classOf .qubit = .linear ∧
    ∀ q o, (Control.ofBlock [.expr {} (callOf "discard" .none [.owned]
      [.name {} .qubit "x" .consume])]).Path q o → o ≠ .broke ∧ o ≠ .returned := by
  intro final round p
  have accepted : checkFunction drains {} = .ok [] final := by cbv
  have tests : (Control.ofFunction drains).Tests GivesNothingAway := by
    simp [Control.ofFunction, drains, drainLoop, Control.ofBlock, Control.ofStmt, Control.Tests,
      GivesNothingAway]
  have agreeing : Agreeing (joinsFunction drains {}) := agreeing_of_all (by cbv)
  have linear : final.classOf .qubit = .linear := by cbv
  have path : (Control.ofFunction drains).Path _ .returned :=
    .seq (.seq (.seq (.run ..) (.loop (.snoc (.snoc .nil (.seq (.run ..) (.run ..)) (.inl rfl))
      (.seq (.run ..) (.run ..)) (.inl rfl)) .done)) (.run ..)) (.run ..)
  have reaches : (Control.ofFunction drains).Reaches [] (.ofStmt drainLoop) := .first (.first .here)
  obtain ⟨safe, stays⟩ := safe_on_every_execution accepted tests agreeing
  exact ⟨accepted, tests, agreeing, path, safe _ _ path, reaches, linear,
    stays _ _ _ _ _ _ _ _ reaches rfl linear⟩

/-- Gives its borrowed qubit away, holds a random number generator in its place, and gives that
    away in every iteration of a loop that may also return. -/
def returnsEmptyHanded : Function where
  name := "returnsEmptyHanded"
  params := [⟨"q", .qubit, .borrowed⟩, ⟨"c", .bool, .borrowed⟩]
  result := .none
  body :=
    [.expr {} (callOf "discard" .none [.owned] [.name {} .qubit "q" .consume]),
      .assign {} "q" (callOf "rng" .rng [.borrowed] [.int {} .int 1]),
      .whileLoop {} (.name {} .bool "c" .read)
        [.branch {} (.name {} .bool "c" .read) [.ret {} none] [],
          .expr {} (callOf "sink" .none [.owned] [.name {} .rng "q" .consume])],
      .assign {} "q" (callOf "qubit" .qubit [] [])]

/-- **A borrowed qubit need not be given back.**  The function is accepted, and the conditions
    for safety hold; when it returns in the second iteration of its loop, its borrowed parameter
    has lost its value. -/
theorem borrowed_parameter_not_given_back :
    let final : ClassMemo :=
      { classes := .ofList [("bool", .copyable), ("int", .copyable), ("none", .copyable),
          ("qubit", .linear), ("rng", .affine)] }
    checkFunction returnsEmptyHanded {} = .ok [] final ∧
    (Control.ofFunction returnsEmptyHanded).Tests GivesNothingAway ∧
    Agreeing (joinsFunction returnsEmptyHanded {}) ∧
    lastParam returnsEmptyHanded.params "q" = some ⟨"q", .qubit, .borrowed⟩ ∧
    final.classOf .qubit = .linear ∧
    ∃ p o c, (Control.ofFunction returnsEmptyHanded).Path (p ++ [.leave]) o ∧
      Store.after final.classOf (bindings returnsEmptyHanded.params ++ p) "q" = some c ∧
      ¬ c.live := by
  intro final
  have affine : final.classOf .rng = .affine := by cbv
  refine ⟨by cbv, ?_, agreeing_of_all (by cbv), rfl, by cbv, ?_⟩
  · simp [Control.ofFunction, returnsEmptyHanded, Control.ofBlock, Control.ofStmt, Control.Tests,
      evaluation, uses, GivesNothingAway]
  · -- One iteration, and the return in the next one.
    have path : (Control.ofFunction returnsEmptyHanded).Path _ .returned :=
      .jump (.seq (.run ..) (.seq (.run ..) (.jump (.loop
        (.snoc .nil (.seq (.seq (.run ..) (.inr (.run ..))) (.seq (.run ..) (.run ..))) (.inl rfl))
        (.returned (.jump (.seq (.run ..) (.inl (.jump (.run ..) (by decide)))) (by decide)))) (by decide)))) (by decide)
    let tests : List Action := [.use ⟨"c", .read, some .bool⟩, .use ⟨"c", .read, some .bool⟩]
    refine ⟨[.use ⟨"q", .consume, some .qubit⟩, .bind "q" .rng] ++ tests ++
      [.use ⟨"q", .consume, some .rng⟩, .again] ++ tests, _, ⟨.rng, false⟩, path, ?_, Bool.false_ne_true⟩
    simp [tests, Store.after, Store.step, Cell.giveAway, bindings, returnsEmptyHanded, affine]

end QuantumStatics.Consumption
