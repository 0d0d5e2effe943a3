/-
  Functions with a result return.

  Both checkers keep a mark that says whether the current point can be reached.  The checker of
  types goes on behind a jump, with an environment that is marked as unreachable, and joins such
  environments; the checker of consumption skips what is behind a jump.  The marks at the end of a
  body agree all the same, since both say whether some execution gets there.

  * `FlowAnalysis.Admits.exists_normal`: an analysis gets wherever an execution gets;
  * `Control.inside_of_path`: a statement is left by a jump only if it stands inside of a loop;
  * `end_reached_alike`: the marks of both checkers at the end of a body say whether an execution
    may run off the end, which a function with a result never does.
-/
import QuantumStatics.Proofs.Consumption.Followed
import QuantumStatics.Proofs.Elaboration.Nesting
import QuantumStatics.Proofs.Evaluation

namespace QuantumStatics

namespace Execution

variable {p : List Action} {o : Outcome}

theorem FlowAnalysis.Admits.exists_normal {D : Type} {A : FlowAnalysis D} {c : Control} {d : D}
    {Q : Post D} (h : A.Admits c d Q) (path : c.Path p .normal) : ∃ d', Q .normal d' := by
  induction c generalizing d Q p with
  | run actions outcome =>
    obtain ⟨-, rfl⟩ := path
    obtain ⟨d', -, end'⟩ := h
    exact ⟨d', end'⟩
  | seq a b iha ihb =>
    rcases path with ⟨p₁, p₂, -, first, second⟩ | ⟨-, jumps⟩
    · obtain ⟨d₁, rest⟩ := iha h first
      exact ihb rest second
    · exact absurd rfl jumps
  | choice a b iha ihb =>
    obtain ⟨m, joined, left, right⟩ := h
    rcases path with path | path
    · obtain ⟨e, d', hd', -⟩ := iha left path
      exact ⟨d', joined d' hd'⟩
    · obtain ⟨e, d', hd', -⟩ := ihb right path
      exact ⟨d', joined d' hd'⟩
  | loop elements test enter body =>
    obtain ⟨d₁, d₂, m, -, -, -, exit, -⟩ := h
    exact ⟨m, exit⟩

namespace Control

open Typed (Stmt)

theorem not_jumps_of_loop {elements : Option Ty} {test enter : List Action} {body : Control}
    (path : (loop elements test enter body).Path p o) : ¬ (o = .broke ∨ o = .continued) := by
  obtain ⟨r, q, -, -, ends⟩ := path
  cases ends <;> simp

mutual

theorem inside_of_path {n : Nat} {p : List Action} {o : Outcome}
    (jump : o = .broke ∨ o = .continued) : ∀ {s : Stmt}, s.JumpsIn n → (ofStmt s).Path p o → 0 < n
  | .assign _ _ _, _, path | .tupleAssign _ _ _, _, path | .expr _ _, _, path | .ret _ _, _, path => by
    rw [path.2] at jump
    simp at jump
  | .breakLoop _, inside, _ | .continueLoop _, inside, _ => inside
  | .branch _ _ _ _, inside, path => by
    rcases path with ⟨p₁, p₂, -, -, path | path⟩ | ⟨path, jumps⟩
    · exact inside_of_path_block jump inside.1 path
    · exact inside_of_path_block jump inside.2 path
    · exact absurd path.2 jumps
  | .whileLoop _ _ _, _, path => absurd jump (not_jumps_of_loop path)
  | .forLoop _ _ _ _ _, _, path => by
    rcases path with ⟨p₁, p₂, -, -, path⟩ | ⟨path, jumps⟩
    · exact absurd jump (not_jumps_of_loop path)
    · exact absurd path.2 jumps

theorem inside_of_path_block {n : Nat} {p : List Action} {o : Outcome}
    (jump : o = .broke ∨ o = .continued) : ∀ {ss : List Stmt}, Stmt.JumpsInAll n ss → (ofBlock ss).Path p o → 0 < n
  | [], _, path => by
    rw [path.2] at jump
    simp at jump
  | _ :: _, inside, path => by
    rcases path with ⟨p₁, p₂, -, -, path⟩ | ⟨path, -⟩
    · exact inside_of_path_block jump inside.2 path
    · exact inside_of_path jump inside.1 path

end

end Control

end Execution

namespace Elaboration

open Execution

/-- **Both checkers know whether the end of a body can be reached.**  If they accept a function,
    the marks that they end its body with agree: they are set exactly if some execution of the body,
    whatever branches it takes and however often its loops go round, runs off the end.  A function
    with a result has no such execution, so all of them return. -/
theorem end_reached_alike {T : SignatureTable} {owner : Option StructDecl} {d : Source.FunctionDef}
    {f : Typed.Function} {memory memory' : CheckerMemory} {memo memo' : ClassMemo}
    {ws : List Diagnostic} (typed : checkFunction T owner d memory = .ok f memory')
    (followed : Consumption.checkFunction f memo = .ok ws memo') :
    ∃ sig body final st, signatureOf owner d = .ok sig ∧
      checkBlock (bodyScope T sig d.body) d.body
        { toCheckerMemory := memory, env := paramEnv sig.params } = .ok body final ∧
      Consumption.followFunction f { memo } = .ok () st ∧
      final.env.reachable = st.flow.reachable ∧
      (final.env.reachable = true ↔ ∃ p, (Control.ofBlock f.body).Path p .normal) ∧
      (f.result.equal .none = false → ∀ p o, (Control.ofBlock f.body).Path p o → o = .returned) := by
  have jumpsIn := jumpsIn_of_checkFunction typed
  obtain ⟨sig, checked, final, signature, -, result, returns, hblock, rfl⟩ :=
    checkFunction_eq_ok typed
  obtain ⟨bs, cs, elaborated⟩ := elaborated_block d.body hblock Substitution.solved_empty
  have reached : final.env.reachable = true ↔
      ∃ p, (Control.ofBlock (checked.subst final.subs).body).Path p .normal := by
    constructor
    · exact fun h => (elaborated.ends h).2 final.subs
    · rintro ⟨p, path⟩
      obtain ⟨E, reachable, -⟩ := (elaborated.admits final.subs
        elaborated.advances.solved.refines rfl).exists_normal path
      exact reachable
  unfold Consumption.checkFunction at followed
  split at followed
  · rename_i st run
    obtain ⟨st₁, bs', cs', -, through, -⟩ := Consumption.followFunction_eq_ok run
      fun h : False => h.elim
    have reached' : st.flow.reachable = true ↔
        ∃ p, (Control.ofBlock (checked.subst final.subs).body).Path p .normal := by
      constructor
      · exact through.ends
      · rintro ⟨p, path⟩
        obtain ⟨F, reachable, -⟩ := (through.admits st.memo (.refl _)).exists_normal path
        exact reachable
    refine ⟨sig, checked.body, final, st, signature, hblock, run,
      Bool.eq_iff_iff.mpr (reached.trans reached'.symm), reached, fun value p o path => ?_⟩
    have leaves : ¬ final.env.reachable = true := by
      intro h
      have unit := Ty.equal_subst final.subs (returns h)
      rw [← result] at unit
      cases unit.symm.trans value
    cases o with
    | returned => rfl
    | normal => exact absurd (reached.mpr ⟨p, path⟩) leaves
    | broke | continued =>
      exact absurd (Control.inside_of_path_block (by simp) jumpsIn path) (Nat.lt_irrefl 0)
  · cases followed

/-- A function that returns inside of a loop and on both sides of a branch, with a loop behind it
    that is never reached. -/
def searches : Source.FunctionDef where
  name := "searches"
  params := [⟨"b", .bool, .borrowed⟩, ⟨"x", .int, .borrowed⟩]
  result := some .int
  body :=
    [.whileLoop {} (.name {} "b")
      [.branch {} (.name {} "b") [.ret {} (some (.name {} "x"))] [.breakLoop {}]],
      .branch {} (.name {} "b") [.ret {} (some (.name {} "x"))] [.ret {} (some (.int {} 0))],
      .whileLoop {} (.name {} "b") [.continueLoop {}]]

/-- What `searches` is elaborated to. -/
def searchesTyped : Typed.Function where
  name := "searches"
  params := [⟨"b", .bool, .borrowed⟩, ⟨"x", .int, .borrowed⟩]
  result := .int
  body :=
    [.whileLoop {} (.name {} .bool "b" .read)
      [.branch {} (.name {} .bool "b" .read) [.ret {} (some (.name {} .int "x" .read))]
        [.breakLoop {}]],
      .branch {} (.name {} .bool "b" .read) [.ret {} (some (.name {} .int "x" .read))]
        [.ret {} (some (.int {} .int 0))],
      .whileLoop {} (.name {} .bool "b" .read) [.continueLoop {}]]

/-- The classes of the types of `searches`. -/
def searchesClasses : ClassMemo where
  classes := .ofList [("bool", .copyable), ("int", .copyable)]

/-- The loop at the end of `searches` cannot be reached. -/
def searchesWarning : Diagnostic where
  severity := .warning
  location := {}
  definition := "searches"
  message := "Unreachable code"

theorem searches_returns :
    checkFunction {} none searches {} = .ok searchesTyped { memo := searchesClasses } ∧
      Consumption.checkFunction searchesTyped {} = .ok [searchesWarning] searchesClasses ∧
      searchesTyped.result.equal .none = false ∧
      ∀ p o, (Control.ofBlock searchesTyped.body).Path p o → o = .returned := by
  have typed : checkFunction {} none searches {} =
      .ok searchesTyped { memo := searchesClasses } := by cbv
  have followed : Consumption.checkFunction searchesTyped {} =
      .ok [searchesWarning] searchesClasses := by cbv
  have value : searchesTyped.result.equal .none = false := by cbv
  obtain ⟨-, -, -, -, -, -, -, -, -, returns⟩ := end_reached_alike typed followed
  exact ⟨typed, followed, value, returns value⟩

end Elaboration

end QuantumStatics
