/-
  What becomes of borrowed parameters.

  A function must give back what it has borrowed.  At its exits the checker looks at the state of
  a borrowed parameter and not at its type, and what it knows about an affine value may be wrong
  after a loop has gone round.  So a parameter may come back without a value, and with a value of
  another type.

  * `borrowed_parameter_at_exits`: what a borrowed parameter holds at the exits of a function that
    is elaborated and accepted;
  * `borrowed_parameter_exchanged_or_lost`: functions that do not give back what they borrow.
-/
import QuantumStatics.Proofs.Consumption.Instances
import QuantumStatics.Proofs.Consumption.Repetition
import QuantumStatics.Proofs.Elaboration.Reaching

namespace QuantumStatics.Consumption

open Elaboration (CheckerMemory LastBound LocalTypes following lastBound_params paramTypes typeFlow)
open Execution Typed

/-- An execution leaves the function after having done `h`. -/
def LeavesAfter (f : Function) (h : List Action) : Prop :=
  ∃ p₁ p₂ o, (Control.ofFunction f).Path (p₁ ++ .leave :: p₂) o ∧ h = bindings f.params ++ p₁

/-! ## Types at exits -/

section

variable {passes : Action → LocalTypes → Prop} {ps : List Param} {E E' : LocalTypes}
  {h : List Action} {x : String} {q : Param}

theorem eq_of_steps_uses {us : List Use} (hs : (following passes).steps (us.map .use) E E') :
    E' = E := by
  induction us generalizing E with
  | nil => exact hs.symm
  | cons u us ih =>
    obtain ⟨_, ⟨rfl, -⟩, hs⟩ := hs
    exact ih hs

/-- A name was last bound to a value of its type, however the types are followed. -/
def lastBoundSimulation (passes : Action → LocalTypes → Prop) (x : String) :
    Simulation (following passes) Unit where
  holds _ E h := LastBound E h x
  ok h a := a = .leave → ∃ E, LastBound E h x ∧ passes .leave E
  tests := IsEvaluation
  inside _ _ := ()
  step hs hx := ⟨by rintro rfl; exact ⟨_, hx, hs.2⟩, hs.1.lastBound fun _ => hx⟩
  join hj hx := hx.join hj
  goInside := id
  goOutside := id
  again := by
    rintro _ _ E E₁ _ h h' hx hs ⟨us, rfl⟩ hedge hx'
    cases eq_of_steps_uses hs
    refine ⟨fun p₁ a p₂ hp ha => ?_, ?_⟩
    · have : Action.leave ∈ Action.again :: us.map .use := by simp [hp, ha]
      simp at this
    · rw [List.append_cons]
      exact (hx.again hedge hx').uses us

theorem name_of_lastParam (hq : lastParam ps x = some q) : q.name = x := by
  simpa using List.find?_some hq

theorem restored_of_lastBound (hx : LastBound E h x) (hq : lastParam ps x = some q)
    (good : ∃ t, reaching h x = some t ∧ t.equal q.type) : Restored ps (· = q) E := by
  intro y p b hp hpq hb
  obtain rfl : y = x := by rw [← name_of_lastParam hp, hpq, name_of_lastParam hq]
  obtain ⟨t, t', ht, hreach, equal⟩ := hx
  obtain ⟨t'', hreach', declared⟩ := good
  cases hb.symm.trans ht
  cases hreach.symm.trans hreach'
  exact hpq ▸ Ty.equal_trans (Ty.equal_symm equal) declared

/-- **The declared type of a parameter is restored at all exits exactly if the flow analysis can
    tell.** -/
theorem restoring_iff {f : Function} (hq : lastParam f.params x = some q)
    (typed : typeFlow.Admits (.ofFunction f) (paramTypes f.params) fun _ _ => True) :
    (restoring f.params (· = q)).Admits (.ofFunction f) (paramTypes f.params) (fun _ _ => True) ↔
      ∀ h, LeavesAfter f h → ∃ t, reaching h x = some t ∧ t.equal q.type := by
  have tests : (Control.ofFunction f).Tests IsEvaluation := ⟨Control.tests_ofBlock f.body, trivial⟩
  have start := lastBound_params hq
  constructor
  · rintro admits _ ⟨p₁, p₂, o, path, rfl⟩
    have fine := ((lastBoundSimulation _ x).path (i := ()) admits tests start path).1
    obtain ⟨E, ⟨t, t', ht, hreach, equal⟩, restored⟩ := fine p₁ .leave p₂ rfl rfl
    exact ⟨t', hreach, Ty.equal_trans equal (restored x q t hq rfl ht)⟩
  · intro exits
    have good : ∀ p o, (Control.ofFunction f).Path p o → Fine (fun h a => a = .leave →
        ∃ t, reaching h x = some t ∧ t.equal q.type) (bindings f.params) p := by
      rintro _ o path p₁ _ p₂ rfl rfl
      exact exits _ ⟨p₁, p₂, o, path, rfl⟩
    refine ((lastBoundSimulation _ x).admits_of_fine (i := ()) (fun {_ a _ _ _} hs hx good => ?_)
      typed tests start good).mono fun _ _ _ => trivial
    refine ⟨hs.1, ?_⟩
    cases a with
    | leave => exact restored_of_lastBound hx hq (good rfl)
    | use | bind | again => trivial

end

/-! ## Parameters at exits -/

/-- **What a borrowed parameter holds at the exits of a function** that is elaborated and accepted,
    if joined paths agree on classes.  On every execution, a parameter that may not be copied is
    bound wherever the function is left.  It has a value exactly if it is not spent, and it has one
    unless that is affine.  At all exits the value has the declared type exactly if the types of
    names can be followed such that the parameter has its type wherever the function is left. -/
theorem borrowed_parameter_at_exits {T : SignatureTable} {owner : Option StructDecl}
    {d : Source.FunctionDef} {f : Function} {memory memory' : CheckerMemory}
    {memo final : ClassMemo} {ws : List Diagnostic}
    (elaborated : Elaboration.checkFunction T owner d memory = .ok f memory')
    (accepted : checkFunction f memo = .ok ws final)
    (agreeing : Agreeing (joinsFunction f memo)) {x : String} {q : Param}
    (param : lastParam f.params x = some q) (borrowed : q.ownership = .borrowed)
    (lent : final.classOf q.type ≠ .copyable) :
    (∀ h, LeavesAfter f h → ∃ c, Store.after final.classOf h x = some c ∧
      (c.live ↔ ¬ Spent final.classOf h x) ∧ (final.classOf c.type ≠ .affine → c.live)) ∧
    ((∀ h c, LeavesAfter f h → Store.after final.classOf h x = some c → c.type.equal q.type) ↔
      (restoring f.params (· = q)).Admits (.ofFunction f) (paramTypes f.params)
        fun _ _ => True) := by
  obtain ⟨F, marked, marks, admits, related⟩ := start_of_checkFunction accepted agreeing
  have exits : ∀ h, LeavesAfter f h → ∃ c, Store.after final.classOf h x = some c ∧
      (¬ c.live → final.classOf c.type = .affine ∧ Spent final.classOf h x) := by
    rintro _ ⟨p₁, p₂, o, path, rfl⟩
    have fine := ((simulation final.classOf marked False).path admits
      (tests_ofFunction fun h : False => h.elim) related path).1
    exact (fine p₁ .leave p₂ rfl).2 x (marks.lent param borrowed lent)
  refine ⟨fun h hh => ?_, ?_⟩
  · obtain ⟨c, hc, hdead⟩ := exits h hh
    refine ⟨c, hc, live_iff_not_spent hc fun hd => (hdead hd).2, fun affine => ?_⟩
    exact Classical.not_not.mp fun hd => affine (hdead hd).1
  · rw [restoring_iff param (Elaboration.admits_of_checkFunction elaborated)]
    refine ⟨fun types h hh => ?_, fun types h c hh hc => ?_⟩
    · obtain ⟨c, hc, -⟩ := exits h hh
      exact ⟨c.type, reaching_of_after hc, types h c hh hc⟩
    · obtain ⟨t, ht, equal⟩ := types h hh
      cases ht.symm.trans (reaching_of_after hc)
      exact equal

/-! ## Functions that borrow -/

/-- Both checkers accept a function that borrows a value which may not be copied. -/
structure Borrows (T : SignatureTable) (d : Source.FunctionDef) (f : Function) (final : ClassMemo)
    (x : String) (t : Ty) : Prop where
  elaborated : ∃ memory, Elaboration.checkFunction T none d {} = .ok f memory
  accepted : checkFunction f {} = .ok [] final
  param : lastParam f.params x = some ⟨x, t, .borrowed⟩
  lent : final.classOf t ≠ .copyable

/-- Functions that take and make qubits and generators. -/
def lendingTable : SignatureTable where
  signatures := .ofList
    [("discard", ⟨"discard", {}, [⟨"q", .qubit, .owned⟩], .none, {}⟩),
      ("qubit", ⟨"qubit", {}, [], .qubit, {}⟩),
      ("rng", ⟨"rng", {}, [⟨"seed", .int, .borrowed⟩], .rng, {}⟩),
      ("sink", ⟨"sink", {}, [⟨"r", .rng, .owned⟩], .none, {}⟩)]

/-- Gives its qubit away in every iteration of a loop, holds a random number generator in its place,
    and takes a new qubit. -/
def renews : Source.FunctionDef where
  name := "renews"
  params := [⟨"q", .qubit, .borrowed⟩, ⟨"c", .bool, .borrowed⟩]
  result := none
  body :=
    [.whileLoop {} (.name {} "c")
      [.expr {} (.call {} "discard" [.name {} "q"]),
        .assign {} "q" (.call {} "rng" [.int {} 1]) none,
        .expr {} (.call {} "sink" [.name {} "q"]),
        .assign {} "q" (.call {} "qubit" []) none]]

/-- What `renews` is elaborated to. -/
def renewsTyped : Function where
  name := "renews"
  params := [⟨"q", .qubit, .borrowed⟩, ⟨"c", .bool, .borrowed⟩]
  result := .none
  body :=
    [.whileLoop {} (.name {} .bool "c" .read)
      [.expr {} (callOf "discard" .none [.owned] [.name {} .qubit "q" .consume]),
        .assign {} "q" (callOf "rng" .rng [.borrowed] [.int {} .int 1]),
        .expr {} (callOf "sink" .none [.owned] [.name {} .rng "q" .consume]),
        .assign {} "q" (callOf "qubit" .qubit [] [])]]

/-- One round of the loop of `renews`. -/
def renewsRound : List Action :=
  [.use ⟨"c", .read, some .bool⟩, .use ⟨"q", .consume, some .qubit⟩, .bind "q" .rng,
    .use ⟨"q", .consume, some .rng⟩, .bind "q" .qubit, .again]

theorem renews_leavesAfter : LeavesAfter renewsTyped (bindings renewsTyped.params ++
    (renewsRound ++ renewsRound ++ [.use ⟨"c", .read, some .bool⟩])) := by
  have path : (Control.ofFunction renewsTyped).Path _ .returned :=
    .seq (.seq (.loop (.snoc (.snoc .nil
      (.seq (.run ..) (.seq (.run ..) (.seq (.run ..) (.seq (.run ..) (.run ..))))) (.inl rfl))
      (.seq (.run ..) (.seq (.run ..) (.seq (.run ..) (.seq (.run ..) (.run ..))))) (.inl rfl))
      .done) (.run ..)) (.run ..)
  exact ⟨_, [], _, path, rfl⟩

/-- The classes of the types of `renews`. -/
def lendingClasses : ClassMemo where
  classes := .ofList [("bool", .copyable), ("int", .copyable), ("none", .copyable),
    ("qubit", .linear), ("rng", .affine)]

theorem renews_restores : (restoring renewsTyped.params (· = ⟨"q", .qubit, .borrowed⟩)).Admits
    (.ofFunction renewsTyped) (paramTypes renewsTyped.params) fun _ _ => True := by
  have restored := restored_paramTypes renewsTyped.params (· = ⟨"q", .qubit, .borrowed⟩)
  have rebound : ((paramTypes renewsTyped.params).bind "q" .rng).bind "q" .qubit =
      paramTypes renewsTyped.params :=
    (LocalTypes.bind_bind ..).trans (LocalTypes.bind_eq_self rfl)
  generalize renewsTyped.params = ps at restored rebound ⊢
  generalize paramTypes ps = E at restored rebound ⊢
  simp only [Control.ofFunction, renewsTyped, Control.ofBlock, Control.ofStmt, FlowAnalysis.Admits,
    Post.onNormal]
  refine ⟨E, E, E, restoring_evaluation.mpr rfl, rfl, .refl E,
    ⟨E, rfl, E, ⟨E, ⟨rfl, restored⟩, rfl⟩, trivial⟩, E, restoring_evaluation.mpr rfl,
    E.bind "q" .rng, ?_, E.bind "q" .rng, restoring_evaluation.mpr rfl, E, ?_, E, rfl,
    ⟨E, .refl E, .refl E⟩, .refl E⟩
  · exact (restoring_steps_uses _).mpr ⟨_, ⟨⟨_, Ty.equal_refl _, rfl⟩, trivial⟩, rfl⟩
  · exact (restoring_steps_uses _).mpr ⟨_, ⟨⟨_, Ty.equal_refl _, rebound.symm⟩, trivial⟩, rfl⟩

theorem linear_of_equal_qubit {t : Ty} (h : t.equal .qubit) :
    lendingClasses.classOf t = .linear := by
  obtain ⟨cls, rfl⟩ : ∃ cls, t = .prim "qubit" cls := by
    cases t <;> simp_all [Ty.equal, Ty.qubit]
  cases cls <;> cbv

theorem renews_gives_back :
    Borrows lendingTable renews renewsTyped lendingClasses "q" .qubit ∧
    Agreeing (joinsFunction renewsTyped {}) ∧
    LeavesAfter renewsTyped (bindings renewsTyped.params ++
      (renewsRound ++ renewsRound ++ [.use ⟨"c", .read, some .bool⟩])) ∧
    ∀ h, LeavesAfter renewsTyped h → ∃ c, Store.after lendingClasses.classOf h "q" = some c ∧
      c.live ∧ c.type.equal .qubit := by
  have borrows : Borrows lendingTable renews renewsTyped lendingClasses "q" .qubit :=
    ⟨⟨_, by cbv⟩, by cbv, rfl, by cbv; decide⟩
  have agreeing : Agreeing (joinsFunction renewsTyped {}) := agreeing_of_all (by cbv)
  obtain ⟨memory, elaborated⟩ := borrows.elaborated
  obtain ⟨exits, types⟩ := borrowed_parameter_at_exits elaborated borrows.accepted agreeing
    borrows.param rfl borrows.lent
  refine ⟨borrows, agreeing, renews_leavesAfter, fun h hh => ?_⟩
  obtain ⟨c, hc, -, live⟩ := exits h hh
  have equal := types.mpr renews_restores h c hh hc
  exact ⟨c, hc, live (by rw [linear_of_equal_qubit equal]; decide), equal⟩

/-- Gives its qubit away and holds a random number generator in its place. -/
def exchangesForGenerator : Source.FunctionDef where
  name := "exchangesForGenerator"
  params := [⟨"q", .qubit, .borrowed⟩]
  result := none
  body :=
    [.expr {} (.call {} "discard" [.name {} "q"]),
      .assign {} "q" (.call {} "rng" [.int {} 1]) none]

/-- What `exchangesForGenerator` is elaborated to. -/
def exchangesForGeneratorTyped : Function where
  name := "exchangesForGenerator"
  params := [⟨"q", .qubit, .borrowed⟩]
  result := .none
  body :=
    [.expr {} (callOf "discard" .none [.owned] [.name {} .qubit "q" .consume]),
      .assign {} "q" (callOf "rng" .rng [.borrowed] [.int {} .int 1])]

/-- Gives its random number generator away in every iteration of a loop that may also return, and
    takes a new one behind the loop. -/
def losesGenerator : Source.FunctionDef where
  name := "losesGenerator"
  params := [⟨"r", .rng, .borrowed⟩, ⟨"c", .bool, .borrowed⟩]
  result := none
  body :=
    [.whileLoop {} (.name {} "c")
        [.branch {} (.name {} "c") [.ret {} none] [],
          .expr {} (.call {} "sink" [.name {} "r"])],
      .assign {} "r" (.call {} "rng" [.int {} 1]) none]

/-- What `losesGenerator` is elaborated to. -/
def losesGeneratorTyped : Function where
  name := "losesGenerator"
  params := [⟨"r", .rng, .borrowed⟩, ⟨"c", .bool, .borrowed⟩]
  result := .none
  body :=
    [.whileLoop {} (.name {} .bool "c" .read)
        [.branch {} (.name {} .bool "c" .read) [.ret {} none] [],
          .expr {} (callOf "sink" .none [.owned] [.name {} .rng "r" .consume])],
      .assign {} "r" (callOf "rng" .rng [.borrowed] [.int {} .int 1])]

/-- A function that takes a value of any type. -/
def sinkAnyTable : SignatureTable where
  signatures := .ofList [("sink", ⟨"sink", { types := [⟨"U", false, false⟩] },
    [⟨"x", .var ⟨"U", false, false⟩, .owned⟩], .none, {}⟩)]

/-- Takes a value that may be copied for one that may not, on one of two paths. -/
def relabels : Source.FunctionDef where
  name := "relabels"
  generics := { types := [⟨"T", false, false⟩] }
  params := [⟨"q", .var ⟨"T", false, false⟩, .borrowed⟩, ⟨"p", .var ⟨"T", true, true⟩, .owned⟩,
    ⟨"c", .bool, .borrowed⟩]
  result := none
  body :=
    [.branch {} (.name {} "c")
        [.expr {} (.call {} "sink" [.name {} "q"]),
          .assign {} "q" (.name {} "p") (some (.var ⟨"T", false, false⟩))] [],
      .expr {} (.call {} "sink" [.name {} "q"])]

/-- What `relabels` is elaborated to. -/
def relabelsTyped : Function where
  name := "relabels"
  generics := { types := [⟨"T", false, false⟩] }
  params := [⟨"q", .var ⟨"T", false, false⟩, .borrowed⟩, ⟨"p", .var ⟨"T", true, true⟩, .owned⟩,
    ⟨"c", .bool, .borrowed⟩]
  result := .none
  body :=
    [.branch {} (.name {} .bool "c" .read)
        [.expr {} (sinkCall (.var ⟨"T", false, false⟩) "q"),
          .assign {} "q" (.name {} (.var ⟨"T", true, true⟩) "p" .read)] [],
      .expr {} (sinkCall (.var ⟨"T", false, false⟩) "q")]

/-- **A borrowed parameter may come back with a value of another type, or without a value.**  The
    first function leaves a random number generator where it was lent a qubit.  The second one
    returns in the second iteration of its loop, after it has given its random number generator
    away.  In the third one no loop goes round; but the checker goes on behind the branches with the
    class on one of them, and misses that the value on the other one is given away. -/
theorem borrowed_parameter_exchanged_or_lost :
    (∃ final,
      Borrows lendingTable exchangesForGenerator exchangesForGeneratorTyped final "q" .qubit ∧
      Agreeing (joinsFunction exchangesForGeneratorTyped {}) ∧
      ∃ h c, LeavesAfter exchangesForGeneratorTyped h ∧
        Store.after final.classOf h "q" = some c ∧ ¬ c.type.equal .qubit) ∧
    (∃ final, Borrows lendingTable losesGenerator losesGeneratorTyped final "r" .rng ∧
      Agreeing (joinsFunction losesGeneratorTyped {}) ∧
      ∃ h c, LeavesAfter losesGeneratorTyped h ∧
        Store.after final.classOf h "r" = some c ∧ ¬ c.live) ∧
    ∃ final, Borrows sinkAnyTable relabels relabelsTyped final "q" (.var ⟨"T", false, false⟩) ∧
      ∃ h c, LeavesAfter relabelsTyped h ∧ .again ∉ h ∧
        Store.after final.classOf h "q" = some c ∧ ¬ c.live := by
  refine ⟨⟨{ classes := .ofList [("int", .copyable), ("none", .copyable), ("qubit", .linear),
      ("rng", .affine)] }, ⟨⟨_, by cbv⟩, by cbv, rfl, by cbv; decide⟩, agreeing_of_all (by cbv), ?_⟩,
    ⟨sinkClasses, ⟨⟨_, by cbv⟩, by cbv, rfl, by cbv; decide⟩, agreeing_of_all (by cbv), ?_⟩,
    { classes := .ofList [("bool", .copyable), ("none", .copyable)] },
      ⟨⟨_, by cbv⟩, by cbv, rfl, by cbv; decide⟩, ?_⟩
  · have path : (Control.ofFunction exchangesForGeneratorTyped).Path _ .returned :=
      .seq (.seq (.run ..) (.seq (.run ..) (.run ..))) (.run ..)
    exact ⟨_, ⟨.rng, true⟩, ⟨_, [], _, path, rfl⟩, rfl, by decide⟩
  · have path : (Control.ofFunction losesGeneratorTyped).Path _ .returned :=
      .jump (.jump (.loop
        (.snoc .nil (.seq (.seq (.run ..) (.inr (.run ..))) (.seq (.run ..) (.run ..))) (.inl rfl))
        (.returned (.jump (.seq (.run ..) (.inl (.jump (.run ..) (by decide)))) (by decide))))
        (by decide)) (by decide)
    have affine : sinkClasses.classOf .rng = .affine := by cbv
    let tests : List Action := [.use ⟨"c", .read, some .bool⟩, .use ⟨"c", .read, some .bool⟩]
    refine ⟨_, ⟨.rng, false⟩, ⟨tests ++ [.use ⟨"r", .consume, some .rng⟩, .again] ++ tests, [], _,
      path, rfl⟩, ?_, Bool.false_ne_true⟩
    simp [tests, Store.after, Store.step, Cell.giveAway, bindings, losesGeneratorTyped, affine]
  · have path : (Control.ofFunction relabelsTyped).Path _ .returned :=
      .seq (.seq (.seq (.run ..) (.inr (.run ..))) (.seq (.run ..) (.run ..))) (.run ..)
    refine ⟨_, ⟨.var ⟨"T", false, false⟩, false⟩, ⟨[.use ⟨"c", .read, some .bool⟩,
      .use ⟨"q", .consume, some (.var ⟨"T", false, false⟩)⟩], [], _, path, rfl⟩,
      by simp [bindings], by cbv, Bool.false_ne_true⟩

end QuantumStatics.Consumption
