/-
  What loops make of what is done once.

  The checker looks at the test and at the body of a loop once, and at the end of an
  iteration it compares linear bindings only.  For an accepted function whose joined paths
  agree on classes, this is what the next iterations find.

  * `affine_value_gone_iff_spent`: a use misses an affine value exactly if the value went
    away before a loop went round and the name has not been bound since;
  * `retest_meets_gone_iff_consumes`: making the test of a loop again meets a linear value
    that is gone exactly if the test gives a linear value away; whatever the test does, it
    leaves the linear values as it did the first time.

  Both exceptions occur in functions that are elaborated and accepted: `affine_used_twice`
  and `linear_used_twice`.  So do others where joined paths do not agree on classes:
  `affine_used_twice_behind_branches` and `linear_met_gone_behind_branches`.
-/
import QuantumStatics.Elaboration.Definition
import QuantumStatics.Proofs.Consumption.Safety

namespace QuantumStatics.Consumption

open Execution Typed

/-! ## Affine values -/

/-- **An affine value is there until it is spent.**  On every execution of an accepted
    function, every used name is bound; and if it was given an affine value, the value is
    gone exactly if it went away before a loop went round, without a new one since. -/
theorem affine_value_gone_iff_spent {f : Function} {memo final : ClassMemo}
    {ws : List Diagnostic} (accepted : checkFunction f memo = .ok ws final)
    (agreeing : Agreeing (joinsFunction f memo)) (p : List Action) (o : Outcome)
    (path : (Control.ofFunction f).Path p o) :
    Fine (fun h a => ∀ u, a = .use u → ∃ c, Store.after final.classOf h u.name = some c ∧
        (final.classOf c.type = .affine → (¬ c.live ↔ Spent final.classOf h u.name)))
      (bindings f.params) p := by
  obtain ⟨F, marked, -, admits, related⟩ := start_of_checkFunction accepted agreeing
  let S := simulation final.classOf marked False
  have tests := tests_ofFunction (f := f) fun h : False => h.elim
  refine (S.path admits tests related path).1.mono ?_
  rintro h _ ok u rfl
  obtain ⟨c, hc, spent, -⟩ := ok
  refine ⟨c, hc, fun haff => ⟨fun hl => spent hl haff, fun hs => ?_⟩⟩
  obtain ⟨c', hc', hl⟩ := hs.dead
  cases hc.symm.trans hc'
  exact hl

/-- Makes a random number generator and gives it away in every iteration of a loop. -/
def sinksRepeatedly : Source.FunctionDef where
  name := "sinksRepeatedly"
  params := [⟨"c", .bool, .borrowed⟩]
  result := none
  body :=
    [.assign {} "r" (.call {} "rng" [.int {} 1]) none,
      .whileLoop {} (.name {} "c") [.expr {} (.call {} "sink" [.name {} "r"])]]

/-- The functions that `sinksRepeatedly` calls. -/
def sinkTable : SignatureTable where
  signatures := .ofList
    [("rng", ⟨"rng", {}, [⟨"seed", .int, .borrowed⟩], .rng, {}⟩),
      ("sink", ⟨"sink", {}, [⟨"r", .rng, .owned⟩], .none, {}⟩)]

/-- What `sinksRepeatedly` is elaborated to. -/
def sinksRepeatedlyTyped : Function where
  name := "sinksRepeatedly"
  params := [⟨"c", .bool, .borrowed⟩]
  result := .none
  body :=
    [.assign {} "r" (callOf "rng" .rng [.borrowed] [.int {} .int 1]),
      .whileLoop {} (.name {} .bool "c" .read)
        [.expr {} (callOf "sink" .none [.owned] [.name {} .rng "r" .consume])]]

/-- An execution of `sinksRepeatedly` that goes round twice. -/
def sinksTwice : List Action :=
  [.bind "r" .rng, .use ⟨"c", .read, some .bool⟩, .use ⟨"r", .consume, some .rng⟩, .again,
    .use ⟨"c", .read, some .bool⟩] ++ .use ⟨"r", .consume, some .rng⟩ ::
    [.again, .use ⟨"c", .read, some .bool⟩, .leave]

theorem path_sinksTwice : (Control.ofFunction sinksRepeatedlyTyped).Path sinksTwice .returned := by
  have path : (Control.ofFunction sinksRepeatedlyTyped).Path _ .returned :=
    .seq (.seq (.run ..) (.seq (.loop (.snoc (.snoc .nil (.seq (.run ..) (.run ..)) (.inl rfl))
      (.seq (.run ..) (.run ..)) (.inl rfl)) .done) (.run ..))) (.run ..)
  exact path

/-- The memory of classes after `sinksRepeatedly`. -/
def sinkClasses : ClassMemo where
  classes := .ofList [("bool", .copyable), ("int", .copyable), ("none", .copyable),
    ("rng", .affine)]

theorem checkFunction_sinksRepeatedly :
    checkFunction sinksRepeatedlyTyped {} = .ok [] sinkClasses := by
  cbv

theorem agreeing_sinksRepeatedly : Agreeing (joinsFunction sinksRepeatedlyTyped {}) :=
  agreeing_of_all (by cbv)

theorem sinksTwice_gone_iff_spent :
    checkFunction sinksRepeatedlyTyped {} = .ok [] sinkClasses ∧
    Agreeing (joinsFunction sinksRepeatedlyTyped {}) ∧
    (Control.ofFunction sinksRepeatedlyTyped).Path sinksTwice .returned ∧
    Fine (fun h a => ∀ u, a = .use u → ∃ c, Store.after sinkClasses.classOf h u.name = some c ∧
        (sinkClasses.classOf c.type = .affine →
          (¬ c.live ↔ Spent sinkClasses.classOf h u.name)))
      (bindings sinksRepeatedlyTyped.params) sinksTwice :=
  ⟨checkFunction_sinksRepeatedly, agreeing_sinksRepeatedly, path_sinksTwice,
    affine_value_gone_iff_spent checkFunction_sinksRepeatedly agreeing_sinksRepeatedly _ _
      path_sinksTwice⟩

/-- **An affine value may be used again after it is given away**, by a function that is
    elaborated and accepted. -/
theorem affine_used_twice :
    (∃ memory, Elaboration.checkFunction sinkTable none sinksRepeatedly {} =
      .ok sinksRepeatedlyTyped memory) ∧
    checkFunction sinksRepeatedlyTyped {} = .ok [] sinkClasses ∧
    ∃ p₁ u p₂ o c, (Control.ofFunction sinksRepeatedlyTyped).Path (p₁ ++ .use u :: p₂) o ∧
      Store.after sinkClasses.classOf (bindings sinksRepeatedlyTyped.params ++ p₁) u.name = some c ∧
      sinkClasses.classOf c.type = .affine ∧ ¬ c.live := by
  have affine : sinkClasses.classOf .rng = .affine := by cbv
  refine ⟨⟨{ memo := { classes := .ofList [("bool", .copyable), ("rng", .affine)] } }, by cbv⟩,
    checkFunction_sinksRepeatedly, _, _, _, _, ⟨.rng, false⟩, path_sinksTwice, ?_, affine,
    Bool.false_ne_true⟩
  simp [Store.after, Store.step, Cell.giveAway, bindings, sinksRepeatedlyTyped, affine]

/-- The parameters of a function that may hold `p` in place of `q`: their types have one name, but
    only values of the type of `p` may be copied. -/
def relabelParams (T : TypeParam) : List Param :=
  [⟨"q", .var T, .owned⟩, ⟨"p", .var ⟨T.name, true, true⟩, .owned⟩, ⟨"c", .bool, .borrowed⟩,
    ⟨"look", .fn [⟨.var T, .borrowed⟩] .bool {}, .borrowed⟩,
    ⟨"sink", .fn [⟨.var T, .owned⟩] .none {}, .borrowed⟩]

/-- Gives `q` away by calling a parameter. -/
def sinkParam (T : TypeParam) : Expr :=
  .call {} .none { callee := "sink", kind := .localValue, ownership := [.owned] }
    [.name {} (.var T) "q" .consume]

/-- Holds a value that may be copied in place of an affine one, on one of two paths, and gives it
    away twice. -/
def sinksRelabelled : Source.FunctionDef where
  name := "sinksRelabelled"
  generics := { types := [⟨"T", false, true⟩] }
  params := relabelParams ⟨"T", false, true⟩
  result := none
  body :=
    [.branch {} (.name {} "c")
        [.assign {} "q" (.name {} "p") (some (.var ⟨"T", false, true⟩))] [],
      .expr {} (.call {} "sink" [.name {} "q"]), .expr {} (.call {} "sink" [.name {} "q"])]

/-- What `sinksRelabelled` is elaborated to. -/
def sinksRelabelledTyped : Function where
  name := "sinksRelabelled"
  generics := { types := [⟨"T", false, true⟩] }
  params := relabelParams ⟨"T", false, true⟩
  result := .none
  body :=
    [.branch {} (.name {} .bool "c" .read)
        [.assign {} "q" (.name {} (.var ⟨"T", true, true⟩) "p" .read)] [],
      .expr {} (sinkParam ⟨"T", false, true⟩), .expr {} (sinkParam ⟨"T", false, true⟩)]

/-- **An affine value may be used again although no loop goes round**, where the joined paths do not
    agree on its class: behind the branches the checker goes on with the class on the first one. -/
theorem affine_used_twice_behind_branches :
    (∃ memory, Elaboration.checkFunction {} none sinksRelabelled {} =
      .ok sinksRelabelledTyped memory) ∧
    ¬ Agreeing (joinsFunction sinksRelabelledTyped {}) ∧
    ∃ final, checkFunction sinksRelabelledTyped {} = .ok [] final ∧
      ∃ p₁ u p₂ o c, (Control.ofFunction sinksRelabelledTyped).Path (p₁ ++ .use u :: p₂) o ∧
        .again ∉ p₁ ∧
        Store.after final.classOf (bindings sinksRelabelledTyped.params ++ p₁) u.name = some c ∧
        final.classOf c.type = .affine ∧ ¬ c.live := by
  have path : (Control.ofFunction sinksRelabelledTyped).Path _ .returned :=
    .seq (.seq (.seq (.run ..) (.inr (.run ..))) (.seq (.run ..) (.seq (.run ..) (.run ..))))
      (.run ..)
  refine ⟨⟨_, by cbv⟩, not_agreeing_of_any (by cbv),
    { classes := .ofList [("bool", .copyable), ("none", .copyable)] }, by cbv,
    [.use ⟨"c", .read, some .bool⟩, .use ⟨"sink", .read, none⟩,
      .use ⟨"q", .consume, some (.var ⟨"T", false, true⟩)⟩, .use ⟨"sink", .read, none⟩],
    _, _, _, ⟨.var ⟨"T", false, true⟩, false⟩, path, by simp, by cbv, by cbv, Bool.false_ne_true⟩

/-! ## Tests of loops -/

/-- The end of an iteration of a `while` loop of a function. -/
structure BackEdge (f : Function) where
  location : Location
  condition : Expr
  body : List Stmt
  /-- What is done before the loop is reached. -/
  before : List Action
  reached : (Control.ofFunction f).Reaches before (.ofStmt (.whileLoop location condition body))
  /-- The iterations before the last one. -/
  rounds : List Action
  isRounds : Control.Rounds (evaluation condition) [] (Control.ofBlock body).Path rounds
  /-- What the body does in the last iteration. -/
  last : List Action
  outcome : Outcome
  path : (Control.ofBlock body).Path last outcome
  ends : outcome.EndsRound

namespace BackEdge

variable {f : Function} (e : BackEdge f)

/-- What has been done when the loop is reached. -/
def atLoop : List Action := bindings f.params ++ e.before

/-- What has been done when the test has been made for the first time. -/
def tested : List Action := e.atLoop ++ evaluation e.condition

/-- What has been done when the loop goes round. -/
def atEdge : List Action :=
  e.atLoop ++ (e.rounds ++ (evaluation e.condition ++ [] ++ e.last)) ++ [.again]

/-- What has been done when the test has been made again. -/
def retested : List Action := e.atEdge ++ evaluation e.condition

end BackEdge

theorem related_of_backEdge {f : Function} {memo final : ClassMemo} {ws : List Diagnostic}
    (accepted : checkFunction f memo = .ok ws final) (agreeing : Agreeing (joinsFunction f memo))
    (e : BackEdge f) :
    ∃ borrowed X Y d d₁,
      (consumption final.classOf borrowed True).steps ((uses e.condition).map .use) d d₁ ∧
      Related final.classOf X d₁ d₁ e.tested ∧ Related final.classOf Y d d₁ e.atEdge := by
  obtain ⟨F, marked, -, admits, related⟩ := start_of_checkFunction accepted agreeing
  let S := simulation final.classOf marked False
  have tests := tests_ofFunction (f := f) fun h : False => h.elim
  obtain ⟨testsLoop, X, d, Q, admitsLoop, hd⟩ := S.reaches admits tests related e.reached
  obtain ⟨d₁, edge, hs, hagain, hedge⟩ :=
    S.backEdge admitsLoop testsLoop hd e.isRounds e.path e.ends
  exact ⟨marked, X, _, d, d₁, hs, (S.steps hs hd).2, hd.afterEdge hs hagain hedge⟩

section Uses

variable {κ : Ty → OwnershipClass} {borrowed X : String → Prop} {agree : Prop}
  {F F' G : Bindings} {h : List Action} {x : String}

theorem exists_consume_of_uses {us : List Use}
    (hs : (consumption κ borrowed agree).steps (us.map .use) F F') (hx : Defined F x)
    (hx' : ¬ Defined F' x) :
    ∃ us₁ v us₂, us = us₁ ++ v :: us₂ ∧ v.name = x ∧ v.kind = .consume := by
  induction us generalizing F with
  | nil => exact absurd (hs ▸ hx) hx'
  | cons u us ih =>
    obtain ⟨F₁, hu, hs⟩ := hs
    by_cases hx₁ : Defined F₁ x
    · obtain ⟨us₁, v, us₂, rfl, hv⟩ := ih hs hx₁
      exact ⟨u :: us₁, v, us₂, rfl, hv⟩
    · obtain ⟨b, hb, hd, rfl⟩ := hu
      split at hx₁
      · rename_i hc
        refine ⟨[], u, us, rfl, ?_, hc.1⟩
        by_contra hn
        refine hx₁ ?_
        unfold Defined
        rwa [Dict.get?_insert, if_neg (Ne.symm hn)]
      · exact absurd hx hx₁

theorem not_defined_of_consume {u : Use} {b : Binding} (hs : UseStep u F F')
    (hb : F.get? u.name = some b) (hk : u.kind = .consume) (hc : b.cls ≠ .copyable) :
    ¬ Defined F' u.name := by
  obtain ⟨b', hb', -, rfl⟩ := hs
  cases hb.symm.trans hb'
  rw [if_pos ⟨hk, hc⟩]
  rintro ⟨b', hb', hd⟩
  rw [Dict.get?_insert, if_pos rfl] at hb'
  cases hb'
  cases hd

namespace Related

theorem live_of_linear {Y : String → Prop} {h' : List Action} {c : Cell}
    (hr : Related κ X F F h) (hr' : Related κ Y F F h') (hc : Store.after κ h x = some c)
    (hlive : c.live) (hlin : κ c.type = .linear) : Live κ h' x := by
  obtain ⟨b, hb, hd, hcls⟩ := hr.linear hc hlive hlin
  obtain ⟨-, c', -, hc', -⟩ := hr'.settled (.inr ⟨b, hb, hd⟩)
  exact ⟨c', hc', hr'.live hb hd hcls hc'⟩

variable {us₁ us₂ : List Use} {u : Use} {c : Cell}

theorem not_consume_of_live (hr : Related κ X F G h)
    (hs : (consumption κ borrowed agree).steps ((us₁ ++ u :: us₂).map .use) F G)
    (hc : Store.after κ (h ++ us₁.map .use) u.name = some c) (hlin : κ c.type = .linear)
    (hlive : c.live) : u.kind ≠ .consume := by
  intro hk
  obtain ⟨F₁, F₂, -, hu, hs₂, hr₁⟩ := hr.atUse hs
  obtain ⟨b, hb, hd, -⟩ := id hu
  obtain ⟨b', c', hb', hc', hle⟩ := hr₁.settled (.inr ⟨b, hb, hd⟩)
  cases hb.symm.trans hb'
  cases hc.symm.trans hc'
  rw [hlin, OwnershipClass.linear_le_iff] at hle
  have gone : ¬ Defined F₂ u.name := not_defined_of_consume hu hb hk (by simp [hle])
  exact gone (defined_of_uses hs₂ (hr₁.accounted hc hlive hlin))

theorem exists_consume_of_gone (hr : Related κ X F G h)
    (hs : (consumption κ borrowed agree).steps ((us₁ ++ u :: us₂).map .use) F G)
    (hc : Store.after κ (h ++ us₁.map .use) u.name = some c) (hlin : κ c.type = .linear)
    (hgone : ¬ c.live) :
    ∃ vs₁ v vs₂ c', us₁ ++ u :: us₂ = vs₁ ++ v :: vs₂ ∧
      Store.after κ (h ++ vs₁.map .use) v.name = some c' ∧ κ c'.type = .linear ∧
      v.kind = .consume := by
  obtain ⟨F₁, F₂, -, hu, hs₂, hr₁⟩ := hr.atUse hs
  obtain ⟨b, hb, hd, -⟩ := id hu
  obtain ⟨b', c', hb', hc', hle⟩ := hr₁.settled (.inr ⟨b, hb, hd⟩)
  cases hb.symm.trans hb'
  cases hc.symm.trans hc'
  rw [hlin, OwnershipClass.linear_le_iff] at hle
  have hs₁ : (consumption κ borrowed agree).steps ((u :: us₂).map .use) F₁ G := ⟨F₂, hu, hs₂⟩
  -- If the test kept the binding, the value would be there.
  have undefined : ¬ Defined G u.name := by
    rintro ⟨bG, hbG, hdG⟩
    obtain ⟨bG', hbG', hcls⟩ := class_of_uses hs₁ hb
    cases hbG.symm.trans hbG'
    exact hgone (hr₁.live hbG hdG (hcls.trans hle) hc)
  obtain ⟨vs, v, vs₂, hvs, hv, hk⟩ := exists_consume_of_uses hs₁ ⟨b, hb, hd⟩ undefined
  obtain ⟨c', hc', ht⟩ := Store.type_after_uses vs hc
  exact ⟨us₁ ++ vs, v, vs₂, c', by simp [hvs], by simpa [hv] using hc', ht ▸ hlin, hk⟩

end Related

end Uses

/-- The test after a back edge uses `u` where its name holds `c`. -/
def BackEdge.Finds {f : Function} (e : BackEdge f) (κ : Ty → OwnershipClass) (u : Use) (c : Cell) :
    Prop :=
  ∃ us₁ us₂, uses e.condition = us₁ ++ u :: us₂ ∧
    Store.after κ (e.atEdge ++ us₁.map .use) u.name = some c

/-- **Making the test of a loop again.**  From the end of every iteration of an accepted
    function, the test uses bound names only and leaves the linear values as it did the first
    time.  It finds every linear value exactly if it gives no linear value away. -/
theorem retest_meets_gone_iff_consumes {f : Function} {memo final : ClassMemo}
    {ws : List Diagnostic} (accepted : checkFunction f memo = .ok ws final)
    (agreeing : Agreeing (joinsFunction f memo)) (e : BackEdge f) :
    (∀ us₁ u us₂, uses e.condition = us₁ ++ u :: us₂ →
      (Store.after final.classOf (e.atEdge ++ us₁.map .use) u.name).isSome) ∧
    (∀ x c, Store.after final.classOf e.tested x = some c → c.live →
      final.classOf c.type = .linear → Live final.classOf e.retested x) ∧
    (∀ x c, Store.after final.classOf e.retested x = some c → c.live →
      final.classOf c.type = .linear → Live final.classOf e.tested x) ∧
    ((∀ u c, e.Finds final.classOf u c → final.classOf c.type = .linear → c.live) ↔
      ∀ u c, e.Finds final.classOf u c → final.classOf c.type = .linear → u.kind ≠ .consume) := by
  obtain ⟨borrowed, X, Y, d, d₁, hs, first, edge⟩ := related_of_backEdge accepted agreeing e
  have second : Related final.classOf Y d₁ d₁ e.retested := edge.uses hs id
  refine ⟨fun us₁ u us₂ hus => ?_, fun x c => first.live_of_linear second,
    fun x c => second.live_of_linear first, fun found u c hf hlin => ?_,
    fun kept u c hf hlin => ?_⟩
  · rw [hus] at hs
    obtain ⟨F₁, F₂, -, ⟨b, hb, hd, -⟩, -, hr₁⟩ := edge.atUse hs
    obtain ⟨-, c, -, hc, -⟩ := hr₁.settled (.inr ⟨b, hb, hd⟩)
    exact Option.isSome_of_eq_some hc
  · obtain ⟨us₁, us₂, hus, hc⟩ := id hf
    rw [hus] at hs
    exact edge.not_consume_of_live hs hc hlin (found u c hf hlin)
  · obtain ⟨us₁, us₂, hus, hc⟩ := hf
    rw [hus] at hs
    by_contra hgone
    obtain ⟨vs₁, v, vs₂, c', hvs, hc', hlin', hk⟩ := edge.exists_consume_of_gone hs hc hlin hgone
    exact kept v c' ⟨vs₁, vs₂, hus.trans hvs, hc'⟩ hlin' hk

/-- Measures a qubit in the test of a loop. -/
def measuresUntilFalse : Source.FunctionDef where
  name := "measuresUntilFalse"
  params := [⟨"q", .qubit, .owned⟩]
  result := none
  body := [.whileLoop {} (.call {} "measure" [.name {} "q"]) []]

/-- The function that `measuresUntilFalse` calls. -/
def measureTable : SignatureTable where
  signatures := .ofList [("measure", ⟨"measure", {}, [⟨"q", .qubit, .owned⟩], .bool, {}⟩)]

/-- What `measuresUntilFalse` is elaborated to. -/
def measuresUntilFalseTyped : Function where
  name := "measuresUntilFalse"
  params := [⟨"q", .qubit, .owned⟩]
  result := .none
  body := [.whileLoop {} (callOf "measure" .bool [.owned] [.name {} .qubit "q" .consume]) []]

/-- The end of the first iteration of `measuresUntilFalse`. -/
def firstMeasurement : BackEdge measuresUntilFalseTyped where
  location := {}
  condition := callOf "measure" .bool [.owned] [.name {} .qubit "q" .consume]
  body := []
  before := []
  reached := .first (.first .here)
  rounds := []
  isRounds := .nil
  last := []
  outcome := .normal
  path := .run ..
  ends := .inl rfl

/-- The memory of classes after `measuresUntilFalse`. -/
def measureClasses : ClassMemo where
  classes := .ofList [("qubit", .linear)]

theorem checkFunction_measuresUntilFalse :
    checkFunction measuresUntilFalseTyped {} = .ok [] measureClasses := by
  cbv

theorem agreeing_measuresUntilFalse : Agreeing (joinsFunction measuresUntilFalseTyped {}) :=
  agreeing_of_all (by cbv)

theorem firstMeasurement_retest :
    checkFunction measuresUntilFalseTyped {} = .ok [] measureClasses ∧
    Agreeing (joinsFunction measuresUntilFalseTyped {}) ∧
    (Store.after measureClasses.classOf firstMeasurement.atEdge "q").isSome ∧
    ((∀ u c, firstMeasurement.Finds measureClasses.classOf u c →
        measureClasses.classOf c.type = .linear → c.live) ↔
      ∀ u c, firstMeasurement.Finds measureClasses.classOf u c →
        measureClasses.classOf c.type = .linear → u.kind ≠ .consume) := by
  obtain ⟨bound, -, -, found⟩ := retest_meets_gone_iff_consumes checkFunction_measuresUntilFalse
    agreeing_measuresUntilFalse firstMeasurement
  refine ⟨checkFunction_measuresUntilFalse, agreeing_measuresUntilFalse, ?_, found⟩
  simpa using bound [] ⟨"q", .consume, some .qubit⟩ [] rfl

/-- **Making a test again may meet a linear value that is gone**, in a function that is
    elaborated and accepted. -/
theorem linear_used_twice :
    (∃ memory, Elaboration.checkFunction measureTable none measuresUntilFalse {} =
      .ok measuresUntilFalseTyped memory) ∧
    checkFunction measuresUntilFalseTyped {} = .ok [] measureClasses ∧
    ∃ u c, firstMeasurement.Finds measureClasses.classOf u c ∧
      measureClasses.classOf c.type = .linear ∧ ¬ c.live := by
  have linear : measureClasses.classOf .qubit = .linear := by cbv
  refine ⟨⟨{ memo := measureClasses }, by cbv⟩, checkFunction_measuresUntilFalse,
    ⟨"q", .consume, some .qubit⟩, ⟨.qubit, false⟩, ⟨[], [], rfl, ?_⟩, linear,
    Bool.false_ne_true⟩
  simp [BackEdge.atEdge, BackEdge.atLoop, firstMeasurement, measuresUntilFalseTyped, bindings,
    callOf, evaluation, uses, calleeUses, usesAll, Store.after, Store.step, Cell.giveAway, linear]

/-- Looks at `q` by calling a parameter. -/
def lookParam (T : TypeParam) : Expr :=
  .call {} .bool { callee := "look", kind := .localValue, ownership := [.borrowed] }
    [.name {} (.var T) "q" .borrow]

/-- Holds a value that may be copied in place of a linear one, on one of two paths, and gives it
    away in the iterations of a loop whose test looks at it. -/
def sinksWhileLooking : Source.FunctionDef where
  name := "sinksWhileLooking"
  generics := { types := [⟨"T", false, false⟩] }
  params := relabelParams ⟨"T", false, false⟩
  result := none
  body :=
    [.branch {} (.name {} "c")
        [.expr {} (.call {} "sink" [.name {} "q"]),
          .assign {} "q" (.name {} "p") (some (.var ⟨"T", false, false⟩))] [],
      .whileLoop {} (.call {} "look" [.name {} "q"]) [.expr {} (.call {} "sink" [.name {} "q"])]]

/-- The branches at the beginning of `sinksWhileLooking`. -/
def relabelsLinear : Stmt :=
  .branch {} (.name {} .bool "c" .read)
    [.expr {} (sinkParam ⟨"T", false, false⟩),
      .assign {} "q" (.name {} (.var ⟨"T", true, true⟩) "p" .read)] []

/-- What `sinksWhileLooking` is elaborated to. -/
def sinksWhileLookingTyped : Function where
  name := "sinksWhileLooking"
  generics := { types := [⟨"T", false, false⟩] }
  params := relabelParams ⟨"T", false, false⟩
  result := .none
  body :=
    [relabelsLinear,
      .whileLoop {} (lookParam ⟨"T", false, false⟩) [.expr {} (sinkParam ⟨"T", false, false⟩)]]

theorem path_relabelsLinear :
    (Control.ofStmt relabelsLinear).Path [.use ⟨"c", .read, some .bool⟩] .normal := by
  have path : (Control.ofStmt relabelsLinear).Path _ .normal := .seq (.run ..) (.inr (.run ..))
  exact path

/-- The end of the first iteration of `sinksWhileLooking`, with the value it was given. -/
def firstSinking : BackEdge sinksWhileLookingTyped where
  location := {}
  condition := lookParam ⟨"T", false, false⟩
  body := [.expr {} (sinkParam ⟨"T", false, false⟩)]
  before := [.use ⟨"c", .read, some .bool⟩]
  reached := .first (.second path_relabelsLinear (.first .here))
  rounds := []
  isRounds := .nil
  last := [.use ⟨"sink", .read, none⟩, .use ⟨"q", .consume, some (.var ⟨"T", false, false⟩)⟩]
  outcome := .normal
  path := .seq (.run ..) (.run ..)
  ends := .inl rfl

/-- **Making a test again may meet a linear value that is gone although the test gives nothing
    away**, where the joined paths before the loop do not agree on its class. -/
theorem linear_met_gone_behind_branches :
    (∃ memory, Elaboration.checkFunction {} none sinksWhileLooking {} =
      .ok sinksWhileLookingTyped memory) ∧
    ¬ Agreeing (joinsFunction sinksWhileLookingTyped {}) ∧
    (∀ u ∈ uses firstSinking.condition, u.kind ≠ .consume) ∧
    ∃ final, checkFunction sinksWhileLookingTyped {} = .ok [] final ∧
      ∃ u c, firstSinking.Finds final.classOf u c ∧ final.classOf c.type = .linear ∧ ¬ c.live := by
  refine ⟨⟨_, by cbv⟩, not_agreeing_of_any (by cbv), by decide,
    { classes := .ofList [("bool", .copyable), ("none", .copyable)] }, by cbv,
    ⟨"q", .borrow, some (.var ⟨"T", false, false⟩)⟩, ⟨.var ⟨"T", false, false⟩, false⟩,
    ⟨[⟨"look", .read, none⟩], [], rfl, by cbv⟩, by cbv, Bool.false_ne_true⟩

end QuantumStatics.Consumption
