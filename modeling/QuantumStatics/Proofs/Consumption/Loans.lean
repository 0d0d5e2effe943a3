/-
  Loans and the evaluation of the other arguments.

  The arguments of a call are evaluated in order, and the callee runs when all of them have been.
  What an argument lends should be there until then.  The analysis compares the linear bindings
  that the arguments of a call are places of, but does not look into the arguments for them.

  * `defined_of_lent`: a binding is defined where an argument that lends it has been evaluated;
  * `defined_iff_of_uses`: it is defined behind some uses exactly if none of them gives it away;
  * `loan_kept_iff_not_consumed`: what is lent is there when the callee runs exactly if no later
    argument gives it away, and no later argument is itself a place of a linear binding that is
    lent, but for copies.

  A later argument may give away what is lent: `lent_qubit_measured`.
-/
import QuantumStatics.Proofs.Consumption.Calls
import QuantumStatics.Proofs.Consumption.Repetition
import QuantumStatics.Proofs.Elaboration.BodyAccounts

namespace QuantumStatics.Consumption

open Execution Typed

/-! ## Uses -/

section Uses

variable {κ : Ty → OwnershipClass} {borrowed : String → Prop} {agree : Prop} {F F' : Bindings}
  {x : String} {b : Binding} {e : Expr} {st st₁ : FlowState}

/-- Between two states the checker has only made some uses. -/
abbrev Used (us : List Use) : FlowState → FlowState → Prop :=
  Traced (fun _ => False) True (us.map .use)

theorem used_of_evaluate (h : evaluate e st = .ok () st₁) : Used (uses e) st st₁ :=
  evaluate_traces e _ _ _ h

theorem used_of_evaluateArgs {callee : String} {roots : List String} {ownership : List Ownership}
    {args : List Expr} (h : evaluateArgs callee roots ownership args st = .ok () st₁) :
    Used (usesAll args) st st₁ :=
  evaluateArgs_traces callee roots ownership args _ _ _ h

theorem defined_iff_of_uses {us : List Use}
    (hs : (consumption κ borrowed agree).steps (us.map .use) F F') (hb : F.get? x = some b)
    (hd : b.state = .defined) (hc : b.cls ≠ .copyable) :
    Defined F' x ↔ ∀ u ∈ us, u.name = x → u.kind ≠ .consume := by
  constructor
  · rintro hx u hu rfl hk
    obtain ⟨us₁, us₂, rfl⟩ := List.append_of_mem hu
    rw [List.map_append, FlowAnalysis.steps_append] at hs
    obtain ⟨F₁, hs₁, F₂, hstep, hs₂⟩ := hs
    obtain ⟨b₁, hb₁, hcls⟩ := class_of_uses hs₁ hb
    exact not_defined_of_consume hstep hb₁ hk (hcls ▸ hc) (defined_of_uses hs₂ hx)
  · intro kept
    by_contra hx
    obtain ⟨us₁, u, us₂, rfl, hu, hk⟩ := exists_consume_of_uses hs ⟨b, hb, hd⟩ hx
    exact kept u (List.mem_append_right _ (List.mem_cons_self ..)) hu hk

theorem uses_of_root (hx : e.root? = some x) (hu : e.use? ≠ some .consume) :
    ∃ us u, uses e = us ++ [u] ∧ u.name = x ∧ u.kind ≠ .consume := by
  have kind {use : UseKind} (h : use ≠ .consume) :
      (if use = .consume then use else .borrow) ≠ .consume := by simp [h]
  cases e with
  | name location t n use =>
    cases hx
    exact ⟨[], _, rfl, rfl, fun h => hu (congrArg some h)⟩
  | field location t object label index use =>
    obtain ⟨t', hbase⟩ := baseUses_of_root (e := object) use hx
    exact ⟨indexUses object, _, by rw [uses, hbase], rfl, kind fun h => hu (congrArg some h)⟩
  | subscript location t indexed index use =>
    obtain ⟨t', hbase⟩ := baseUses_of_root (e := indexed) use hx
    exact ⟨indexUses indexed ++ uses index, _, by rw [uses, hbase], rfl,
      kind fun h => hu (congrArg some h)⟩
  | _ => cases hx

theorem defined_of_lent (h : evaluate e st = .ok () st₁) (hx : e.root? = some x)
    (hu : e.use? ≠ some .consume) : Defined st₁.flow.bindings x := by
  obtain ⟨us, u, hus, rfl, hk⟩ := uses_of_root hx hu
  have hs := (used_of_evaluate h).steps _ (.refl _)
  rw [hus, List.map_append, FlowAnalysis.steps_append] at hs
  obtain ⟨F, -, F', ⟨b, hb, hd, hF⟩, rfl⟩ := hs
  rw [if_neg fun h => hk h.1] at hF
  exact ⟨b, hF ▸ hb, hd⟩

end Uses

/-! ## Arguments -/

section Arguments

variable {st st₁ : FlowState} {callee x : String} {roots roots' : List String}
  {ownership : List Ownership} {o : Ownership} {arg a : Expr} {b : Binding} {i : Nat}
  {args : List Expr}

theorem checkArg_remembers : Returns (roots ⊆ ·) (Follow.checkArg callee roots o arg) := by
  have same : Returns (roots ⊆ ·) (pure roots : Follow _) := .pure (List.Subset.refl _)
  unfold Follow.checkArg
  split
  · refine Returns.after fun b? => ?_
    split
    · split
      · exact same
      · refine Returns.after fun c => ?_
        split
        · exact same
        · exact .guard (.pure (List.subset_cons_self ..))
    · exact same
  · split
    · exact Returns.after fun c => .guard same
    · exact same

theorem checkArg_linear {root : String} (h : Follow.checkArg callee roots o arg st = .ok roots' st₁)
    (hr : arg.root? = some root) (hb : st.flow.bindings.get? root = some b) (hc : b.cls = .linear) :
    ∃ c, Follow.classify arg.type st = .ok c st₁ ∧
      (c ≠ .copyable → root ∉ roots ∧ root ∈ roots') := by
  unfold Follow.checkArg at h
  rw [hr] at h
  obtain ⟨b?, s, hs, h⟩ := bind_eq_ok.mp h
  obtain ⟨rfl, rfl⟩ := binding?_eq_ok hs
  simp only [hb] at h
  rw [if_neg (not_not.mpr hc)] at h
  obtain ⟨c, s₁, hclass, h⟩ := bind_eq_ok.mp h
  split at h
  · rename_i hcopy
    obtain ⟨-, rfl⟩ := pure_eq_ok.mp h
    exact ⟨c, hclass, fun h => absurd hcopy h⟩
  · split at h
    · obtain ⟨_, _, h, -⟩ := bind_eq_ok.mp h
      exact absurd h reject_ne_ok
    · rename_i hnew
      obtain ⟨rfl, rfl⟩ := pure_eq_ok.mp h
      exact ⟨c, hclass, fun _ => ⟨by simpa using hnew, List.mem_cons_self ..⟩⟩

/-- **The analysis goes through the arguments in order**: up to an argument, through the check of
    this argument and its evaluation, and through those behind it. -/
theorem evaluateArgs_at (h : evaluateArgs callee roots ownership args st = .ok () st₁)
    (ha : args[i]? = some a) :
    ∃ roots₁ roots₂ s₁ s₂ s₃, roots ⊆ roots₁ ∧
      Used (usesAll (args.take i)) st s₁ ∧
      Follow.checkArg callee roots₁ ((ownership.drop i).headD .borrowed) a s₁ = .ok roots₂ s₂ ∧
      evaluate a s₂ = .ok () s₃ ∧
      evaluateArgs callee roots₂ (ownership.drop (i + 1)) (args.drop (i + 1)) s₃ = .ok () st₁ := by
  induction i generalizing args roots ownership st with
  | zero =>
    cases args with
    | nil => cases ha
    | cons e es =>
      cases ha
      rw [evaluateArgs] at h
      obtain ⟨roots₂, s₂, hroots, h⟩ := bind_eq_ok.mp h
      obtain ⟨_, s₃, he, h⟩ := bind_eq_ok.mp h
      refine ⟨roots, roots₂, st, s₂, s₃, List.Subset.refl _, .refl st, hroots, he, ?_⟩
      rwa [List.drop_one]
  | succ i ih =>
    cases args with
    | nil => cases ha
    | cons e es =>
      rw [evaluateArgs] at h
      obtain ⟨roots₂, s₂, hroots, h⟩ := bind_eq_ok.mp h
      obtain ⟨_, s₃, he, h⟩ := bind_eq_ok.mp h
      obtain ⟨roots₁, roots₃, t₁, t₂, t₃, sub, traced, hcheck, hev, hrest⟩ := ih h ha
      have remembered : roots ⊆ roots₁ :=
        List.Subset.trans (checkArg_remembers _ _ _ hroots) sub
      refine ⟨roots₁, roots₃, t₁, t₂, t₃, remembered, ?_, ?_, hev, ?_⟩
      · rw [List.take_succ_cons, usesAll, Used, List.map_append]
        exact (checkArg_traces _ _ _ hroots).trans ((evaluate_traces e _ _ _ he).trans traced)
      · rwa [List.drop_tail] at hcheck
      · rwa [List.drop_tail] at hrest

/-- What a place of a linear binding that is passed to a call leaves to the later arguments: they
    are no places of the binding, but for copies. -/
theorem copyable_of_later {a' : Expr} (h : evaluateArgs callee roots ownership args st = .ok () st₁)
    (hx : x ∈ roots) (hb : st.flow.bindings.get? x = some b) (hc : b.cls = .linear) (ha : a' ∈ args)
    (hr : a'.root? = some x) : st₁.memo.classOf a'.type = .copyable := by
  obtain ⟨j, hj⟩ := List.mem_iff_getElem?.mp ha
  obtain ⟨roots₁, roots₂, s₁, s₂, s₃, sub, traced, hcheck, he, hrest⟩ :=
    evaluateArgs_at h hj
  obtain ⟨b₁, hb₁, hcls⟩ := class_of_uses (traced.steps _ (.refl _)) hb
  obtain ⟨c, hclass, first⟩ := checkArg_linear hcheck hr hb₁ (hcls.trans hc)
  have copy : c = .copyable := by
    by_contra hne
    exact (first hne).1 (sub hx)
  have le := classOf_le_of_classify hclass
    ((used_of_evaluate he).memo.trans (used_of_evaluateArgs hrest).memo)
  rwa [copy, OwnershipClass.le_copyable_iff] at le

/-- **What an argument lends is there when all arguments have been evaluated exactly if no later
    one gives it away.**  A later argument that is itself a place of a linear binding that is lent
    copies. -/
theorem lent_of_evaluateArgs (h : evaluateArgs callee roots ownership args st = .ok () st₁)
    (passed : Passed ownership args) (ho : ownership[i]? = some .borrowed) (ha : args[i]? = some a)
    (hx : a.root? = some x) :
    ∃ b, st₁.flow.bindings.get? x = some b ∧
      (b.cls ≠ .copyable → (b.state = .defined ↔
        ∀ u ∈ usesAll (args.drop (i + 1)), u.name = x → u.kind ≠ .consume)) ∧
      (b.cls = .linear → st₁.memo.classOf a.type ≠ .copyable → ∀ a' ∈ args.drop (i + 1),
        a'.root? = some x → st₁.memo.classOf a'.type = .copyable) := by
  have hu : a.use? ≠ some .consume := by
    obtain ⟨hi, rfl⟩ := List.getElem?_eq_some_iff.mp ha
    obtain ⟨hi', ho⟩ := List.getElem?_eq_some_iff.mp ho
    exact passed.get hi' hi ho
  obtain ⟨roots₁, roots₂, s₁, s₂, s₃, -, -, hcheck, he, hrest⟩ := evaluateArgs_at h ha
  obtain ⟨b₃, hb₃, hd₃⟩ := defined_of_lent he hx hu
  have later := used_of_evaluateArgs hrest
  have behind := later.steps _ (.refl _)
  obtain ⟨b, hb, hcls⟩ := class_of_uses behind hb₃
  refine ⟨b, hb, fun hc => ?_, fun hlin hne a' ha' hr => ?_⟩
  · rw [← defined_iff_of_uses behind hb₃ hd₃ (hcls ▸ hc)]
    exact ⟨fun hd => ⟨b, hb, hd⟩, fun ⟨b', hb', hd⟩ => Option.some.inj (hb'.symm.trans hb) ▸ hd⟩
  · -- The binding has been remembered where the argument was checked.
    have used := used_of_evaluate he
    obtain ⟨b₂, hb₂, -⟩ := defined_of_uses (used.steps _ (.refl _)) ⟨b₃, hb₃, hd₃⟩
    obtain ⟨b', hb', hcls₂⟩ := class_of_uses (used.steps _ (.refl _)) hb₂
    cases hb₃.symm.trans hb'
    have checked : Used [] s₁ s₂ := checkArg_traces _ _ _ hcheck
    have hb₁ : s₁.flow.bindings.get? x = some b₂ := by
      rw [show s₁.flow.bindings = s₂.flow.bindings from checked.steps _ (.refl _)]
      exact hb₂
    have hlin₃ : b₃.cls = .linear := hcls.symm.trans hlin
    obtain ⟨c, hclass, first⟩ := checkArg_linear hcheck hx hb₁ (hcls₂.symm.trans hlin₃)
    have le := classOf_le_of_classify hclass (used.memo.trans later.memo)
    have hc : c ≠ .copyable := by
      rintro rfl
      exact hne (OwnershipClass.le_copyable_iff.mp le)
    exact copyable_of_later hrest (first hc).2 hb₃ hlin₃ ha' hr

end Arguments

/-! ## Loans of a function -/

/-- An argument of a call lends a binding: it is a place of the binding, and its parameter
    borrows. -/
def CallSite.Lends (k : CallSite) (i : Nat) (a : Expr) (x : String) : Prop :=
  k.target.ownership[i]? = some .borrowed ∧ k.args[i]? = some a ∧ a.root? = some x

/-- **Loans and later arguments.**  In every expression that the analysis of an elaborated and
    accepted function evaluates, it comes to every call, and the arguments of every call that it
    comes to evaluate.  Then every binding that an argument lends is bound.  If it cannot be
    copied, it is defined exactly if no later argument gives it away, however deep within; and if
    it is linear and a part of it that cannot be copied is lent, the later arguments that are
    places of it are copies. -/
theorem loan_kept_iff_not_consumed {T : SignatureTable} {owner : Option StructDecl}
    {d : Source.FunctionDef} {f : Function} {memory memory' : Elaboration.CheckerMemory}
    {memo final : ClassMemo} {ws : List Diagnostic}
    (elaborated : Elaboration.checkFunction T owner d memory = .ok f memory')
    (accepted : checkFunction f memo = .ok ws final) (e : Expr) (s : FlowState)
    (evaluated : (e, s) ∈ evaluationsFunction f memo) :
    (∀ location t target args, .call location t target args ∈ e.nodes →
      ∃ k ∈ calls e s, k.target = target ∧ k.args = args) ∧
    ∀ k ∈ calls e s, ∃ after, k.evaluateArgs = .ok () after ∧
      k.target.ownership.length = k.args.length ∧
      ∀ i a x, k.Lends i a x → ∃ b, after.flow.bindings.get? x = some b ∧
        (b.cls ≠ .copyable → (b.state = .defined ↔
          ∀ u ∈ usesAll (k.args.drop (i + 1)), u.name = x → u.kind ≠ .consume)) ∧
        (b.cls = .linear → after.memo.classOf a.type ≠ .copyable →
          ∀ a' ∈ k.args.drop (i + 1), a'.root? = some x →
            after.memo.classOf a'.type = .copyable) := by
  obtain ⟨within, s₁, run⟩ := evaluated_of_checkFunction accepted _ evaluated
  have visits := evaluate_visits e run
  refine ⟨fun _ _ _ _ => visits.complete, fun k hk => ?_⟩
  obtain ⟨location, t, node⟩ := visits.node k hk
  obtain ⟨after, hargs⟩ := visits.evaluates k hk
  have passed : Passed k.target.ownership k.args :=
    Elaboration.passes_of_checkFunction elaborated _ (within node)
  refine ⟨after, hargs, passed.length_eq, ?_⟩
  rintro i a x ⟨ho, ha, hx⟩
  exact lent_of_evaluateArgs hargs passed ho ha hx

/-- Lends the qubit `q` to `use` while a qubit is measured for the other argument. -/
def lendsWhileMeasuring (params : List Param) (measured : String) (rest : List Source.Stmt) :
    Source.FunctionDef where
  name := "lendsWhileMeasuring"
  params
  result := none
  body := .expr {} (.call {} "use" [.name {} "q", .call {} "measure" [.name {} measured]]) :: rest

/-- The functions that `lendsWhileMeasuring` calls. -/
def loanTable : SignatureTable where
  signatures := .ofList
    [("measure", ⟨"measure", {}, [⟨"q", .qubit, .owned⟩], .bool, {}⟩),
      ("use", ⟨"use", {}, [⟨"a", .qubit, .borrowed⟩, ⟨"b", .bool, .owned⟩], .none, {}⟩)]

/-- Measures a qubit. -/
def measurement (measured : String) : Expr :=
  callOf "measure" .bool [.owned] [.name {} .qubit measured .consume]

/-- The arguments of `use`: a loan and a measurement. -/
def loanArgs (measured : String) : List Expr := [.name {} .qubit "q" .borrow, measurement measured]

/-- The call of `use`. -/
def loanCall (measured : String) : Expr :=
  callOf "use" .none [.borrowed, .owned] (loanArgs measured)

/-- What `lendsWhileMeasuring` is elaborated to. -/
def lendsWhileMeasuringTyped (params : List Param) (measured : String) (rest : List Stmt) :
    Function where
  name := "lendsWhileMeasuring"
  params
  result := .none
  body := .expr {} (loanCall measured) :: rest

/-- A state in which only qubits are bound. -/
def qubitStates (qubits : List (String × BindingState)) : FlowState where
  memo := { classes := .ofList [("qubit", .linear)] }
  flow := { bindings := .ofList (qubits.map fun q => (q.1, { state := q.2, cls := .linear })) }

/-- The call of `use` where all qubits are there. -/
def loanSite (measured : String) (qubits : List String) : CallSite where
  target := { callee := "use", kind := .function, ownership := [.borrowed, .owned] }
  args := loanArgs measured
  before := qubitStates (qubits.map (·, .defined))

theorem loanSite_lends (measured : String) (qubits : List String) :
    (loanSite measured qubits).Lends 0 (.name {} .qubit "q" .borrow) "q" :=
  ⟨rfl, rfl, rfl⟩

/-- Lends `q` while `r` is measured, and measures `q` afterwards. -/
def measuresOther : Source.FunctionDef :=
  lendsWhileMeasuring [⟨"q", .qubit, .owned⟩, ⟨"r", .qubit, .owned⟩] "r"
    [.expr {} (.call {} "measure" [.name {} "q"])]

/-- What `measuresOther` is elaborated to. -/
def measuresOtherTyped : Function :=
  lendsWhileMeasuringTyped [⟨"q", .qubit, .owned⟩, ⟨"r", .qubit, .owned⟩] "r"
    [.expr {} (measurement "q")]

/-- The memory of classes after `measuresOther`. -/
def loanClasses : ClassMemo where
  classes := .ofList [("bool", .copyable), ("none", .copyable), ("qubit", .linear)]

theorem lent_qubit_kept :
    (∃ memory, Elaboration.checkFunction loanTable none measuresOther {} =
      .ok measuresOtherTyped memory) ∧
    checkFunction measuresOtherTyped {} = .ok [] loanClasses ∧
    (loanCall "r", (loanSite "r" ["q", "r"]).before) ∈ evaluationsFunction measuresOtherTyped {} ∧
    loanSite "r" ["q", "r"] ∈ calls (loanCall "r") (loanSite "r" ["q", "r"]).before ∧
    (loanSite "r" ["q", "r"]).Lends 0 (.name {} .qubit "q" .borrow) "q" ∧
    ∃ after b, (loanSite "r" ["q", "r"]).evaluateArgs = .ok () after ∧
      after.flow.bindings.get? "q" = some b ∧ b.cls = .linear ∧ b.state = .defined := by
  have elaborated : Elaboration.checkFunction loanTable none measuresOther {} =
      .ok measuresOtherTyped { memo := { classes := .ofList [("qubit", .linear)] } } := by cbv
  have accepted : checkFunction measuresOtherTyped {} = .ok [] loanClasses := by cbv
  have evaluated : (loanCall "r", (loanSite "r" ["q", "r"]).before) ∈
      evaluationsFunction measuresOtherTyped {} := by
    have first : (evaluationsFunction measuresOtherTyped {}).head? =
        some (loanCall "r", (loanSite "r" ["q", "r"]).before) := by cbv
    exact List.mem_of_mem_head? first
  have site : loanSite "r" ["q", "r"] ∈ calls (loanCall "r") (loanSite "r" ["q", "r"]).before :=
    List.mem_cons_self ..
  obtain ⟨-, sites⟩ := loan_kept_iff_not_consumed elaborated accepted _ _ evaluated
  obtain ⟨after, run, -, lent⟩ := sites _ site
  obtain ⟨b, hb, kept, -⟩ := lent 0 _ "q" (loanSite_lends "r" ["q", "r"])
  have measured : (loanSite "r" ["q", "r"]).evaluateArgs =
      .ok () (qubitStates [("q", .defined), ("r", .consumed)]) := by cbv
  have linear : b.cls = .linear := by
    cases run.symm.trans measured
    cases hb
    rfl
  refine ⟨⟨_, elaborated⟩, accepted, evaluated, site, loanSite_lends .., after, b, run, hb, linear,
    (kept (by simp [linear])).mpr ?_⟩
  simp [loanSite, loanArgs, measurement, callOf, usesAll, uses, calleeUses]

/-- Measures the qubit that it lends. -/
def measuresLent : Source.FunctionDef := lendsWhileMeasuring [⟨"q", .qubit, .owned⟩] "q" []

/-- What `measuresLent` is elaborated to. -/
def measuresLentTyped : Function := lendsWhileMeasuringTyped [⟨"q", .qubit, .owned⟩] "q" []

/-- **A later argument may give away what is lent**, in a function that is elaborated and
    accepted: a qubit that is lent has been measured when the callee runs. -/
theorem lent_qubit_measured :
    (∃ memory, Elaboration.checkFunction loanTable none measuresLent {} =
      .ok measuresLentTyped memory) ∧
    (∃ final, checkFunction measuresLentTyped {} = .ok [] final) ∧
    evaluationsFunction measuresLentTyped {} = [(loanCall "q", (loanSite "q" ["q"]).before)] ∧
    loanSite "q" ["q"] ∈ calls (loanCall "q") (loanSite "q" ["q"]).before ∧
    (loanSite "q" ["q"]).Lends 0 (.name {} .qubit "q" .borrow) "q" ∧
    ∃ after b, (loanSite "q" ["q"]).evaluateArgs = .ok () after ∧
      after.flow.bindings.get? "q" = some b ∧ b.cls = .linear ∧ b.state ≠ .defined := by
  exact ⟨⟨{ memo := { classes := .ofList [("qubit", .linear)] } }, by cbv⟩,
    ⟨{ classes := .ofList [("none", .copyable), ("qubit", .linear)] }, by cbv⟩, by cbv,
    List.mem_cons_self .., loanSite_lends .., qubitStates [("q", .consumed)],
    { state := .consumed, cls := .linear }, by cbv, by cbv, rfl, nofun⟩

end QuantumStatics.Consumption
