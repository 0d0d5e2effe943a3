/-
  Statements of two runs side by side.

  A statement of one run is answered by a statement of the other one that is alike, if names that
  two paths bind have equal types where the paths are joined, and if the parameters that need not be
  given back any more have their declared types where the function is left.
-/
import QuantumStatics.Proofs.Consumption.Abreast
import QuantumStatics.Proofs.Consumption.Followed
import QuantumStatics.Proofs.Elaboration.Elaborated

namespace QuantumStatics.Consumption

open Elaboration (LocalTypes following paramTypes)
open Execution Typed

/-! ## The types of parameters -/

/-- Every parameter of the given kind has its declared type. -/
def Restored (ps : List Param) (C : Param → Prop) (E : LocalTypes) : Prop :=
  ∀ x p a, lastParam ps x = some p → C p → E x = some a → a.equal p.type

theorem restored_paramTypes (ps : List Param) (C : Param → Prop) :
    Restored ps C (paramTypes ps) := by
  intro x p a hp _ ha
  rw [paramTypes, hp] at ha
  cases ha
  exact Ty.equal_refl _

/-- If the function is left, every parameter of the given kind has its declared type. -/
def RestoredAtExits (ps : List Param) (C : Param → Prop) : Action → LocalTypes → Prop
  | .leave, E => Restored ps C E
  | .use _, _ | .bind _ _, _ | .again, _ => True

/-- The flow analysis that joins equal types only, and asks that the parameters of the given kind
    have their declared types wherever the function is left. -/
def restoring (ps : List Param) (C : Param → Prop) : FlowAnalysis LocalTypes :=
  following (RestoredAtExits ps C)

section

variable {ps : List Param} {C : Param → Prop} {E E' : LocalTypes} {p : List Action}

theorem restoring_steps_uses (us : List Use) :
    (restoring ps C).steps (us.map .use ++ p) E E' ↔ (restoring ps C).steps p E E' := by
  induction us with
  | nil => rfl
  | cons u us ih =>
    refine Iff.trans ⟨?_, fun h => ⟨E, ⟨rfl, trivial⟩, h⟩⟩ ih
    rintro ⟨_, ⟨rfl, -⟩, h⟩
    exact h

theorem restoring_evaluation {e : Expr} :
    (restoring ps C).steps (evaluation e) E E' ↔ E' = E := by
  rw [evaluation, ← List.append_nil (List.map ..), restoring_steps_uses]
  exact eq_comm

end

/-! ## Statements -/

section

variable (N : Narrowing) (P : Ty → Prop)

/-- Where two runs arrive: at a point where names have types that satisfy `R`, or nowhere. -/
inductive Arrives (R : LocalTypes → Prop) (f f' : Flow) : Prop
  | reached {E : LocalTypes} : R E → N.FlowBeside E f f' → Arrives R f f'
  | jumped : f.reachable = false → f'.reachable = false → Arrives R f f'

/-- The states of two runs behind a statement. -/
structure After (R : LocalTypes → Prop) (Es : List LocalTypes) (σ σ' : FlowState) : Prop
    extends Abreast N P Es σ σ' where
  flow : Arrives N R σ.flow σ'.flow

end

section

variable {N : Narrowing} {P : Ty → Prop} {T : Ty → Ty → Prop} {E E' : LocalTypes}
  {Es : List LocalTypes} {R : LocalTypes → Prop} {location : Location} {l l' r r' m : Flow}
  {frame frame' : LoopFrame} {σ σ' : FlowState} {name : String} {body : Follow Unit}
  {Q : Post LocalTypes} {value value' : Expr}

theorem After.of_together (h : Together N P E Es σ σ') (hE : R E) : After N P R Es σ σ' :=
  { h with flow := .reached hE h.flow }

theorem Arrives.merge {o : Option LocalTypes} (hl : Arrives N (fun e => ∃ d ∈ o, e.Joins d) l l')
    (hr : Arrives N (fun e => ∃ d ∈ o, e.Joins d) r r') (h : l.merge location r = .ok m) :
    ∃ m', l'.merge location r' = .ok m' ∧ Arrives N (· ∈ o) m m' := by
  have only : ∀ {f f'}, Arrives N (fun e => ∃ d ∈ o, e.Joins d) f f' → Arrives N (· ∈ o) f f' := by
    rintro f f' (⟨⟨d, hd, join⟩, flow⟩ | ⟨hf, hf'⟩)
    · exact .reached hd (flow.mono join)
    · exact .jumped hf hf'
  cases hl with
  | jumped hu hu' =>
    simp only [Flow.merge, hu, Bool.not_false, if_true] at h
    cases h
    exact ⟨r', by simp only [Flow.merge, hu', Bool.not_false, if_true]; rfl, only hr⟩
  | reached hd flow =>
    cases hr with
    | jumped hu hu' =>
      simp only [Flow.merge, hu, flow.reachable, Bool.not_false, Bool.not_true, if_true,
        Bool.false_eq_true, if_false] at h
      cases h
      refine ⟨l', ?_, only (.reached hd flow)⟩
      simp only [Flow.merge, hu', flow.reachable', Bool.not_false, Bool.not_true, if_true,
        Bool.false_eq_true, if_false]
      rfl
    | reached hd' flow' =>
      obtain ⟨d, hd, join⟩ := hd
      obtain ⟨d', hd', join'⟩ := hd'
      cases Option.mem_unique hd hd'
      obtain ⟨m', hm', hm⟩ := (flow.mono join).merge (flow'.mono join') h
      exact ⟨m', hm', .reached hd hm⟩

theorem Arrives.mono {R' : LocalTypes → Prop} (h : Arrives N R l l') (hR : ∀ E, R E → R' E) :
    Arrives N R' l l' := by
  cases h with
  | reached hE flow => exact .reached (hR _ hE) flow
  | jumped hu hu' => exact .jumped hu hu'

theorem setFlow_answers (h : Arrives N R l l') :
    Answers (Abreast N P Es) (Follow.setFlow l) (Follow.setFlow l') fun _ _ => After N P R Es := by
  intro σ σ' _ τ hσ run
  cases modify_eq_ok.mp run
  exact ⟨(), _, rfl, { hσ with flow := h }⟩

theorem get_answers : Answers (Together N P E Es) get get
    (With (fun s s' => N.FlowBeside E s.flow s'.flow) (Together N P E Es)) := by
  intro σ σ' s τ hσ h
  obtain ⟨rfl, rfl⟩ := get_eq_ok.mp h
  exact ⟨σ', σ', rfl, hσ.flow, hσ⟩

theorem branch_answers {follow follow' : Follow Unit} (hf : N.FlowBeside E l l')
    (h : Answers (Together N P E Es) follow follow' fun _ _ => After N P R Es) :
    Answers (Abreast N P Es) (Follow.branch l follow) (Follow.branch l' follow')
      (With (Arrives N R) (Abreast N P Es)) := by
  intro σ σ' f τ hσ run
  obtain ⟨hrun, rfl⟩ := branch_eq_ok run
  have start : Together N P E Es { σ with flow := l } { σ' with flow := l' } :=
    { hσ with flow := hf }
  obtain ⟨_, τ', hrun', after⟩ := h _ _ _ _ start hrun
  refine ⟨τ'.flow, τ', ?_, after.flow, after.toAbreast⟩
  exact bind_eq_ok.mpr ⟨(), _, rfl, bind_eq_ok.mpr ⟨(), τ', hrun', rfl⟩⟩

theorem loop_of_run {s : FlowState} (h : body { σ with loops := frame :: σ.loops } = .ok () s)
    (hm : (s.loops.headD frame).exit s.flow location = .ok m) :
    Follow.loop frame location body σ = .ok () { s with loops := s.loops.tail, flow := m } := by
  refine bind_eq_ok.mpr ⟨(), _, rfl, bind_eq_ok.mpr ⟨(), s, h, bind_eq_ok.mpr ⟨s, s, rfl,
    bind_eq_ok.mpr ⟨(), _, rfl, bind_eq_ok.mpr ⟨m, { s with loops := s.loops.tail }, ?_, rfl⟩⟩⟩⟩⟩
  exact ofExcept_eq_ok.mpr ⟨hm, rfl⟩

theorem FramesBeside.of_cons {frames frames' : List LoopFrame}
    (h : FramesBeside N (E :: Es) frames frames') :
    ∃ f fs f' fs', frames = f :: fs ∧ frames' = f' :: fs' ∧ N.FrameBeside E f f' ∧
      FramesBeside N Es fs fs' := by
  match frames, frames', h with
  | f :: fs, f' :: fs', ⟨hf, hfs⟩ => exact ⟨f, fs, f', fs', rfl, rfl, hf, hfs⟩

theorem loop_answers {body' : Follow Unit} (hframe : N.FrameBeside E' frame frame')
    (hR : ∀ e, R e → e.Joins E')
    (h : Answers (Together N P E (E' :: Es)) body body' fun _ _ => After N P R (E' :: Es)) :
    Answers (Together N P E Es) (Follow.loop frame location body)
      (Follow.loop frame' location body') fun _ _ => Together N P E' Es := by
  intro σ σ' _ τ hσ run
  obtain ⟨s, m, hrun, hexit, rfl⟩ := loop_eq_ok run
  have start : Together N P E (E' :: Es) { σ with loops := frame :: σ.loops }
      { σ' with loops := frame' :: σ'.loops } := { hσ with loops := ⟨hframe, hσ.loops⟩ }
  obtain ⟨_, s', hrun', after⟩ := h _ _ _ _ start hrun
  -- The body has only added jumps to the frame.
  obtain ⟨f, fs, f', fs', hloops, hloops', hf, hfs⟩ := after.loops.of_cons
  obtain ⟨reachable, flow⟩ : s'.flow.reachable = s.flow.reachable ∧
      (s.flow.reachable → N.FlowBeside E' s.flow s'.flow) := by
    cases after.flow with
    | reached hE flow =>
      exact ⟨flow.reachable'.trans flow.reachable.symm, fun _ => flow.mono (hR _ hE)⟩
    | jumped hu hu' => exact ⟨hu'.trans hu.symm, fun h => absurd (hu.symm.trans h) nofun⟩
  rw [hloops] at hexit
  obtain ⟨m', hm', flow⟩ := hf.exit reachable flow hexit
  refine ⟨(), { s' with loops := s'.loops.tail, flow := m' }, ?_, ?_⟩
  · refine loop_of_run hrun' ?_
    rw [hloops']
    exact hm'
  · refine { after with flow := flow, loops := ?_ }
    rw [hloops, hloops']
    exact hfs

/-! ### Exits and jumps -/

theorem FramesBeside.noneSealed : ∀ {Es : List LocalTypes} {frames frames' : List LoopFrame},
    FramesBeside N Es frames frames' → NoneSealed frames → NoneSealed frames'
  | [], [], [], _, _ => nofun
  | _ :: _, f :: fs, f' :: fs', ⟨hf, hfs⟩, h => by
    obtain ⟨hsealed, h⟩ := List.forall_mem_cons.mp h
    refine List.forall_mem_cons.mpr ⟨?_, hfs.noneSealed h⟩
    by_cases hf' : f'.linearElements
    · cases hsealed.symm.trans (hf.linearElements hf')
    · simpa using hf'

theorem checkLeavesNoElements_answers :
    Answers (Together N P E Es) (Follow.checkLeavesNoElements location)
      (Follow.checkLeavesNoElements location) fun _ _ => Together N P E Es := by
  intro σ σ' _ τ hσ h
  obtain ⟨hsealed, rfl⟩ := checkLeavesNoElements_eq_ok h
  have hsealed' := hσ.loops.noneSealed hsealed
  refine ⟨(), σ', bind_eq_ok.mpr ⟨σ', σ', rfl, ?_⟩, hσ⟩
  have : σ'.loops.reverse.find? (·.linearElements) = none :=
    List.find?_eq_none.mpr fun frame hframe => by simp [hsealed' frame (by simpa using hframe)]
  rw [this]
  rfl

theorem exitHere_answers (hE : N.Released E) :
    Answers (Together N P E Es) (Follow.exitHere location) (Follow.exitHere location)
      fun _ _ => Together N P E Es := by
  intro σ σ' _ τ hσ h
  obtain ⟨hexit, rfl⟩ := exitHere_eq_ok h
  refine ⟨(), σ', bind_eq_ok.mpr ⟨σ', σ', rfl, ?_⟩, hσ⟩
  exact ofExcept_eq_ok.mpr ⟨hσ.flow.checkExit hE hexit, rfl⟩

theorem jump_answers :
    Answers (Abreast N P Es) Follow.jump Follow.jump fun _ _ => After N P R Es := by
  intro σ σ' _ τ hσ h
  cases modify_eq_ok.mp h
  exact ⟨(), _, rfl, { hσ with flow := .jumped rfl rfl }⟩

/-- Jumps out of a loop or to its next iteration lead to the types that it is left with. -/
def JumpsTo (Q : Post LocalTypes) (Es : List LocalTypes) : Prop :=
  ∀ E₀ ∈ Es.head?, ∀ E, Q .broke E ∨ Q .continued E → E.Joins E₀

theorem currentLoop_answers :
    Answers (Together N P E Es) (Follow.currentLoop location) (Follow.currentLoop location)
      (With (fun f f' => ∃ E₀ ∈ Es.head?, N.FrameBeside E₀ f f') (Together N P E Es)) := by
  intro σ σ' frame τ hσ run
  obtain ⟨hloops, rfl⟩ := currentLoop_eq_ok run
  have frames := hσ.loops
  rw [hloops] at frames
  match Es, hl' : σ'.loops, frames with
  | E₀ :: Es, frame' :: frames', ⟨hframe, _⟩ =>
    refine ⟨frame', σ', bind_eq_ok.mpr ⟨σ', σ', rfl, ?_⟩, ⟨E₀, rfl, hframe⟩, hσ⟩
    simp only [hl']
    rfl

theorem setCurrentLoop_answers {E₀ : LocalTypes} (hE₀ : E₀ ∈ Es.head?)
    (hframe : N.FrameBeside E₀ frame frame') :
    Answers (Together N P E Es) (Follow.setCurrentLoop frame) (Follow.setCurrentLoop frame')
      fun _ _ => Together N P E Es := by
  intro σ σ' _ τ hσ run
  cases modify_eq_ok.mp run
  refine ⟨(), _, rfl, { hσ with loops := ?_ }⟩
  match Es, hE₀ with
  | _ :: Es, rfl =>
    obtain ⟨f, fs, f', fs', hloops, hloops', -, hfs⟩ := hσ.loops.of_cons
    refine ⟨hframe, ?_⟩
    rw [hloops, hloops']
    exact hfs

theorem break_answers (hQ : JumpsTo Q Es) (hE : Q .broke E) :
    Answers (Together N P E Es) (checkStmt name (.breakLoop location))
      (checkStmt name (.breakLoop location)) fun _ _ => After N P R Es := by
  rw [checkStmt]
  refine currentLoop_answers.bindWith fun frame frame' ⟨E₀, hE₀, hframe⟩ => ?_
  dsimp only
  split
  · exact .bind_of_fails fun _ _ _ => reject_ne_ok
  · rename_i open_
    rw [if_neg fun h => open_ (hframe.linearElements h)]
    refine get_answers.bindWith fun s s' hflow => ?_
    refine (Answers.ofExcept (V := fun _ _ => True) fun _ h =>
      ⟨(), Narrowing.checkLoopVar hframe.loopVar hflow h, trivial⟩).bindWith fun _ _ _ => ?_
    have jumps := hflow.mono (hQ E₀ hE₀ E (.inl hE))
    have added : N.FrameBeside E₀ { frame with breaks := frame.breaks ++ [s.flow] }
        { frame' with breaks := frame'.breaks ++ [s'.flow] } :=
      { hframe with breaks := List.rel_append hframe.breaks (.cons jumps .nil) }
    exact (setCurrentLoop_answers hE₀ added).bind fun _ _ =>
      jump_answers.of_imp fun _ _ => Together.toAbreast

theorem continue_answers (hQ : JumpsTo Q Es) (hE : Q .continued E) :
    Answers (Together N P E Es) (checkStmt name (.continueLoop location))
      (checkStmt name (.continueLoop location)) fun _ _ => After N P R Es := by
  rw [checkStmt]
  refine currentLoop_answers.bindWith fun frame frame' ⟨E₀, hE₀, hframe⟩ => ?_
  refine get_answers.bindWith fun s s' hflow => ?_
  have jumps := hflow.mono (hQ E₀ hE₀ E (.inr hE))
  have added : N.FrameBeside E₀ { frame with continues := frame.continues ++ [s.flow] }
      { frame' with continues := frame'.continues ++ [s'.flow] } :=
    { hframe with continues := List.rel_append hframe.continues (.cons jumps .nil) }
  exact (setCurrentLoop_answers hE₀ added).bind fun _ _ =>
    jump_answers.of_imp fun _ _ => Together.toAbreast

/-! ### Simple statements -/

variable {ps : List Param} {C : Param → Prop}

theorem bindAll_answers (hT : TypesNarrow N P T) : ∀ (names : List String) {ts ts' : List Ty}
    {E : LocalTypes}, List.Forall₂ T ts ts' →
    (restoring ps C).steps (names.zipWith .bind ts) E E' →
    Answers (Together N P E Es) (Follow.bindAll location names ts)
      (Follow.bindAll location names ts') fun _ _ => Together N P E' Es
  | [], _, _, _, _, hE => by
    cases hE
    exact .pure fun _ _ => id
  | _ :: _, [], _, _, .nil, hE => by
    cases hE
    exact .pure fun _ _ => id
  | name :: names, t :: ts, _, _, .cons ht hts, hE => by
    obtain ⟨_, ⟨⟨a, ha, rfl⟩, -⟩, hE⟩ := hE
    rw [Follow.bindAll, Follow.bindAll]
    exact (bind_answers hT ht ha).bind fun _ _ => bindAll_answers hT names hts hE

theorem tupleAssign_answers (hT : TypesNarrow N P T) {targets : List String}
    (hv : value.Alike T value')
    (hE : (restoring ps C).steps (targets.zipWith .bind (components value.type)) E E') :
    Answers (Together N P E Es) (checkStmt name (.tupleAssign location targets value))
      (checkStmt name (.tupleAssign location targets value')) fun _ _ => Together N P E' Es := by
  rw [checkStmt, checkStmt]
  refine (evaluate_answers hT value hv).bind fun _ _ => ?_
  have type := hv.type
  cases ht : value.type with
  | tuple elems =>
    rw [ht] at type hE
    obtain ⟨elems', ht', helems⟩ := hT.tuple type
    rw [ht']
    dsimp only
    rw [← helems.length_eq]
    split
    · exact bindAll_answers hT targets helems hE
    · exact .bind_of_fails fun _ _ _ => defect_ne_ok
  | _ => exact .defect

theorem expr_answers (hT : TypesNarrow N P T) (hv : value.Alike T value') :
    Answers (Together N P E Es) (checkStmt name (.expr location value))
      (checkStmt name (.expr location value')) fun _ _ => Together N P E Es := by
  rw [checkStmt, checkStmt]
  refine (evaluate_answers hT value hv).bind fun _ _ => ?_
  refine (classify_answers hT.tells (hT.lesser hv.type)).bindWith fun c c' ⟨_, _, le⟩ => ?_
  split
  · exact .reject
  · rename_i hc
    have hc' : c' ≠ .linear := fun h => hc (OwnershipClass.linear_le_iff.mp (h ▸ le))
    rw [if_neg hc']
    exact .pure fun _ _ => id

theorem leave_answers (hE : N.Released E) :
    Answers (Together N P E Es)
      (do Follow.checkLeavesNoElements location; Follow.exitHere location; Follow.jump)
      (do Follow.checkLeavesNoElements location; Follow.exitHere location; Follow.jump)
      fun _ _ => After N P R Es :=
  checkLeavesNoElements_answers.bind fun _ _ => (exitHere_answers hE).bind fun _ _ =>
    jump_answers.of_imp fun _ _ => Together.toAbreast

/-! ### Loops -/

theorem runsOverLinear_eq (e : Expr) (t : Ty) : Follow.runsOverLinear e t =
    if e.type.array?.isSome then do return (← Follow.classify t) = .linear else pure false := by
  unfold Follow.runsOverLinear
  cases e.type <;> rfl

theorem runsOverLinear_answers (hT : TypesNarrow N P T) {t t' : Ty} (ht : T t t') {e e' : Expr}
    (he : e'.type.array?.isSome = e.type.array?.isSome) :
    Answers (Together N P E Es) (Follow.runsOverLinear e t) (Follow.runsOverLinear e' t')
      (With (fun b b' => b' = true → b = true) (Together N P E Es)) := by
  rw [runsOverLinear_eq, runsOverLinear_eq, he]
  split
  · refine (classify_answers hT.tells (hT.lesser ht)).bindWith fun c c' ⟨_, _, le⟩ => ?_
    refine .pure fun _ _ hσ => ⟨fun h => ?_, hσ⟩
    have hc' : c' = .linear := by simpa using h
    simpa using OwnershipClass.linear_le_iff.mp (hc' ▸ le)
  · exact .pure fun _ _ hσ => ⟨id, hσ⟩

theorem frameBeside_enter {loopVar : String} {linear linear' : Bool}
    (hf : N.FlowBeside E l l') (hl : linear' = true → linear = true) :
    N.FrameBeside E { entry := l, loopVar, linearElements := linear }
      { entry := l', loopVar, linearElements := linear' } :=
  ⟨hf, rfl, hl, .nil, .nil⟩

theorem jumpsTo_bodyPost (elements : Option Ty) (entry exit : LocalTypes) (Q : Post LocalTypes) :
    JumpsTo ((restoring ps C).bodyPost elements entry exit Q) (exit :: Es) := by
  rintro _ ⟨⟩ e (h | h)
  · exact h.2
  · exact h.2

/-! ### Blocks -/

theorem unreachable_answers {ss ss' : List Stmt} (hss : List.Forall₂ (Stmt.Alike T) ss ss')
    {τ : FlowState} (hσ : Abreast N P Es σ σ') (hf : σ.flow.reachable = false)
    (hf' : σ'.flow.reachable = false) (run : checkBlock name ss σ = .ok () τ) :
    ∃ τ', checkBlock name ss' σ' = .ok () τ' ∧ After N P R Es τ τ' := by
  cases hss with
  | nil =>
    rw [checkBlock] at run
    obtain ⟨-, rfl⟩ := pure_eq_ok.mp run
    exact ⟨σ', rfl, { hσ with flow := .jumped hf hf' }⟩
  | cons hs _ =>
    rw [checkBlock] at run ⊢
    obtain ⟨_, _, hget, run⟩ := bind_eq_ok.mp run
    obtain ⟨rfl, rfl⟩ := get_eq_ok.mp hget
    rw [hf] at run
    cases modify_eq_ok.mp run
    refine ⟨_, bind_eq_ok.mpr ⟨σ', σ', rfl, by rw [hf']; rfl⟩, ?_⟩
    refine { hσ with warnings := ?_, flow := .jumped hf hf' }
    dsimp only
    rw [hσ.warnings, hs.location]

mutual

/-- **Following a statement is answered by following one that is alike**, if the flow analysis goes
    through it. -/
theorem checkStmt_answers (hT : TypesNarrow N P T) (hps : ∀ E, Restored ps C E → N.Released E)
    {name : String} : ∀ (s : Stmt) {s' : Stmt} {E : LocalTypes} {Q : Post LocalTypes}
    {Es : List LocalTypes}, s.Alike T s' → (restoring ps C).Admits (.ofStmt s) E Q → JumpsTo Q Es →
    Answers (Together N P E Es) (checkStmt name s) (checkStmt name s')
      fun _ _ => After N P (Q .normal) Es
  | .assign _ _ value, _, E, Q, _, .assign hv, ha, _ => by
    obtain ⟨E', steps, hE'⟩ := ha
    obtain ⟨_, ⟨⟨a, equal, rfl⟩, -⟩, rfl⟩ := (restoring_steps_uses _).mp steps
    rw [checkStmt, checkStmt]
    exact (evaluate_answers hT value hv).bind fun _ _ =>
      (bind_answers hT hv.type equal).mono fun _ _ _ _ h => .of_together h hE'
  | .tupleAssign _ _ value, _, E, Q, _, .tupleAssign hv, ha, _ => by
    obtain ⟨E', steps, hE'⟩ := ha
    exact (tupleAssign_answers hT hv ((restoring_steps_uses _).mp steps)).mono
      fun _ _ _ _ h => .of_together h hE'
  | .expr _ value, _, E, Q, _, .expr hv, ha, _ => by
    obtain ⟨E', steps, hE'⟩ := ha
    cases restoring_evaluation.mp steps
    exact (expr_answers hT hv).mono fun _ _ _ _ h => .of_together h hE'
  | .ret _ (some value), _, E, Q, _, .ret hv, ha, _ => by
    obtain ⟨E', steps, -⟩ := ha
    obtain ⟨_, ⟨-, restored⟩, -⟩ := (restoring_steps_uses _).mp steps
    rw [checkStmt, checkStmt]
    exact (evaluate_answers hT value hv).bind fun _ _ => leave_answers (hps E restored)
  | .ret _ none, _, E, Q, _, .retNone, ha, _ => by
    obtain ⟨E', ⟨_, ⟨-, restored⟩, -⟩, -⟩ := ha
    rw [checkStmt]
    exact leave_answers (hps E restored)
  | .branch _ condition thenBody elseBody, _, E, Q, _, .branch hc ht he, ha, hQ => by
    obtain ⟨E', steps, o, hE', hthen, helse⟩ := ha
    cases restoring_evaluation.mp steps
    rw [checkStmt, checkStmt]
    refine (evaluate_answers hT condition hc).bind fun _ _ => ?_
    refine get_answers.bindWith fun s s' hflow => ?_
    refine Answers.of_imp ?_ fun _ _ => Together.toAbreast
    refine (branch_answers hflow (checkBlock_answers hT hps thenBody ht hthen hQ)).bindWith
      fun l l' hl => ?_
    refine (branch_answers hflow (checkBlock_answers hT hps elseBody he helse hQ)).bindWith
      fun r r' hr => ?_
    refine (Answers.ofExcept fun _ => hl.merge hr).bindWith fun m m' hm => ?_
    exact setFlow_answers (hm.mono hE')
  | .whileLoop _ condition body, _, E, Q, _, .whileLoop hc hb, ha, _ => by
    obtain ⟨E₁, E₂, exit, steps, rfl, join, hexit, hbody⟩ := ha
    cases restoring_evaluation.mp steps
    rw [checkStmt, checkStmt]
    refine (evaluate_answers hT condition hc).bind fun _ _ => ?_
    refine get_answers.bindWith fun s s' hflow => ?_
    refine (loop_answers (frameBeside_enter (hflow.mono join) id) (fun _ h => h.2)
      (checkBlock_answers hT hps body hb hbody (jumpsTo_bodyPost _ _ _ _))).mono
      fun _ _ _ _ h => .of_together h hexit
  | .forLoop _ _ _ iterable body, _, E, Q, _, .forLoop ht hi harr hb, ha, _ => by
    obtain ⟨E', steps, E₁, E₂, exit, rfl, bound, join, hexit, hbody⟩ := ha
    obtain ⟨_, ⟨⟨a, equal, rfl⟩, -⟩, rfl⟩ := bound
    cases restoring_evaluation.mp steps
    rw [checkStmt, checkStmt]
    refine (evaluate_answers hT iterable hi).bind fun _ _ => ?_
    refine get_answers.bindWith fun s s' hflow => ?_
    refine (runsOverLinear_answers hT ht harr).bindWith fun b b' hlinear => ?_
    refine (bind_answers hT ht equal).bind fun _ _ => ?_
    exact (loop_answers (frameBeside_enter (hflow.mono join) hlinear) (fun _ h => h.2)
      (checkBlock_answers hT hps body hb hbody (jumpsTo_bodyPost _ _ _ _))).mono
      fun _ _ _ _ h => .of_together h hexit
  | .breakLoop _, _, E, Q, _, .breakLoop, ha, hQ => by
    obtain ⟨_, rfl, hE⟩ := ha
    exact break_answers hQ hE
  | .continueLoop _, _, E, Q, _, .continueLoop, ha, hQ => by
    obtain ⟨_, rfl, hE⟩ := ha
    exact continue_answers hQ hE

theorem checkBlock_answers (hT : TypesNarrow N P T) (hps : ∀ E, Restored ps C E → N.Released E)
    {name : String} : ∀ (ss : List Stmt) {ss' : List Stmt} {E : LocalTypes} {Q : Post LocalTypes}
    {Es : List LocalTypes}, List.Forall₂ (Stmt.Alike T) ss ss' →
    (restoring ps C).Admits (.ofBlock ss) E Q → JumpsTo Q Es →
    Answers (Together N P E Es) (checkBlock name ss) (checkBlock name ss')
      fun _ _ => After N P (Q .normal) Es
  | [], _, E, Q, _, .nil, ha, _ => by
    obtain ⟨_, rfl, hE⟩ := ha
    exact .pure fun _ _ h => .of_together h hE
  | s :: ss, _, E, Q, Es, .cons hs hss, ha, hQ => by
    rw [checkBlock, checkBlock]
    refine get_answers.bindWith fun st st' hflow => ?_
    rw [if_pos hflow.reachable, if_pos hflow.reachable']
    refine (checkStmt_answers hT hps s hs ha hQ).bind fun _ _ σ σ' _ τ hσ run => ?_
    cases hσ.flow with
    | reached hE flow =>
      exact checkBlock_answers hT hps ss hss hE hQ _ _ _ _ ⟨hσ.toAbreast, flow⟩ run
    | jumped hu hu' =>
      obtain ⟨τ', run', after⟩ := unreachable_answers hss hσ.toAbreast hu hu' run
      exact ⟨(), τ', run', after⟩

end

end

end QuantumStatics.Consumption
