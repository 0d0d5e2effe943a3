/-
  The checker goes through a function as the type flow analysis does.

  Checking a statement ends with the environment behind it, which may be marked as
  unreachable, and records the environment at every jump in the innermost loop.
  `Elaborated` says so together with what the analysis makes of the typed statement, under
  every substitution that is at least as fine as what has been found out.
-/
import QuantumStatics.Elaboration.Definition
import QuantumStatics.Proofs.Elaboration.TypeFlow
import QuantumStatics.Proofs.Typed.Substitution

namespace QuantumStatics.Elaboration

open Execution Check

/-- Adds jumps to the innermost loop. -/
def addJumps (bs cs : List Env) : List LoopFrame → List LoopFrame
  | [] => []
  | frame :: frames =>
    { breaks := frame.breaks ++ bs, continues := frame.continues ++ cs } :: frames

section Jumps

variable {bs cs bs' cs' : List Env} {loops : List LoopFrame}

@[simp] theorem addJumps_nil : addJumps [] [] loops = loops := by
  cases loops <;> simp [addJumps]

theorem addJumps_addJumps :
    addJumps bs' cs' (addJumps bs cs loops) = addJumps (bs ++ bs') (cs ++ cs') loops := by
  cases loops <;> simp [addJumps]

theorem mem_jumps {e : Env} (h : e ∈ bs ++ bs' ++ (cs ++ cs')) : e ∈ bs ++ cs ∨ e ∈ bs' ++ cs' := by
  grind

end Jumps

/-- What the checker ends with: the environment behind a statement and those at the jumps,
    as far as they can be reached. -/
def endsWith (S : Substitution) (env : Env) (bs cs : List Env) : Post LocalTypes
  | .normal, E => env.reachable ∧ E = view S env
  | .broke, E => ∃ b ∈ bs, b.reachable ∧ E = view S b
  | .continued, E => ∃ c ∈ cs, c.reachable ∧ E = view S c
  | .returned, _ => True

section

variable {S : Substitution} {env env' : Env} {bs bs' cs cs' : List Env} {o : Outcome}
  {E : LocalTypes}

theorem endsWith_mono (hb : bs ⊆ bs') (hc : cs ⊆ cs') (h : endsWith S env bs cs o E) :
    endsWith S env bs' cs' o E := by
  cases o with
  | normal => exact h
  | broke =>
    obtain ⟨b, hmem, hE⟩ := h
    exact ⟨b, hb hmem, hE⟩
  | continued =>
    obtain ⟨c, hmem, hE⟩ := h
    exact ⟨c, hc hmem, hE⟩
  | returned => trivial

theorem endsWith_onNormal {next : LocalTypes → Prop} (hb : bs ⊆ bs') (hc : cs ⊆ cs')
    (hn : env.reachable → next (view S env)) (h : endsWith S env bs cs o E) :
    (endsWith S env' bs' cs').onNormal next o E := by
  have h' := endsWith_mono hb hc h
  cases o with
  | normal => exact h.2 ▸ hn h.1
  | broke | continued | returned => exact h'

end

/-- Between two states, the checker has gone through a control flow, which depends on how
    undetermined types are read, and has met the jumps `bs` out of the innermost loop and
    `cs` to its next iteration. -/
structure Elaborated (c : Substitution → Control) (s s' : BodyState) (bs cs : List Env) :
    Prop where
  advances : s.subs.Advances s'.subs
  loops : s'.loops = addJumps bs cs s.loops
  admits (S : Substitution) : s'.subs.Refines S → s.env.reachable →
    typeFlow.Admits (c S) (view S s.env) (endsWith S s'.env bs cs)
  ends : s'.env.reachable → s.env.reachable ∧ ∀ S, ∃ p, (c S).Path p .normal
  jumps : ∀ e ∈ bs ++ cs, e.reachable → s.env.reachable

namespace Elaborated

variable {a b : Substitution → Control} {s s₁ s₂ s₃ : BodyState} {bs cs bs' cs' : List Env}
  {p : Substitution → List Action} {location : Location}

theorem of_stepped (h : Stepped p s s₁) (hS : s.subs.Solved) :
    Elaborated (fun S => .run (p S) .normal) s s₁ [] [] where
  advances := h.advances hS
  loops := by simp [h.loops]
  admits S hr hs := ⟨_, h.steps hS S hr, h.reachable.trans hs, rfl⟩
  ends hr := ⟨h.reachable ▸ hr, fun S => ⟨p S, .run (p S) .normal⟩⟩
  jumps := by simp

theorem seq (ha : Elaborated a s s₁ bs cs) (hb : Elaborated b s₁ s₂ bs' cs') :
    Elaborated (fun S => .seq (a S) (b S)) s s₂ (bs ++ bs') (cs ++ cs') where
  advances := ha.advances.trans hb.advances
  loops := by rw [hb.loops, ha.loops, addJumps_addJumps]
  admits S hr hs := by
    refine (ha.admits S (hb.advances.refines.trans hr) hs).mono fun o E =>
      endsWith_onNormal (List.subset_append_left ..) (List.subset_append_left ..) fun hs₁ => ?_
    exact (hb.admits S hr hs₁).mono fun o E =>
      endsWith_mono (List.subset_append_right ..) (List.subset_append_right ..)
  ends hr := by
    obtain ⟨hr₁, second⟩ := hb.ends hr
    obtain ⟨hs, first⟩ := ha.ends hr₁
    refine ⟨hs, fun S => ?_⟩
    obtain ⟨p, hp⟩ := first S
    obtain ⟨q, hq⟩ := second S
    exact ⟨p ++ q, hp.seq hq⟩
  jumps e he hr :=
    (mem_jumps he).elim (ha.jumps e · hr) fun h => (ha.ends (hb.jumps e h hr)).1

theorem settle (ha : Elaborated a s s₁ bs cs) (h : Settled s₁ s₂) :
    Elaborated a s s₂ bs cs where
  advances := ha.advances.trans (h.advances ha.advances.solved)
  loops := by rw [h.loops, ha.loops]
  admits S hr hs := by
    have hS₁ := ha.advances.solved
    have hview : view S s₁.env = view S s₂.env := h.steps hS₁ S hr
    refine (ha.admits S ((h.advances hS₁).refines.trans hr) hs).mono fun o E hE => ?_
    cases o with
    | normal => exact ⟨h.reachable.trans hE.1, hE.2.trans hview⟩
    | broke | continued | returned => exact hE
  ends hr := ha.ends (h.reachable ▸ hr)
  jumps := ha.jumps

theorem choice {m : Env} (ha : Elaborated a s s₁ bs cs)
    (hb : Elaborated b { s₁ with env := s.env } s₂ bs' cs')
    (hm : merge location s₁.env s₂.env s₂ = .ok m s₃) :
    Elaborated (fun S => .choice (a S) (b S)) s { s₃ with env := m } (bs ++ bs') (cs ++ cs') := by
  obtain ⟨inferred, joined⟩ := merge_eq_ok hm
  have advances := inferred.advances hb.advances.solved
  refine ⟨ha.advances.trans (hb.advances.trans advances), ?_, fun S hr hs => ?_, fun hr => ?_,
    fun e he hr => (mem_jumps he).elim (ha.jumps e · hr) (hb.jumps e · hr)⟩
  · rw [← addJumps_addJumps, ← ha.loops]
    exact inferred.loops.trans hb.loops
  rotate_left
  · rcases reachable_of_merge hm hr with hl | hr
    · exact (ha.ends hl).imp_right fun paths S => (paths S).imp fun p => .inl
    · exact (hb.ends hr).imp_right fun paths S => (paths S).imp fun p => .inr
  have hr₂ := advances.refines.trans hr
  obtain ⟨left, right⟩ := joined hb.advances.solved S hr
  refine ⟨if m.reachable then some (view S m) else none, fun E hE => ?_,
    (ha.admits S (hb.advances.refines.trans hr₂) hs).mono fun o E => endsWith_onNormal
      (List.subset_append_left ..) (List.subset_append_left ..) fun h => ?_,
    (hb.admits S hr₂ hs).mono fun o E => endsWith_onNormal
      (List.subset_append_right ..) (List.subset_append_right ..) fun h => ?_⟩
  · split at hE
    · rename_i hm
      cases hE
      exact ⟨hm, rfl⟩
    · cases hE
  · obtain ⟨hm, hj⟩ := left h
    exact ⟨view S m, by simp [hm], hj⟩
  · obtain ⟨hm, hj⟩ := right h
    exact ⟨view S m, by simp [hm], hj⟩

theorem loop {s₄ : BodyState} {elements : Substitution → Option Ty}
    {test enter : Substitution → List Action} {body : Substitution → Control} {m : Env}
    (hS : s.subs.Solved) (htest : Stepped test s s₁) (henter : Stepped enter s₁ s₂)
    (hbody : Elaborated body { s₂ with loops := {} :: s₂.loops } s₃ bs cs)
    (hexit : s₃.subs.Advances s₄.subs) (hloops : s₄.loops = s₃.loops.tail)
    (hjoin : ∀ S, s₄.subs.Refines S → ∀ e ∈ s₁.env :: s₃.env :: (cs ++ bs), e.Joined S m)
    (hlive : m.reachable → ∃ e ∈ s₁.env :: s₃.env :: (cs ++ bs), e.reachable) :
    Elaborated (fun S => .loop (elements S) (test S) (enter S) (body S)) s
      { s₄ with env := m } [] [] where
  advances := by
    have tested := htest.advances hS
    exact (tested.trans (henter.advances tested.solved)).trans (hbody.advances.trans hexit)
  loops := by
    have := hbody.loops
    simp only [addJumps] at this
    simp [hloops, this, henter.loops, htest.loops]
  admits S hr hs := by
    have hS₁ := (htest.advances hS).solved
    have hr₃ := hexit.refines.trans hr
    have hr₂ := hbody.advances.refines.trans hr₃
    have hr₁ := (henter.advances hS₁).refines.trans hr₂
    have hs₁ := htest.reachable.trans hs
    obtain ⟨hentry, hedges⟩ := List.forall_mem_cons.mp (hjoin S hr)
    obtain ⟨hend, hjumps⟩ := List.forall_mem_cons.mp hedges
    obtain ⟨hm, entryJoins⟩ := hentry hs₁
    refine ⟨_, _, view S m, htest.steps hS S hr₁, henter.steps hS₁ S hr₂, entryJoins, ⟨hm, rfl⟩,
      (hbody.admits S hr₃ (henter.reachable.trans hs₁)).mono fun o E hE => ?_⟩
    cases o with
    | normal =>
      obtain ⟨hr, rfl⟩ := hE
      exact ⟨⟨_, entryJoins, (hend hr).2⟩, (hend hr).2⟩
    | continued =>
      obtain ⟨c, hc, hr, rfl⟩ := hE
      have joins := (hjumps c (List.mem_append_left _ hc) hr).2
      exact ⟨⟨_, entryJoins, joins⟩, joins⟩
    | broke =>
      obtain ⟨b, hb, hr, rfl⟩ := hE
      exact ⟨typeFlow_open _, (hjumps b (List.mem_append_right _ hb) hr).2⟩
    | returned => exact ⟨typeFlow_open _, trivial⟩
  ends hr := by
    have entered : ∀ e ∈ s₁.env :: s₃.env :: (cs ++ bs), e.reachable → s₁.env.reachable := by
      refine List.forall_mem_cons.mpr ⟨id, List.forall_mem_cons.mpr ⟨fun h => ?_, fun e he h => ?_⟩⟩
      · exact henter.reachable ▸ (hbody.ends h).1
      · exact henter.reachable ▸ hbody.jumps e (List.mem_append.mpr (List.mem_append.mp he).symm) h
    obtain ⟨e, he, live⟩ := hlive hr
    exact ⟨htest.reachable ▸ entered e he live, fun S => ⟨_, .loop .nil .done⟩⟩
  jumps := by simp

end Elaborated

section

variable {Γ : Scope} {location : Location} {s s' s₁ : BodyState} {e value : Source.Expr}
  {typed : Typed.Expr} {what : String} {env : Env} {expected stated : Option Ty}
  {context : Typed.UseKind} {t : Ty} {α : Type}

/-! ## Actions in a row -/

theorem stepped_evaluation {e : Typed.Expr} (h : Inferred s s') (he : Named s.env e) :
    Stepped (fun S => evaluation (e.subst S)) s s' where
  advances := h.advances
  loops := h.loops
  reachable := by rw [h.env]
  steps _ S _ := by
    rw [h.env, evaluation, uses_subst]
    refine steps_uses fun u hu t ht => ?_
    obtain ⟨v, hv, rfl⟩ := List.mem_map.mp hu
    obtain ⟨t, hvt, rfl⟩ := Option.map_eq_some_iff.mp ht
    have := typed_of_mem_uses he v hv t hvt
    simp [view, Use.subst, this]

theorem stepped_checkExpr (h : checkExpr Γ expected context e s = .ok typed s') :
    Stepped (fun S => evaluation (typed.subst S)) s s' := by
  obtain ⟨inferred, named⟩ := checkExpr_infers Γ expected context e s typed s' rfl h
  exact stepped_evaluation inferred named

theorem stepped_expect (he : checkExpr Γ expected context e s = .ok typed s₁)
    (ht : expect typed t location what s₁ = .ok () s') :
    Stepped (fun S => evaluation (typed.subst S)) s s' ∧
      (s.subs.Solved → ∀ S, s'.subs.Refines S → (typed.type.subst S).equal (t.subst S)) := by
  obtain ⟨first, named⟩ := checkExpr_infers Γ expected context e s typed s₁ rfl he
  obtain ⟨second, equal⟩ := unifyAt_eq_ok ht
  refine ⟨stepped_evaluation (first.trans second) named, fun hS S hr => ?_⟩
  exact Ty.equal_symm (hr.equal (equal (first.advances hS).solved))

theorem stepped_condition (h : condition Γ e s = .ok typed s') :
    Stepped (fun S => evaluation (typed.subst S)) s s' := by
  obtain ⟨_, s₁, he, h⟩ := bind_eq_ok.mp h
  obtain ⟨_, s₂, ht, h⟩ := bind_eq_ok.mp h
  obtain ⟨rfl, rfl⟩ := pure_eq_ok.mp h
  exact (stepped_expect he ht).1

theorem annotatedValue_eq_ok (h : annotatedValue Γ location what stated value s = .ok typed s') :
    Stepped (fun S => evaluation (typed.subst S)) s s' ∧
      (s.subs.Solved → ∀ S, s'.subs.Refines S →
        (typed.type.subst S).equal ((stated.getD typed.type).subst S)) := by
  cases stated with
  | none => exact ⟨stepped_checkExpr h, fun _ _ _ => Ty.equal_refl _⟩
  | some t =>
    obtain ⟨_, _, hcheck, h⟩ := bind_eq_ok.mp h
    obtain ⟨-, rfl⟩ := ofExcept_eq_ok.mp hcheck
    obtain ⟨_, s₁, he, h⟩ := bind_eq_ok.mp h
    obtain ⟨_, s₂, ht, h⟩ := bind_eq_ok.mp h
    obtain ⟨rfl, rfl⟩ := pure_eq_ok.mp h
    exact stepped_expect he ht

theorem stepped_bind {n : String} {types : Substitution → Ty}
    (ht : ∀ S, s.subs.Refines S → (types S).equal (t.subst S))
    (h : Check.bind n t location s = .ok () s') : Stepped (fun S => [.bind n (types S)]) s s' := by
  cases modify_eq_ok.mp h
  refine ⟨fun hS => .refl hS, rfl, rfl, fun _ S hr => FlowAnalysis.steps_singleton.mpr ?_⟩
  exact ⟨⟨t.subst S, ht S hr, view_insert S s.env n t _⟩, trivial⟩

theorem stepped_enter (s : BodyState) (n : String) (t : Ty) :
    Stepped (fun S => [.bind n (t.subst S)]) s
      { s with env := { s.env with bindings := s.env.bindings.insert n t } } :=
  ⟨fun hS => .refl hS, rfl, rfl, fun _ S _ => FlowAnalysis.steps_singleton.mpr
    ⟨⟨t.subst S, Ty.equal_refl _, view_insert S s.env n t _⟩, trivial⟩⟩

theorem forM_bind_eq_ok {l : List (String × Ty)}
    (h : (l.forM fun (target, t) => Check.bind target t location) s = .ok () s') :
    ∃ bound, s' = { s with
      env := ⟨l.foldl (fun d e => d.insert e.1 e.2) s.env.bindings, s.env.reachable⟩
      bound } := by
  induction l generalizing s with
  | nil =>
    obtain ⟨-, rfl⟩ := pure_eq_ok.mp h
    exact ⟨s.bound, rfl⟩
  | cons e l ih =>
    obtain ⟨_, s₁, hb, h⟩ := bind_eq_ok.mp h
    cases modify_eq_ok.mp hb
    exact ih h

theorem steps_bindAll {S : Substitution} (targets : List String) {types elems : List Ty}
    (h : elems.map Ty.skeleton = (types.map (Ty.subst S)).map Ty.skeleton)
    (d : Dict String Ty) (reachable : Bool) :
    typeFlow.steps (targets.zipWith .bind elems) (view S ⟨d, reachable⟩)
      (view S ⟨(targets.zip types).foldl (fun d e => d.insert e.1 e.2) d, reachable⟩) := by
  induction targets generalizing types elems d with
  | nil => rfl
  | cons target targets ih =>
    cases elems with
    | nil =>
      cases types with
      | nil => rfl
      | cons t types => simp at h
    | cons elem elems =>
      cases types with
      | nil => simp at h
      | cons t types =>
        simp only [List.map_cons, List.cons.injEq] at h
        refine ⟨view S ⟨d.insert target t, reachable⟩, ?_, ih h.2 _⟩
        exact ⟨⟨t.subst S, (Ty.equal_iff _ _).mpr h.1, view_insert S ⟨d, reachable⟩ target t _⟩,
          trivial⟩

theorem targetTypes_infers (location : Location) (seen targets : List String) :
    Infers env (fun _ => True) (targetTypes location seen targets) := by
  induction targets generalizing seen with
  | nil => exact .pure trivial
  | cons target targets ih =>
    rw [targetTypes]
    refine .guard ?_
    refine freshType_infers.bind fun t _ => ?_
    exact (ih _).bind fun _ _ => .pure trivial

theorem loopVarType_infers (location : Location) (loopVar : String) (iterable : Typed.Expr) :
    Infers env (fun _ => True) (loopVarType location loopVar iterable) := by
  refine (resolve_infers iterable.type).bind fun t _ => ?_
  have checked : ∀ t : Ty, Infers env (fun _ => True) (do
      if t.hasUndetermined then
        .reject location (.loopVariableType loopVar)
      return t) := fun t => .guard (.pure trivial)
  split
  · exact (Infers.pure (P := fun _ => True) trivial).bind fun t _ => checked t
  · exact (Infers.pure (P := fun _ => True) trivial).bind fun t _ => checked t
  · exact Infers.reject.bind (P := fun _ => True) fun t _ => checked t

/-! ## Branches and loops -/

theorem branch_eq_ok {check : Check α} {r : α × Env} (h : branch env check s = .ok r s') :
    check { s with env } = .ok r.1 s' ∧ r.2 = s'.env := by
  obtain ⟨_, _, hs, h⟩ := bind_eq_ok.mp h
  cases modify_eq_ok.mp hs
  obtain ⟨a, s₁, ha, h⟩ := bind_eq_ok.mp h
  obtain ⟨_, _, hget, h⟩ := bind_eq_ok.mp h
  obtain ⟨rfl, rfl⟩ := get_eq_ok.mp hget
  obtain ⟨rfl, rfl⟩ := pure_eq_ok.mp h
  exact ⟨ha, rfl⟩

theorem loop_eq_ok {check : Check α} {a : α} (h : loop location check s = .ok a s') :
    ∃ s₃ s₄ m, check { s with loops := {} :: s.loops } = .ok a s₃ ∧
      s' = { s₄ with env := m } ∧ Inferred { s₃ with loops := s₃.loops.tail } s₄ ∧
      (s₃.subs.Solved → ∀ S, s₄.subs.Refines S → ∀ e ∈ s.env :: s₃.env ::
        ((s₃.loops.headD {}).continues ++ (s₃.loops.headD {}).breaks), e.Joined S m) ∧
      (m.reachable → ∃ e ∈ s.env :: s₃.env ::
        ((s₃.loops.headD {}).continues ++ (s₃.loops.headD {}).breaks), e.reachable) := by
  obtain ⟨_, _, hget, h⟩ := bind_eq_ok.mp h
  obtain ⟨rfl, rfl⟩ := get_eq_ok.mp hget
  obtain ⟨_, _, hset, h⟩ := bind_eq_ok.mp h
  cases modify_eq_ok.mp hset
  obtain ⟨_, s₃, hcheck, h⟩ := bind_eq_ok.mp h
  obtain ⟨_, _, hget, h⟩ := bind_eq_ok.mp h
  obtain ⟨rfl, rfl⟩ := get_eq_ok.mp hget
  obtain ⟨_, _, hset, h⟩ := bind_eq_ok.mp h
  cases set_eq_ok.mp hset
  obtain ⟨m₁, t₁, hm₁, h⟩ := bind_eq_ok.mp h
  obtain ⟨m₂, t₂, hm₂, h⟩ := bind_eq_ok.mp h
  obtain ⟨m, t₃, hm, h⟩ := bind_eq_ok.mp h
  obtain ⟨_, _, hset, h⟩ := bind_eq_ok.mp h
  cases modify_eq_ok.mp hset
  obtain ⟨rfl, rfl⟩ := pure_eq_ok.mp h
  obtain ⟨ends, joinEnds⟩ := merge_eq_ok hm₁
  obtain ⟨continues, joinContinues⟩ := mergeAll_eq_ok hm₂
  obtain ⟨breaks, joinBreaks⟩ := mergeAll_eq_ok hm
  refine ⟨s₃, t₃, m, hcheck, rfl, (ends.trans continues).trans breaks, fun hS S hr => ?_,
    fun hr => ?_⟩
  rotate_left
  · obtain ⟨e, he, live⟩ := reachable_of_mergeAll hm hr
    rcases List.mem_cons.mp he with rfl | he
    · obtain ⟨e, he, live⟩ := reachable_of_mergeAll hm₂ live
      rcases List.mem_cons.mp he with rfl | he
      · rcases reachable_of_merge hm₁ live with hl | hr
        · exact ⟨_, List.mem_cons_self, hl⟩
        · exact ⟨_, List.mem_cons_of_mem _ List.mem_cons_self, hr⟩
      · exact ⟨e, List.mem_cons_of_mem _ (List.mem_cons_of_mem _ (List.mem_append_left _ he)), live⟩
    · exact ⟨e, List.mem_cons_of_mem _ (List.mem_cons_of_mem _ (List.mem_append_right _ he)), live⟩
  have hS₁ := (ends.advances hS).solved
  have hS₂ := (continues.advances hS₁).solved
  have hr₂ := (breaks.advances hS₂).refines.trans hr
  have hr₁ := (continues.advances hS₁).refines.trans hr₂
  obtain ⟨last, brokeOut⟩ := List.forall_mem_cons.mp (joinBreaks hS₂ S hr)
  obtain ⟨before, continued⟩ := List.forall_mem_cons.mp (joinContinues hS₁ S hr₂)
  obtain ⟨entry, finish⟩ := joinEnds hS S hr₁
  refine List.forall_mem_cons.mpr ⟨entry.trans (before.trans last),
    List.forall_mem_cons.mpr ⟨finish.trans (before.trans last), List.forall_mem_append.mpr
      ⟨fun e he => (continued e he).trans last, brokeOut⟩⟩⟩

theorem inLoop_eq_ok {f : LoopFrame → LoopFrame} (h : inLoop location what f s = .ok () s') :
    ∃ frame loops, s.loops = frame :: loops ∧ s' = { s with loops := f frame :: loops } := by
  obtain ⟨_, _, hget, h⟩ := bind_eq_ok.mp h
  obtain ⟨rfl, rfl⟩ := get_eq_ok.mp hget
  cases hl : s.loops with
  | nil =>
    rw [hl] at h
    exact absurd h reject_ne_ok
  | cons frame loops =>
    rw [hl] at h
    exact ⟨frame, loops, rfl, (set_eq_ok.mp h).symm⟩

/-! ## Statements -/

theorem elaborated_statement {check : Check Typed.Stmt} {typed : Typed.Stmt}
    (h : Check.statement check s = .ok typed s')
    (hc : ∀ s₁ s₂ : BodyState, check s₁ = .ok typed s₂ → s₁.subs = s.subs →
      ∃ bs cs, Elaborated (fun S => .ofStmt (typed.subst S)) s₁ s₂ bs cs) :
    ∃ bs cs, Elaborated (fun S => .ofStmt (typed.subst S)) s s' bs cs := by
  obtain ⟨s₁, s₂, hcheck, settled, rfl⟩ := statement_eq_ok h
  obtain ⟨bs, cs, elaborated⟩ := hc _ s₁ hcheck rfl
  have := elaborated.settle settled
  exact ⟨bs, cs, this.advances, this.loops, this.admits, this.ends, this.jumps⟩

theorem elaborated_assign {target : String} {typed : Typed.Stmt}
    (h : (do
      let typed ← annotatedValue Γ location target stated value
      Check.bind target (stated.getD typed.type) location
      return Typed.Stmt.assign location target typed) s = .ok typed s') (hS : s.subs.Solved) :
    Elaborated (fun S => .ofStmt (typed.subst S)) s s' [] [] := by
  obtain ⟨e, s₁, he, h⟩ := bind_eq_ok.mp h
  obtain ⟨_, s₂, hb, h⟩ := bind_eq_ok.mp h
  obtain ⟨rfl, rfl⟩ := pure_eq_ok.mp h
  obtain ⟨evaluated, equal⟩ := annotatedValue_eq_ok he
  have bound : Stepped (fun S => [.bind target (e.subst S).type]) s₁ s₂ := by
    refine stepped_bind (fun S hr => ?_) hb
    rw [Typed.Expr.type_subst]
    exact equal hS S hr
  exact .of_stepped (evaluated.trans bound) hS

theorem elaborated_tupleAssign {targets : List String} {typed : Typed.Stmt}
    (h : (do
      let types ← targetTypes location [] targets
      let typed ← checkExpr Γ (some (.tuple types)) .consume value
      expect typed (.tuple types) location "tuple assignment"
      (targets.zip types).forM fun (target, t) => Check.bind target t location
      return Typed.Stmt.tupleAssign location targets typed) s = .ok typed s') (hS : s.subs.Solved) :
    Elaborated (fun S => .ofStmt (typed.subst S)) s s' [] [] := by
  obtain ⟨types, s₁, htypes, h⟩ := bind_eq_ok.mp h
  obtain ⟨e, s₂, he, h⟩ := bind_eq_ok.mp h
  obtain ⟨_, s₃, hexpect, h⟩ := bind_eq_ok.mp h
  obtain ⟨_, s₄, hbind, h⟩ := bind_eq_ok.mp h
  obtain ⟨rfl, rfl⟩ := pure_eq_ok.mp h
  have fresh := (targetTypes_infers location [] targets s types s₁ rfl htypes).1
  obtain ⟨evaluated, equal⟩ := stepped_expect he hexpect
  obtain ⟨bound, rfl⟩ := forM_bind_eq_ok hbind
  have hS₁ := (fresh.advances hS).solved
  have binds : Stepped (fun S => targets.zipWith .bind (components (e.subst S).type)) s₃
      { s₃ with
        env := ⟨(targets.zip types).foldl (fun d e => d.insert e.1 e.2) s₃.env.bindings,
          s₃.env.reachable⟩
        bound } := by
    refine ⟨fun hS => .refl hS, rfl, rfl, fun _ S hr => ?_⟩
    have htuple := equal hS₁ S hr
    rw [Ty.subst_tuple] at htuple
    obtain ⟨elems, htype, helems⟩ := Ty.eq_tuple_of_equal htuple
    rw [Typed.Expr.type_subst, htype, components]
    exact steps_bindAll targets helems _ _
  exact .of_stepped (fresh.settled.trans (evaluated.trans binds)) hS

theorem elaborated_leave {p : Substitution → List Action} (h : Stepped p s s₁)
    (hj : jump s₁ = .ok () s') (hS : s.subs.Solved) :
    Elaborated (fun S => .run (p S ++ [.leave]) .returned) s s' [] [] := by
  cases modify_eq_ok.mp hj
  refine ⟨h.advances hS, by simp [h.loops], fun S hr _ => ⟨view S s₁.env, ?_, trivial⟩,
    fun hr => absurd hr Bool.false_ne_true, by simp⟩
  exact FlowAnalysis.steps_append.mpr
    ⟨_, h.steps hS S hr, FlowAnalysis.steps_singleton.mpr ⟨rfl, trivial⟩⟩

theorem elaborated_break
    (hl : inLoop location what (fun frame => { frame with breaks := frame.breaks ++ [s.env] }) s =
      .ok () s₁) (hj : jump s₁ = .ok () s') (hS : s.subs.Solved) :
    Elaborated (fun _ => .run [] .broke) s s' [s.env] [] := by
  obtain ⟨frame, loops, hloops, rfl⟩ := inLoop_eq_ok hl
  cases modify_eq_ok.mp hj
  refine ⟨.refl hS, by simp [addJumps, hloops], fun S _ hs => ⟨_, rfl, s.env, ?_, hs, rfl⟩,
    fun hr => absurd hr Bool.false_ne_true, by simp⟩
  exact List.mem_singleton_self _

theorem elaborated_continue
    (hl : inLoop location what
      (fun frame => { frame with continues := frame.continues ++ [s.env] }) s = .ok () s₁)
    (hj : jump s₁ = .ok () s') (hS : s.subs.Solved) :
    Elaborated (fun _ => .run [] .continued) s s' [] [s.env] := by
  obtain ⟨frame, loops, hloops, rfl⟩ := inLoop_eq_ok hl
  cases modify_eq_ok.mp hj
  refine ⟨.refl hS, by simp [addJumps, hloops], fun S _ hs => ⟨_, rfl, s.env, ?_, hs, rfl⟩,
    fun hr => absurd hr Bool.false_ne_true, by simp⟩
  exact List.mem_singleton_self _

mutual

theorem elaborated_stmt : ∀ (stmt : Source.Stmt) {typed : Typed.Stmt} {s s' : BodyState},
    checkStmt Γ stmt s = .ok typed s' → s.subs.Solved →
    ∃ bs cs, Elaborated (fun S => .ofStmt (typed.subst S)) s s' bs cs
  | .assign location target value stated, typed, s, s', h, hS =>
    elaborated_statement h fun _ _ h hs => ⟨[], [], elaborated_assign h (hs ▸ hS)⟩
  | .tupleAssign location targets value, typed, s, s', h, hS =>
    elaborated_statement h fun _ _ h hs => ⟨[], [], elaborated_tupleAssign h (hs ▸ hS)⟩
  | .expr location value, typed, s, s', h, hS => elaborated_statement h fun _ _ h hs => by
    obtain ⟨e, s₁, he, h⟩ := bind_eq_ok.mp h
    obtain ⟨rfl, rfl⟩ := pure_eq_ok.mp h
    exact ⟨[], [], .of_stepped (stepped_checkExpr he) (hs ▸ hS)⟩
  | .ret location (some value), typed, s, s', h, hS => elaborated_statement h fun _ _ h hs => by
    obtain ⟨e, s₁, he, h⟩ := bind_eq_ok.mp h
    obtain ⟨_, s₂, ht, h⟩ := bind_eq_ok.mp h
    obtain ⟨_, s₃, hj, h⟩ := bind_eq_ok.mp h
    obtain ⟨rfl, rfl⟩ := pure_eq_ok.mp h
    exact ⟨[], [], elaborated_leave (stepped_expect he ht).1 hj (hs ▸ hS)⟩
  | .ret location none, typed, s, s', h, hS => elaborated_statement h fun _ _ h hs => by
    obtain ⟨_, s₁, ht, h⟩ := bind_eq_ok.mp h
    obtain ⟨_, s₂, hj, h⟩ := bind_eq_ok.mp h
    obtain ⟨rfl, rfl⟩ := pure_eq_ok.mp h
    exact ⟨[], [], elaborated_leave (unifyAt_eq_ok ht).1.settled hj (hs ▸ hS)⟩
  | .branch location cond thenBody elseBody, typed, s, s', h, hS =>
    elaborated_statement h fun t t' h hs => by
    obtain ⟨e, s₁, he, h⟩ := bind_eq_ok.mp h
    obtain ⟨_, _, hget, h⟩ := bind_eq_ok.mp h
    obtain ⟨rfl, rfl⟩ := get_eq_ok.mp hget
    obtain ⟨⟨thenTyped, afterThen⟩, s₂, hb, h⟩ := bind_eq_ok.mp h
    obtain ⟨hthen, rfl⟩ := branch_eq_ok hb
    obtain ⟨⟨elseTyped, afterElse⟩, s₃, hb, h⟩ := bind_eq_ok.mp h
    obtain ⟨helse, rfl⟩ := branch_eq_ok hb
    obtain ⟨m, s₄, hm, h⟩ := bind_eq_ok.mp h
    obtain ⟨_, _, hset, h⟩ := bind_eq_ok.mp h
    cases modify_eq_ok.mp hset
    obtain ⟨rfl, rfl⟩ := pure_eq_ok.mp h
    have tested := Elaborated.of_stepped (stepped_condition he) (hs ▸ hS)
    obtain ⟨bs, cs, ethen⟩ := elaborated_block thenBody hthen tested.advances.solved
    obtain ⟨bs', cs', eelse⟩ := elaborated_block elseBody helse ethen.advances.solved
    exact ⟨_, _, tested.seq (ethen.choice eelse hm)⟩
  | .whileLoop location cond body, typed, s, s', h, hS => elaborated_statement h fun t t' h hs => by
    obtain ⟨e, s₁, he, h⟩ := bind_eq_ok.mp h
    obtain ⟨bodyTyped, s₂, hloop, h⟩ := bind_eq_ok.mp h
    obtain ⟨rfl, rfl⟩ := pure_eq_ok.mp h
    obtain ⟨s₃, s₄, m, hbody, rfl, inferred, joined, live⟩ := loop_eq_ok hloop
    have tested := stepped_condition he
    have advances := tested.advances (hs ▸ hS)
    obtain ⟨bs, cs, ebody⟩ := elaborated_block body hbody advances.solved
    have hloops : s₃.loops = { breaks := bs, continues := cs } :: s₁.loops := ebody.loops
    simp only [hloops] at joined live
    have settled : Settled s₁ s₁ := (Inferred.refl s₁).settled
    exact ⟨[], [], .loop (hs ▸ hS) tested settled ebody
      (inferred.advances ebody.advances.solved) inferred.loops
      (joined ebody.advances.solved) live⟩
  | .forLoop location loopVar iterable body, typed, s, s', h, hS =>
    elaborated_statement h fun t t' h hs => by
    obtain ⟨e, s₁, he, h⟩ := bind_eq_ok.mp h
    obtain ⟨varType, s₂, hvar, h⟩ := bind_eq_ok.mp h
    obtain ⟨_, _, hget, h⟩ := bind_eq_ok.mp h
    obtain ⟨rfl, rfl⟩ := get_eq_ok.mp hget
    obtain ⟨_, _, hset, h⟩ := bind_eq_ok.mp h
    cases modify_eq_ok.mp hset
    obtain ⟨bodyTyped, s₃, hloop, h⟩ := bind_eq_ok.mp h
    obtain ⟨_, _, hget, h⟩ := bind_eq_ok.mp h
    obtain ⟨rfl, rfl⟩ := get_eq_ok.mp hget
    obtain ⟨m, s₄, hm, h⟩ := bind_eq_ok.mp h
    obtain ⟨_, _, hset, h⟩ := bind_eq_ok.mp h
    cases modify_eq_ok.mp hset
    obtain ⟨rfl, rfl⟩ := pure_eq_ok.mp h
    obtain ⟨s₅, s₆, head, hbody, rfl, inferred, joined, live⟩ := loop_eq_ok hloop
    obtain ⟨merged, joinedBefore⟩ := merge_eq_ok hm
    obtain ⟨evaluated, named⟩ := checkExpr_infers Γ none .consume iterable t e s₁ rfl he
    obtain ⟨typed, -⟩ := loopVarType_infers location loopVar e s₁ varType s₂ rfl hvar
    have ran := Elaborated.of_stepped (stepped_evaluation (evaluated.trans typed) named) (hs ▸ hS)
    have settled : Settled s₂ s₂ := (Inferred.refl s₂).settled
    have entered := stepped_enter s₂ loopVar varType
    obtain ⟨bs, cs, ebody⟩ := elaborated_block body hbody ran.advances.solved
    have hloops : s₅.loops = { breaks := bs, continues := cs } :: s₂.loops := ebody.loops
    simp only [hloops] at joined live
    have hexit := inferred.advances ebody.advances.solved
    have hmerged := merged.advances hexit.solved
    refine ⟨_, _, ran.seq (.loop ran.advances.solved settled entered ebody
      (hexit.trans hmerged) (merged.loops.trans inferred.loops) (fun S hr => ?_) fun hr => ?_)⟩
    -- The body may not run at all, so the environment before the loop is joined as well.
    · obtain ⟨hbefore, hhead⟩ := joinedBefore hexit.solved S hr
      obtain ⟨-, edges⟩ := List.forall_mem_cons.mp
        (joined ebody.advances.solved S (hmerged.refines.trans hr))
      exact List.forall_mem_cons.mpr ⟨hbefore, fun f hf => (edges f hf).trans hhead⟩
    · rcases reachable_of_merge hm hr with hl | hr
      · exact ⟨s₂.env, List.mem_cons_self, hl⟩
      · obtain ⟨e, he, live⟩ := live hr
        rcases List.mem_cons.mp he with rfl | he
        · exact ⟨s₂.env, List.mem_cons_self, live⟩
        · exact ⟨e, List.mem_cons_of_mem _ he, live⟩
  | .breakLoop location, typed, s, s', h, hS => elaborated_statement h fun _ _ h hs => by
    obtain ⟨_, _, hget, h⟩ := bind_eq_ok.mp h
    obtain ⟨rfl, rfl⟩ := get_eq_ok.mp hget
    obtain ⟨_, s₁, hl, h⟩ := bind_eq_ok.mp h
    obtain ⟨_, s₂, hj, h⟩ := bind_eq_ok.mp h
    obtain ⟨rfl, rfl⟩ := pure_eq_ok.mp h
    exact ⟨_, _, elaborated_break hl hj (hs ▸ hS)⟩
  | .continueLoop location, typed, s, s', h, hS => elaborated_statement h fun _ _ h hs => by
    obtain ⟨_, _, hget, h⟩ := bind_eq_ok.mp h
    obtain ⟨rfl, rfl⟩ := get_eq_ok.mp hget
    obtain ⟨_, s₁, hl, h⟩ := bind_eq_ok.mp h
    obtain ⟨_, s₂, hj, h⟩ := bind_eq_ok.mp h
    obtain ⟨rfl, rfl⟩ := pure_eq_ok.mp h
    exact ⟨_, _, elaborated_continue hl hj (hs ▸ hS)⟩

theorem elaborated_block : ∀ (stmts : List Source.Stmt) {typed : List Typed.Stmt}
    {s s' : BodyState}, checkBlock Γ stmts s = .ok typed s' → s.subs.Solved →
    ∃ bs cs, Elaborated (fun S => .ofBlock (Typed.Stmt.substAll S typed)) s s' bs cs
  | [], typed, s, s', h, hS => by
    obtain ⟨rfl, rfl⟩ := pure_eq_ok.mp h
    exact ⟨[], [], .of_stepped (Inferred.refl s).settled hS⟩
  | stmt :: stmts, typed, s, s', h, hS => by
    obtain ⟨first, s₁, hfirst, h⟩ := bind_eq_ok.mp h
    obtain ⟨rest, s₂, hrest, h⟩ := bind_eq_ok.mp h
    obtain ⟨rfl, rfl⟩ := pure_eq_ok.mp h
    obtain ⟨bs, cs, efirst⟩ := elaborated_stmt stmt hfirst hS
    obtain ⟨bs', cs', erest⟩ := elaborated_block stmts hrest efirst.advances.solved
    exact ⟨_, _, efirst.seq erest⟩

end

/-! ## Functions -/

/-- The types of the parameters of a function. -/
def paramTypes (ps : List Param) : LocalTypes := fun x => (lastParam ps x).map (·.type)

theorem get?_paramEnv (ps : List Param) (x : String) :
    (paramEnv ps).bindings.get? x = paramTypes ps x := by
  have folded : ∀ d : Dict String Ty,
      ((ps.map fun p => (p.name, p.type)).foldl (fun d e => d.insert e.1 e.2) d).get? x =
        (paramTypes ps x).or (d.get? x) := by
    induction ps with
    | nil => exact fun _ => rfl
    | cons p ps ih =>
      intro d
      rw [List.map_cons, List.foldl_cons, ih, Dict.get?_insert, paramTypes, paramTypes,
        lastParam_cons]
      cases lastParam ps x with
      | some q => rfl
      | none =>
        by_cases hx : p.name = x
        · simp [hx]
        · simp [hx, Ne.symm hx]
  exact (folded ∅).trans Option.or_none

theorem paramTypes_subst (S : Substitution) (ps : List Param) (x : String) :
    paramTypes (ps.map fun p => { p with type := p.type.subst S }) x =
      (paramTypes ps x).map (Ty.subst S) := by
  simp [paramTypes, lastParam, ← List.map_reverse, List.find?_map, Function.comp_def]

/-- What the body of a function is checked with. -/
def bodyScope (T : SignatureTable) (sig : Signature) (body : List Source.Stmt) : Scope where
  table := T
  function := sig.name
  generics := sig.generics
  result := sig.result
  assigned := assignedNamesAll body

section Functions

variable {T : SignatureTable} {owner : Option StructDecl} {f : Source.FunctionDef}
  {typed : Typed.Function} {memory memory' : CheckerMemory} {sig : Signature}

theorem checkParams_eq_ok {gs : Generics} {function : String} {location : Location}
    {seen : List String} {ps : List Param}
    (h : checkParams T gs function location seen ps = .ok ()) :
    ∀ p ∈ ps, checkType T gs location p.type = .ok () := by
  induction ps generalizing seen with
  | nil => exact nofun
  | cons p ps ih =>
    rw [checkParams] at h
    split at h
    · obtain ⟨_, h, -⟩ := except_bind_eq_ok.mp h
      exact absurd h failure_ne_ok
    · obtain ⟨_, hp, h⟩ := except_bind_eq_ok.mp h
      exact List.forall_mem_cons.mpr ⟨hp, ih h⟩

theorem checkSignature_eq_ok {location : Location}
    (h : checkSignature T owner sig location = .ok ()) :
    checkGenerics sig.generics location = .ok () ∧
      (∀ p ∈ sig.params, checkType T sig.generics location p.type = .ok ()) ∧
      checkType T sig.generics location sig.result = .ok () := by
  obtain ⟨_, generics, h⟩ := except_bind_eq_ok.mp h
  obtain ⟨_, params, h⟩ := except_bind_eq_ok.mp h
  obtain ⟨_, result, -⟩ := except_bind_eq_ok.mp h
  exact ⟨generics, checkParams_eq_ok params, result⟩

/-- What has been checked if a function is elaborated. -/
structure Checked (T : SignatureTable) (owner : Option StructDecl) (f : Source.FunctionDef)
    (sig : Signature) (memory : CheckerMemory) (typed : Typed.Function) (memory' : CheckerMemory)
    (checked : Typed.Function) (final : BodyState) : Prop where
  generics : checkGenerics sig.generics f.location = .ok ()
  params : ∀ p ∈ sig.params, checkType T sig.generics f.location p.type = .ok ()
  result : checkType T sig.generics f.location sig.result = .ok ()
  body : checkBlock (bodyScope T sig f.body) f.body
    { toCheckerMemory := memory, env := paramEnv sig.params } = .ok checked.body final
  header : checked.generics = sig.generics ∧ checked.params = sig.params ∧
    checked.result = sig.result
  names : checked.name = f.name ∧ checked.owner = (owner.map (·.name)).getD ""
  typed : typed = checked.subst final.subs
  memory : memory' = final.toCheckerMemory

theorem exists_checked (signature : signatureOf owner f = .ok sig)
    (h : checkFunction T owner f memory = .ok typed memory') :
    ∃ checked final, (final.env.reachable → sig.result.equal .none) ∧
      Checked T owner f sig memory typed memory' checked final := by
  obtain ⟨_, _, hsig, h⟩ := bind_eq_ok.mp h
  obtain ⟨same, rfl⟩ := ofExcept_eq_ok.mp hsig
  cases signature.symm.trans same
  obtain ⟨_, _, hcheck, h⟩ := bind_eq_ok.mp h
  obtain ⟨header, rfl⟩ := ofExcept_eq_ok.mp hcheck
  obtain ⟨generics, params, result⟩ := checkSignature_eq_ok header
  obtain ⟨⟨body, final⟩, memory₁, hbody, h⟩ := bind_eq_ok.mp h
  unfold Check.withMemory at hbody
  split at hbody
  · rename_i hblock
    cases hbody
    dsimp only at h
    rw [Typed.Function.replace_eq] at h
    split at h
    · obtain ⟨_, _, h, -⟩ := bind_eq_ok.mp h
      exact absurd h reject_ne_ok
    · rename_i returns
      obtain ⟨typed_eq, memory_eq⟩ := pure_eq_ok.mp h
      refine ⟨_, final, fun hr => by simpa [hr] using returns, generics, params, result, ?_,
        ⟨?_, ?_, ?_⟩, ⟨?_, ?_⟩, typed_eq.symm, memory_eq.symm⟩
      · exact hblock
      all_goals rfl
  · cases hbody

/-- **A function is checked as its body is**, from the types of its parameters, and what has been
    found out is put in. -/
theorem checkFunction_eq_ok (h : checkFunction T owner f memory = .ok typed memory') :
    ∃ (sig : Signature) (checked : Typed.Function) (final : BodyState),
      signatureOf owner f = .ok sig ∧ checked.params = sig.params ∧
      checked.result = sig.result ∧ (final.env.reachable → sig.result.equal .none) ∧
      checkBlock (bodyScope T sig f.body) f.body
        { toCheckerMemory := memory, env := paramEnv sig.params } = .ok checked.body final ∧
      typed = checked.subst final.subs := by
  obtain ⟨sig, _, hsig, -⟩ := bind_eq_ok.mp h
  obtain ⟨signature, -⟩ := ofExcept_eq_ok.mp hsig
  obtain ⟨checked, final, returns, run⟩ := exists_checked signature h
  exact ⟨sig, checked, final, signature, run.header.2.1, run.header.2.2, returns, run.body,
    run.typed⟩

/-- **The type flow analysis admits every function that the checker accepts**, from the types
    of its parameters. -/
theorem admits_of_checkFunction (h : checkFunction T owner f memory = .ok typed memory') :
    typeFlow.Admits (.ofFunction typed) (paramTypes typed.params) fun _ _ => True := by
  obtain ⟨sig, checked, final, -, params, -, -, hblock, rfl⟩ := checkFunction_eq_ok h
  obtain ⟨bs, cs, elaborated⟩ := elaborated_block f.body hblock Substitution.solved_empty
  have entry : paramTypes (checked.subst final.subs).params =
      view final.subs (paramEnv sig.params) := by
    funext x
    rw [view, get?_paramEnv, Typed.Function.subst, paramTypes_subst, params]
  have admits := elaborated.admits final.subs elaborated.advances.solved.refines rfl
  rw [entry, Control.ofFunction]
  refine admits.mono fun o E _ => ?_
  cases o with
  | normal => exact ⟨E, FlowAnalysis.steps_singleton.mpr ⟨rfl, trivial⟩, trivial⟩
  | broke | continued | returned => trivial

end Functions

end

end QuantumStatics.Elaboration
