/-
  The checker goes through a function as the flow analysis does.

  Following the bindings through a statement ends with the bindings behind it, unless it
  cannot be reached, and records the bindings at every jump in the innermost loop.
  `Followed` says so together with what the flow analysis makes of the statement.  It is
  put together from the parts of a statement: actions in a row, sequences, branches, loops.
-/
import QuantumStatics.Proofs.Consumption.Traced

namespace QuantumStatics.Consumption

open Execution Typed

/-- Adds jumps to the innermost loop. -/
def addJumps (bs cs : List Flow) : List LoopFrame → List LoopFrame
  | [] => []
  | frame :: frames =>
    { frame with breaks := frame.breaks ++ bs, continues := frame.continues ++ cs } :: frames

/-- No loop runs over elements that have to be consumed. -/
def NoneSealed (loops : List LoopFrame) : Prop := ∀ frame ∈ loops, frame.linearElements = false

/-- The innermost loop runs over an array of linear elements. -/
def InnermostSealed (loops : List LoopFrame) : Prop :=
  ∃ frame ∈ loops.head?, frame.linearElements = true

section Jumps

variable {bs cs bs' cs' : List Flow} {loops : List LoopFrame}

@[simp] theorem addJumps_nil : addJumps [] [] loops = loops := by
  cases loops <;> simp [addJumps]

theorem addJumps_addJumps :
    addJumps bs' cs' (addJumps bs cs loops) = addJumps (bs ++ bs') (cs ++ cs') loops := by
  cases loops <;> simp [addJumps]

@[simp] theorem noneSealed_addJumps : NoneSealed (addJumps bs cs loops) ↔ NoneSealed loops := by
  cases loops <;> simp [addJumps, NoneSealed]

@[simp] theorem innermostSealed_addJumps :
    InnermostSealed (addJumps bs cs loops) ↔ InnermostSealed loops := by
  cases loops <;> simp [addJumps, InnermostSealed]

end Jumps

/-- Where a statement leads: on with `flow`, out of a loop or round again by one of the jumps. -/
def endsWith (flow : Flow) (bs cs : List Flow) (loops : List LoopFrame) : Post Bindings
  | .normal, F => flow.reachable ∧ F = flow.bindings
  | .broke, F => ∃ b ∈ bs, F = b.bindings
  | .continued, F => ∃ c ∈ cs, F = c.bindings
  | .returned, _ => NoneSealed loops

section

variable {flow flow' : Flow} {bs bs' cs cs' : List Flow} {loops loops' : List LoopFrame}
  {o : Outcome} {F : Bindings}

theorem endsWith_mono (hb : bs ⊆ bs') (hc : cs ⊆ cs') (hl : NoneSealed loops → NoneSealed loops')
    (h : endsWith flow bs cs loops o F) : endsWith flow bs' cs' loops' o F := by
  cases o with
  | normal => exact h
  | broke =>
    obtain ⟨f, hf, rfl⟩ := h
    exact ⟨f, hb hf, rfl⟩
  | continued =>
    obtain ⟨f, hf, rfl⟩ := h
    exact ⟨f, hc hf, rfl⟩
  | returned => exact hl h

theorem endsWith_onNormal {next : Bindings → Prop} (hb : bs ⊆ bs') (hc : cs ⊆ cs')
    (hl : NoneSealed loops → NoneSealed loops') (hn : flow.reachable → next flow.bindings)
    (h : endsWith flow bs cs loops o F) : (endsWith flow' bs' cs' loops').onNormal next o F := by
  have h' := endsWith_mono hb hc hl h
  cases o with
  | normal => exact h.2 ▸ hn h.1
  | broke | continued | returned => exact h'

end

/-- Between two states, the checker has followed the bindings through a control flow, and
    has met the jumps `bs` out of the innermost loop and `cs` to its next iteration. -/
structure Followed (borrowed : String → Prop) (agree : Prop) (c : Control) (st st₁ : FlowState)
    (bs cs : List Flow) : Prop where
  memo : st.memo.Grows st₁.memo
  loops : st₁.loops = addJumps bs cs st.loops
  sane : st₁.flow.reachable → st₁.flow.Sane borrowed
  breaks : ∀ b ∈ bs, b.Sane borrowed
  continues : ∀ c ∈ cs, c.Sane borrowed
  noBreak : InnermostSealed st.loops → bs = []
  admits (final : ClassMemo) : st₁.memo.Grows final →
    (consumption final.classOf borrowed agree).Admits c st.flow.bindings
      (endsWith st₁.flow bs cs st.loops)
  ends : st₁.flow.reachable → ∃ p, c.Path p .normal

namespace Followed

variable {borrowed : String → Prop} {agree : Prop} {a b : Control} {st st₁ st₂ : FlowState}
  {bs cs bs' cs' : List Flow} {p : List Action} {location : Location}

theorem of_traced (h : Traced borrowed agree p st st₁) (hs : st.flow.Sane borrowed) :
    Followed borrowed agree (.run p .normal) st st₁ [] [] where
  memo := h.memo
  loops := by simp [h.loops]
  sane _ := h.sane hs
  breaks := nofun
  continues := nofun
  noBreak _ := rfl
  admits final hg := ⟨_, h.steps final hg, h.reachable.trans hs.reachable, rfl⟩
  ends _ := ⟨p, .run p .normal⟩

theorem seq (ha : Followed borrowed agree a st st₁ bs cs) (hr : st₁.flow.reachable)
    (hb : Followed borrowed agree b st₁ st₂ bs' cs') :
    Followed borrowed agree (.seq a b) st st₂ (bs ++ bs') (cs ++ cs') where
  memo := ha.memo.trans hb.memo
  loops := by rw [hb.loops, ha.loops, addJumps_addJumps]
  sane := hb.sane
  breaks := List.forall_mem_append.mpr ⟨ha.breaks, hb.breaks⟩
  continues := List.forall_mem_append.mpr ⟨ha.continues, hb.continues⟩
  noBreak hl := by
    rw [ha.noBreak hl, hb.noBreak (by rw [ha.loops]; exact innermostSealed_addJumps.mpr hl)]
    rfl
  admits final hg := by
    refine (ha.admits final (hb.memo.trans hg)).mono fun o F => endsWith_onNormal
      (List.subset_append_left ..) (List.subset_append_left ..) id fun _ => ?_
    refine (hb.admits final hg).mono fun o F => endsWith_mono (List.subset_append_right ..)
      (List.subset_append_right ..) ?_
    rw [ha.loops]
    exact noneSealed_addJumps.mp
  ends hr' := by
    obtain ⟨p, hp⟩ := ha.ends hr
    obtain ⟨q, hq⟩ := hb.ends hr'
    exact ⟨p ++ q, hp.seq hq⟩

theorem stop {warnings : List Diagnostic} (ha : Followed borrowed agree a st st₁ bs cs)
    (hr : ¬ st₁.flow.reachable) :
    Followed borrowed agree (.seq a b) st { st₁ with warnings } bs cs where
  memo := ha.memo
  loops := ha.loops
  sane := ha.sane
  breaks := ha.breaks
  continues := ha.continues
  noBreak := ha.noBreak
  admits final hg := by
    exact (ha.admits final hg).mono fun o F => endsWith_onNormal (List.Subset.refl _)
      (List.Subset.refl _) id fun h => absurd h hr
  ends h := absurd h hr

theorem choice {m : Flow} (ha : Followed borrowed agree a st st₁ bs cs)
    (hb : Followed borrowed agree b { st₁ with flow := st.flow } st₂ bs' cs')
    (hm : st₁.flow.merge location st₂.flow = .ok m)
    (hagree : agree → Agreeing [(st₁.flow, st₂.flow)]) :
    Followed borrowed agree (.choice a b) st { st₂ with flow := m } (bs ++ bs') (cs ++ cs') := by
  obtain ⟨saneM, left, right⟩ := Flow.covered_of_branches hm ha.sane hb.sane hagree
  refine ⟨ha.memo.trans hb.memo, ?_, saneM, List.forall_mem_append.mpr ⟨ha.breaks, hb.breaks⟩,
    List.forall_mem_append.mpr ⟨ha.continues, hb.continues⟩, fun hl => ?_, fun final hg => ?_,
    fun hr => (Flow.reachable_of_merge hm hr).elim (fun h => (ha.ends h).imp fun p => .inl)
      fun h => (hb.ends h).imp fun p => .inr⟩
  · rw [hb.loops, ha.loops, addJumps_addJumps]
  · have hl' : InnermostSealed st₁.loops := by
      rw [ha.loops]
      exact innermostSealed_addJumps.mpr hl
    rw [ha.noBreak hl, hb.noBreak hl']
    rfl
  · refine ⟨if m.reachable then some m.bindings else none, fun F hF => ?_,
      (ha.admits final (hb.memo.trans hg)).mono fun o F => endsWith_onNormal
        (List.subset_append_left ..) (List.subset_append_left ..) id fun h => ?_,
      (hb.admits final hg).mono fun o F => endsWith_onNormal (List.subset_append_right ..)
        (List.subset_append_right ..) (fun hl => ?_) fun h => ?_⟩
    · split at hF
      · rename_i hr
        cases hF
        exact ⟨hr, rfl⟩
      · cases hF
    · obtain ⟨hr, hc⟩ := left h
      exact ⟨m.bindings, by simp [hr], hc⟩
    · rw [ha.loops] at hl
      exact noneSealed_addJumps.mp hl
    · obtain ⟨hr, hc⟩ := right h
      exact ⟨m.bindings, by simp [hr], hc⟩

theorem sane_edges (h : Followed borrowed agree a st st₁ bs cs) (frame : LoopFrame) :
    ∀ r ∈ LoopFrame.edges { frame with breaks := bs, continues := cs } st₁.flow ++ bs,
      r.Sane borrowed := by
  refine List.forall_mem_append.mpr ⟨?_, h.breaks⟩
  unfold LoopFrame.edges
  split
  · rename_i hr
    exact List.forall_mem_cons.mpr ⟨h.sane hr, h.continues⟩
  · exact h.continues

theorem loop {st₃ : FlowState} {elements : Option Ty} {test enter : List Action} {body : Control}
    {frame : LoopFrame} {m : Flow} (hs : st.flow.Sane borrowed)
    (htest : Traced borrowed agree test st st₁) (henter : Traced borrowed agree enter st₁ st₂)
    (hbody : Followed borrowed agree body { st₂ with loops := frame :: st₂.loops } st₃ bs cs)
    (hframe : frame.entry = st₁.flow ∧ frame.breaks = [] ∧ frame.continues = [])
    (hopen : ∀ final, st₂.memo.Grows final → ∀ t ∈ elements, final.classOf t = .linear →
      frame.linearElements = true)
    (hexit : (st₃.loops.headD frame).exit st₃.flow location = .ok m)
    (hagree : agree → ∀ frame' ∈ st₃.loops.head?,
      Agreeing (frame'.entry.joins location (frame'.edges st₃.flow ++ frame'.breaks))) :
    Followed borrowed agree (.loop elements test enter body) st
      { st₃ with loops := st₃.loops.tail, flow := m } [] [] := by
  obtain ⟨hentry, hbreaks, hcontinues⟩ := hframe
  have hloops : st₃.loops = { frame with breaks := bs, continues := cs } :: st₂.loops := by
    simpa [addJumps, hbreaks, hcontinues] using hbody.loops
  rw [hloops] at hexit hagree
  have hmerge := LoopFrame.mergeAll_of_exit hexit
  simp only [List.headD_cons] at hmerge
  rw [hentry] at hmerge
  have edge : st₃.flow.reachable → st₃.flow ∈
      LoopFrame.edges { frame with breaks := bs, continues := cs } st₃.flow ++ bs := by
    intro hr
    simp [LoopFrame.edges, hr]
  have continued : ∀ c ∈ cs, c ∈
      LoopFrame.edges { frame with breaks := bs, continues := cs } st₃.flow ++ bs := by
    intro c hc
    refine List.mem_append_left _ ?_
    unfold LoopFrame.edges
    split
    · exact List.mem_cons_of_mem _ hc
    · exact hc
  obtain ⟨saneM, entryCovered, covered⟩ := Flow.covered_of_mergeAll hmerge (htest.sane hs)
    (hbody.sane_edges frame) fun h => by simpa [hentry] using hagree h _ rfl
  have grows {final : ClassMemo} (hg : st₃.memo.Grows final) : st₂.memo.Grows final :=
    hbody.memo.trans hg
  refine ⟨htest.memo.trans (henter.memo.trans hbody.memo), ?_, fun _ => saneM, nofun, nofun,
    fun _ => rfl, fun final hg => ⟨st₁.flow.bindings, st₂.flow.bindings, m.bindings,
      htest.steps final (henter.memo.trans (grows hg)), henter.steps final (grows hg),
      entryCovered, ⟨saneM.reachable, rfl⟩, (hbody.admits final hg).mono fun o F hF => ?_⟩,
    fun _ => ⟨_, .loop .nil .done⟩⟩
  · simp [hloops, henter.loops, htest.loops]
  · have isOpen : frame.linearElements = false →
        (consumption final.classOf borrowed agree).Open elements := by
      intro hf t ht hlin
      cases hf.symm.trans (hopen final (grows hg) t ht hlin)
    cases o with
    | normal =>
      obtain ⟨hr, rfl⟩ := hF
      exact ⟨⟨m.bindings, entryCovered, covered _ (edge hr)⟩, covered _ (edge hr)⟩
    | continued =>
      obtain ⟨c, hc, rfl⟩ := hF
      exact ⟨⟨m.bindings, entryCovered, covered _ (continued c hc)⟩, covered _ (continued c hc)⟩
    | broke =>
      obtain ⟨b, hb, rfl⟩ := hF
      refine ⟨isOpen (Bool.eq_false_iff.mpr fun hf => ?_), covered _ (List.mem_append_right _ hb)⟩
      rw [hbody.noBreak ⟨frame, rfl, hf⟩] at hb
      cases hb
    | returned =>
      obtain ⟨hf, hfs⟩ := List.forall_mem_cons.mp hF
      refine ⟨isOpen hf, fun frame' h => hfs frame' ?_⟩
      rwa [henter.loops, htest.loops]

end Followed

section

variable {borrowed : String → Prop} {agree : Prop} {st st₁ : FlowState} {name loopVar : String}
  {location : Location} {frame : LoopFrame} {varType : Ty} {iterable condition : Expr}
  {body : List Stmt} {flow : Flow} {follow : Follow Unit} {js js' : List (Flow × Flow)}
  {f : Function} {memo : ClassMemo}

/-! ## Statements -/

-- Most of the proofs below rewrite by the equations of the checker: they are generated once, here.
attribute [local simp] checkStmt checkBlock

theorem branch_eq_ok {f : Flow} (h : Follow.branch flow follow st = .ok f st₁) :
    follow { st with flow } = .ok () st₁ ∧ f = st₁.flow := by
  obtain ⟨_, s, hs, h⟩ := bind_eq_ok.mp h
  cases modify_eq_ok.mp hs
  obtain ⟨_, s, hf, h⟩ := bind_eq_ok.mp h
  obtain ⟨_, _, hget, h⟩ := bind_eq_ok.mp h
  obtain ⟨rfl, rfl⟩ := get_eq_ok.mp hget
  obtain ⟨rfl, rfl⟩ := pure_eq_ok.mp h
  exact ⟨hf, rfl⟩

theorem loop_eq_ok (h : Follow.loop frame location follow st = .ok () st₁) :
    ∃ s m, follow { st with loops := frame :: st.loops } = .ok () s ∧
      (s.loops.headD frame).exit s.flow location = .ok m ∧
      st₁ = { s with loops := s.loops.tail, flow := m } := by
  obtain ⟨_, s, hs, h⟩ := bind_eq_ok.mp h
  cases modify_eq_ok.mp hs
  obtain ⟨_, s, hf, h⟩ := bind_eq_ok.mp h
  obtain ⟨_, _, hget, h⟩ := bind_eq_ok.mp h
  obtain ⟨rfl, rfl⟩ := get_eq_ok.mp hget
  obtain ⟨_, _, hset, h⟩ := bind_eq_ok.mp h
  cases set_eq_ok.mp hset
  obtain ⟨m, _, hexit, h⟩ := bind_eq_ok.mp h
  obtain ⟨hm, rfl⟩ := ofExcept_eq_ok.mp hexit
  exact ⟨s, m, hf, hm, (modify_eq_ok.mp h).symm⟩

theorem currentLoop_eq_ok (h : Follow.currentLoop location st = .ok frame st₁) :
    st.loops = frame :: st.loops.tail ∧ st = st₁ := by
  obtain ⟨_, _, hget, h⟩ := bind_eq_ok.mp h
  obtain ⟨rfl, rfl⟩ := get_eq_ok.mp hget
  cases hl : st.loops with
  | nil =>
    rw [hl] at h
    exact absurd h defect_ne_ok
  | cons frame' frames =>
    rw [hl] at h
    obtain ⟨rfl, rfl⟩ := pure_eq_ok.mp h
    exact ⟨rfl, rfl⟩

theorem bindingsStep_leave (κ : Ty → OwnershipClass) (h : flow.checkExit location = .ok ())
    (hm : Marked borrowed flow.bindings) :
    bindingsStep κ borrowed .leave flow.bindings flow.bindings := by
  have each : ∀ {x b}, flow.bindings.get? x = some b → if b.borrowedParam then b.state = .defined
      else ¬ (b.cls = .linear ∧ b.state = .defined) := by
    intro x b hb
    have := forM_eq_ok.mp h (x, b) ((Dict.lookup_eq_some_iff flow.bindings.ordered).mp hb)
    dsimp only at this
    split at this
    · split at this
      · simp [*]
      · exact absurd this failure_ne_ok
    · split at this
      · exact absurd this failure_ne_ok
      · simp [*]
  refine ⟨rfl, fun x hx => ?_, fun x b hb hd hc => ?_⟩
  · obtain ⟨b, hb⟩ := Option.isSome_iff_exists.mp (hm.present hx)
    have := each hb
    rw [if_pos ((hm.mark hb).mpr hx)] at this
    exact ⟨b, hb, this⟩
  · refine (hm.mark hb).mp (Bool.of_not_eq_false fun hp => ?_)
    have := each hb
    rw [hp, if_neg Bool.false_ne_true] at this
    exact this ⟨hc, hd⟩

theorem checkLeavesNoElements_eq_ok (h : Follow.checkLeavesNoElements location st = .ok () st₁) :
    NoneSealed st.loops ∧ st = st₁ := by
  obtain ⟨_, _, hget, h⟩ := bind_eq_ok.mp h
  obtain ⟨rfl, rfl⟩ := get_eq_ok.mp hget
  cases hf : st.loops.reverse.find? (·.linearElements) with
  | some frame =>
    rw [hf] at h
    exact absurd h reject_ne_ok
  | none =>
    rw [hf] at h
    obtain ⟨-, rfl⟩ := pure_eq_ok.mp h
    exact ⟨fun frame hframe => by simpa using List.find?_eq_none.mp hf frame (by simpa), rfl⟩

theorem exitHere_eq_ok (h : Follow.exitHere location st = .ok () st₁) :
    st.flow.checkExit location = .ok () ∧ st = st₁ := by
  obtain ⟨_, _, hget, h⟩ := bind_eq_ok.mp h
  obtain ⟨rfl, rfl⟩ := get_eq_ok.mp hget
  exact ofExcept_eq_ok.mp h

theorem followed_ret {value : Option Expr} (hs : st.flow.Sane borrowed)
    (h : checkStmt name (.ret location value) st = .ok () st₁) :
    Followed borrowed agree (.ofStmt (.ret location value)) st st₁ [] [] := by
  have checked : ∀ {x : Follow Unit} {p : List Action}, Traces borrowed agree p x →
      (do x; Follow.checkLeavesNoElements location; Follow.exitHere location; Follow.jump) st =
        .ok () st₁ →
      Followed borrowed agree (.run (p ++ [.leave]) .returned) st st₁ [] [] := by
    intro x p hx h
    obtain ⟨_, s, he, h⟩ := bind_eq_ok.mp h
    have traced := hx _ _ _ he
    obtain ⟨_, _, hsealed, h⟩ := bind_eq_ok.mp h
    obtain ⟨noneSealed, rfl⟩ := checkLeavesNoElements_eq_ok hsealed
    obtain ⟨_, _, hexit, h⟩ := bind_eq_ok.mp h
    obtain ⟨exit, rfl⟩ := exitHere_eq_ok hexit
    cases modify_eq_ok.mp h
    refine ⟨traced.memo, by simp [traced.loops], nofun, nofun, nofun, fun _ => rfl,
      fun final hg => ⟨s.flow.bindings, FlowAnalysis.steps_append.mpr ⟨_, traced.steps final hg,
        FlowAnalysis.steps_singleton.mpr (bindingsStep_leave final.classOf exit
          (traced.sane hs).marked)⟩, ?_⟩, fun hr => absurd hr Bool.false_ne_true⟩
    exact traced.loops ▸ noneSealed
  cases value with
  | none => exact checked (x := pure ()) .pure h
  | some e => exact checked (evaluate_traces e) h

theorem followed_break (hs : st.flow.Sane borrowed)
    (h : checkStmt name (.breakLoop location) st = .ok () st₁) :
    Followed borrowed agree (.ofStmt (.breakLoop location)) st st₁ [st.flow] [] := by
  rw [checkStmt] at h
  obtain ⟨frame, s, hc, h⟩ := bind_eq_ok.mp h
  obtain ⟨hl, rfl⟩ := currentLoop_eq_ok hc
  dsimp only at h
  split at h
  · obtain ⟨_, _, h, -⟩ := bind_eq_ok.mp h
    exact absurd h reject_ne_ok
  · rename_i hopen
    obtain ⟨_, _, hget, h⟩ := bind_eq_ok.mp h
    obtain ⟨rfl, rfl⟩ := get_eq_ok.mp hget
    obtain ⟨_, _, hvar, h⟩ := bind_eq_ok.mp h
    obtain ⟨-, rfl⟩ := ofExcept_eq_ok.mp hvar
    obtain ⟨_, _, hset, h⟩ := bind_eq_ok.mp h
    cases modify_eq_ok.mp hset
    cases modify_eq_ok.mp h
    refine ⟨.refl _, ?_, nofun, by simpa using hs, nofun, fun hsealed => ?_, fun final hg =>
      ⟨_, rfl, st.flow, List.mem_singleton_self _, rfl⟩, fun hr => absurd hr Bool.false_ne_true⟩
    · rw [hl]
      simp [addJumps]
    · rw [hl] at hsealed
      simp [InnermostSealed] at hsealed
      exact absurd hsealed hopen

theorem followed_continue (hs : st.flow.Sane borrowed)
    (h : checkStmt name (.continueLoop location) st = .ok () st₁) :
    Followed borrowed agree (.ofStmt (.continueLoop location)) st st₁ [] [st.flow] := by
  rw [checkStmt] at h
  obtain ⟨frame, s, hc, h⟩ := bind_eq_ok.mp h
  obtain ⟨hl, rfl⟩ := currentLoop_eq_ok hc
  obtain ⟨_, _, hget, h⟩ := bind_eq_ok.mp h
  obtain ⟨rfl, rfl⟩ := get_eq_ok.mp hget
  obtain ⟨_, _, hset, h⟩ := bind_eq_ok.mp h
  cases modify_eq_ok.mp hset
  cases modify_eq_ok.mp h
  refine ⟨.refl _, ?_, nofun, nofun, by simpa using hs, fun _ => rfl, fun final hg =>
    ⟨_, rfl, st.flow, List.mem_singleton_self _, rfl⟩, fun hr => absurd hr Bool.false_ne_true⟩
  rw [hl]
  simp [addJumps]

theorem simple_traces (s : Stmt) {p : List Action} (h : Control.ofStmt s = .run p .normal) :
    Traces borrowed agree p (checkStmt name s) := by
  cases s with
  | assign location target value =>
    cases h
    rw [checkStmt]
    exact (evaluate_traces value).bind fun _ => bind_traces
  | tupleAssign location targets value =>
    cases h
    simp only [checkStmt]
    refine (evaluate_traces value).bind fun _ => ?_
    split
    · rename_i elems ht
      rw [ht, components]
      split
      · exact bindAll_traces location targets elems
      · exact Traces.defect.bind (p := []) fun _ => bindAll_traces location targets elems
    · exact .defect
  | expr location value =>
    cases h
    rw [checkStmt, ← List.append_nil (evaluation value)]
    refine (evaluate_traces value).bind fun _ => classify_traces.bind fun c => ?_
    split
    · exact .reject
    · exact .pure
  | ret | branch | whileLoop | forLoop | breakLoop | continueLoop => cases h

theorem runsOverLinear_eq_ok {linearElements : Bool}
    (h : Follow.runsOverLinear iterable varType st = .ok linearElements st₁) :
    Traced borrowed agree [] st st₁ ∧ ∀ final, st₁.memo.Grows final →
      ∀ t ∈ Control.elements iterable varType, final.classOf t = .linear →
        linearElements = true := by
  unfold Follow.runsOverLinear at h
  unfold Control.elements
  cases ht : iterable.type with
  | array elem length =>
    rw [ht] at h
    obtain ⟨c, s, hc, h⟩ := bind_eq_ok.mp h
    obtain ⟨rfl, rfl⟩ := pure_eq_ok.mp h
    refine ⟨classify_traces _ _ _ hc, fun final hg t htype hlin => ?_⟩
    cases htype
    have := classOf_le_of_classify hc hg
    rw [hlin, OwnershipClass.linear_le_iff] at this
    exact decide_eq_true this
  | _ =>
    rw [ht] at h
    obtain ⟨rfl, rfl⟩ := pure_eq_ok.mp h
    exact ⟨.refl st, nofun⟩

theorem enterFor_eq_ok (h : enterFor location loopVar varType iterable st = .ok frame st₁) :
    ∃ s, Traced borrowed agree (evaluation iterable) st s ∧
      Traced borrowed agree [.bind loopVar varType] s st₁ ∧
      (frame.entry = s.flow ∧ frame.breaks = [] ∧ frame.continues = []) ∧
      ∀ final, st₁.memo.Grows final → ∀ t ∈ Control.elements iterable varType,
        final.classOf t = .linear → frame.linearElements = true := by
  obtain ⟨_, s, he, h⟩ := bind_eq_ok.mp h
  obtain ⟨_, _, hget, h⟩ := bind_eq_ok.mp h
  obtain ⟨rfl, rfl⟩ := get_eq_ok.mp hget
  obtain ⟨linearElements, s₁, hr, h⟩ := bind_eq_ok.mp h
  obtain ⟨_, s₂, hb, h⟩ := bind_eq_ok.mp h
  obtain ⟨rfl, rfl⟩ := pure_eq_ok.mp h
  have ⟨hrun, hlinear⟩ : Traced borrowed agree [] s s₁ ∧ _ := runsOverLinear_eq_ok hr
  have hbind : Traced borrowed agree [.bind loopVar varType] s₁ s₂ := bind_traces _ _ _ hb
  exact ⟨s, evaluate_traces iterable _ _ _ he, hrun.trans hbind, ⟨rfl, rfl, rfl⟩,
    fun final hg => hlinear final (hbind.memo.trans hg)⟩

theorem checkStmt_branch_eq_ok {thenBody elseBody : List Stmt}
    (h : checkStmt name (.branch location condition thenBody elseBody) st = .ok () st₁) :
    ∃ s s₂ s₃ m, evaluate condition st = .ok () s ∧ checkBlock name thenBody s = .ok () s₂ ∧
      checkBlock name elseBody { s₂ with flow := s.flow } = .ok () s₃ ∧
      s₂.flow.merge location s₃.flow = .ok m ∧ st₁ = { s₃ with flow := m } := by
  rw [checkStmt] at h
  obtain ⟨_, s, he, h⟩ := bind_eq_ok.mp h
  obtain ⟨_, _, hget, h⟩ := bind_eq_ok.mp h
  obtain ⟨rfl, rfl⟩ := get_eq_ok.mp hget
  obtain ⟨_, s₂, hb, h⟩ := bind_eq_ok.mp h
  obtain ⟨hthen, rfl⟩ := branch_eq_ok hb
  obtain ⟨_, s₃, hb, h⟩ := bind_eq_ok.mp h
  obtain ⟨helse, rfl⟩ := branch_eq_ok hb
  obtain ⟨m, _, hm, h⟩ := bind_eq_ok.mp h
  obtain ⟨hmerge, rfl⟩ := ofExcept_eq_ok.mp hm
  exact ⟨s, s₂, s₃, m, he, hthen, helse, hmerge, (modify_eq_ok.mp h).symm⟩

theorem checkStmt_whileLoop_eq_ok
    (h : checkStmt name (.whileLoop location condition body) st = .ok () st₁) :
    ∃ s, evaluate condition st = .ok () s ∧
      Follow.loop { entry := s.flow } location (checkBlock name body) s = .ok () st₁ := by
  rw [checkStmt] at h
  obtain ⟨_, s, he, h⟩ := bind_eq_ok.mp h
  obtain ⟨_, _, hget, h⟩ := bind_eq_ok.mp h
  obtain ⟨rfl, rfl⟩ := get_eq_ok.mp hget
  exact ⟨s, he, h⟩

theorem checkStmt_forLoop_eq_ok
    (h : checkStmt name (.forLoop location loopVar varType iterable body) st = .ok () st₁) :
    ∃ frame s, enterFor location loopVar varType iterable st = .ok frame s ∧
      Follow.loop frame location (checkBlock name body) s = .ok () st₁ := by
  rw [checkStmt] at h
  obtain ⟨_, s, he, h⟩ := bind_eq_ok.mp h
  obtain ⟨_, _, hget, h⟩ := bind_eq_ok.mp h
  obtain ⟨linearElements, s₁, hr, h⟩ := bind_eq_ok.mp h
  obtain ⟨_, s₂, hb, h⟩ := bind_eq_ok.mp h
  refine ⟨_, s₂, ?_, h⟩
  exact bind_eq_ok.mpr ⟨_, _, he, bind_eq_ok.mpr ⟨_, _, hget, bind_eq_ok.mpr ⟨_, _, hr,
    bind_eq_ok.mpr ⟨_, _, hb, rfl⟩⟩⟩⟩

theorem Agreeing.left (h : Agreeing (js ++ js')) : Agreeing js :=
  (List.forall_mem_append.mp h).1

theorem Agreeing.right (h : Agreeing (js ++ js')) : Agreeing js' :=
  (List.forall_mem_append.mp h).2

theorem Agreeing.exit (h : Agreeing (joinsExit name location body st))
    (hb : checkBlock name body st = .ok () st₁) : ∀ frame ∈ st₁.loops.head?,
      Agreeing (frame.entry.joins location (frame.edges st₁.flow ++ frame.breaks)) := by
  intro frame hframe
  cases hl : st₁.loops with
  | nil => simp [hl] at hframe
  | cons frame' frames =>
    simp only [joinsExit, onSuccess, hb, hl] at h
    rw [hl] at hframe
    cases hframe
    exact h

theorem checkBlock_of_unreachable {ss : List Stmt} (hr : ¬ st.flow.reachable)
    (h : checkBlock name ss st = .ok () st₁) : ∃ warnings, st₁ = { st with warnings } := by
  cases ss with
  | nil =>
    rw [checkBlock] at h
    obtain ⟨-, rfl⟩ := pure_eq_ok.mp h
    exact ⟨_, rfl⟩
  | cons s ss =>
    rw [checkBlock] at h
    obtain ⟨_, _, hget, h⟩ := bind_eq_ok.mp h
    obtain ⟨rfl, rfl⟩ := get_eq_ok.mp hget
    rw [if_neg hr] at h
    exact ⟨_, (modify_eq_ok.mp h).symm⟩

mutual

theorem followed_stmt : ∀ (s : Stmt) {st st₁ : FlowState}, checkStmt name s st = .ok () st₁ →
    st.flow.Sane borrowed → (agree → Agreeing (joinsStmt name s st)) →
    ∃ bs cs, Followed borrowed agree (.ofStmt s) st st₁ bs cs
  | .assign location target value, st, st₁, h, hs, _ =>
    ⟨[], [], .of_traced (simple_traces _ rfl _ _ _ h) hs⟩
  | .tupleAssign location targets value, st, st₁, h, hs, _ =>
    ⟨[], [], .of_traced (simple_traces _ rfl _ _ _ h) hs⟩
  | .expr location value, st, st₁, h, hs, _ =>
    ⟨[], [], .of_traced (simple_traces _ rfl _ _ _ h) hs⟩
  | .ret location value, st, st₁, h, hs, _ => ⟨[], [], followed_ret hs h⟩
  | .breakLoop location, st, st₁, h, hs, _ => ⟨[st.flow], [], followed_break hs h⟩
  | .continueLoop location, st, st₁, h, hs, _ => ⟨[], [st.flow], followed_continue hs h⟩
  | .branch location condition thenBody elseBody, st, st₁, h, hs, hj => by
    obtain ⟨s, s₂, s₃, m, he, hthen, helse, hm, rfl⟩ := checkStmt_branch_eq_ok h
    simp only [joinsStmt, onSuccess, he, hthen, helse] at hj
    have tested : Traced borrowed agree _ st s := evaluate_traces condition _ _ _ he
    obtain ⟨bs, cs, fthen⟩ := followed_block thenBody hthen (tested.sane hs)
      fun h => (hj h).left
    obtain ⟨bs', cs', felse⟩ := followed_block elseBody helse (tested.sane hs)
      fun h => (hj h).right.left
    exact ⟨_, _, (Followed.of_traced tested hs).seq (tested.sane hs).reachable
      (fthen.choice felse hm fun h => (hj h).right.right)⟩
  | .whileLoop location condition body, st, st₁, h, hs, hj => by
    obtain ⟨s, he, h⟩ := checkStmt_whileLoop_eq_ok h
    obtain ⟨s₂, m, hbody, hexit, rfl⟩ := loop_eq_ok h
    simp only [joinsStmt, onSuccess, he] at hj
    have tested : Traced borrowed agree _ st s := evaluate_traces condition _ _ _ he
    obtain ⟨bs, cs, fbody⟩ := followed_block body hbody (tested.sane hs) fun h => (hj h).left
    exact ⟨[], [], .loop hs tested (.refl s) fbody ⟨rfl, rfl, rfl⟩ nofun hexit
      fun h => (hj h).right.exit hbody⟩
  | .forLoop location loopVar varType iterable body, st, st₁, h, hs, hj => by
    obtain ⟨frame, s, he, h⟩ := checkStmt_forLoop_eq_ok h
    obtain ⟨s₂, m, hbody, hexit, rfl⟩ := loop_eq_ok h
    simp only [joinsStmt, onSuccess, he] at hj
    have ⟨s₁, evaluated, bound, hframe, hlinear⟩ : ∃ s₁, Traced borrowed agree _ st s₁ ∧ _ :=
      enterFor_eq_ok he
    have sane := evaluated.sane hs
    obtain ⟨bs, cs, fbody⟩ := followed_block body hbody (bound.sane sane) fun h => (hj h).left
    exact ⟨_, _, (Followed.of_traced evaluated hs).seq sane.reachable (.loop sane (.refl s₁) bound fbody hframe
      hlinear hexit fun h => (hj h).right.exit hbody)⟩

theorem followed_block : ∀ (ss : List Stmt) {st st₁ : FlowState},
    checkBlock name ss st = .ok () st₁ → st.flow.Sane borrowed →
    (agree → Agreeing (joinsBlock name ss st)) →
    ∃ bs cs, Followed borrowed agree (.ofBlock ss) st st₁ bs cs
  | [], st, st₁, h, hs, _ => by
    rw [checkBlock] at h
    exact ⟨[], [], .of_traced (Traces.pure _ _ _ h) hs⟩
  | s :: ss, st, st₁, h, hs, hj => by
    rw [checkBlock] at h
    obtain ⟨_, _, hget, h⟩ := bind_eq_ok.mp h
    obtain ⟨rfl, rfl⟩ := get_eq_ok.mp hget
    rw [if_pos hs.reachable] at h
    obtain ⟨_, s₁, hstmt, h⟩ := bind_eq_ok.mp h
    simp only [joinsBlock, hs.reachable, if_true, onSuccess, hstmt] at hj
    obtain ⟨bs, cs, fstmt⟩ := followed_stmt s hstmt hs fun h => (hj h).left
    by_cases hr : s₁.flow.reachable = true
    · obtain ⟨bs', cs', frest⟩ := followed_block ss h (fstmt.sane hr) fun h => (hj h).right
      exact ⟨_, _, fstmt.seq hr frest⟩
    · obtain ⟨warnings, rfl⟩ := checkBlock_of_unreachable hr h
      exact ⟨_, _, fstmt.stop hr⟩

end

/-! ## Functions -/

/-- A binding is that of a parameter at the start. -/
def IsParam (final : ClassMemo) (p : Param) (b : Binding) : Prop :=
  final.classOf p.type ≤ b.cls ∧
    b = { state := .defined, cls := b.cls
          borrowedParam := p.ownership = .borrowed && b.cls ≠ .copyable }

theorem bindParams_eq_ok {ps : List Param} (h : bindParams ps st = .ok () st₁) :
    st.memo.Grows st₁.memo ∧ st₁.loops = st.loops ∧
    st₁.flow.reachable = st.flow.reachable ∧
    ∀ x, (lastParam ps x = none → st₁.flow.bindings.get? x = st.flow.bindings.get? x) ∧
      ∀ p, lastParam ps x = some p → ∃ b, st₁.flow.bindings.get? x = some b ∧
        ∀ final, st₁.memo.Grows final → IsParam final p b := by
  induction ps generalizing st with
  | nil =>
    obtain ⟨-, rfl⟩ := pure_eq_ok.mp h
    exact ⟨.refl _, rfl, rfl, fun x => ⟨fun _ => rfl, nofun⟩⟩
  | cons q ps ih =>
    obtain ⟨c, s, hc, h⟩ := bind_eq_ok.mp h
    obtain ⟨memo, hmemo, rfl⟩ := classify_eq_ok hc
    obtain ⟨_, s, hset, h⟩ := bind_eq_ok.mp h
    cases modify_eq_ok.mp hset
    obtain ⟨grows, loops, reachable, look⟩ := ih h
    refine ⟨(ClassMemo.classify_grows hmemo).trans grows, loops, reachable, fun x => ?_⟩
    obtain ⟨missing, found⟩ := look x
    rw [lastParam_cons]
    cases hp : lastParam ps x with
    | some p => exact ⟨nofun, by rintro _ ⟨⟩; exact found p hp⟩
    | none =>
      rw [missing hp, Option.none_or, Dict.get?_insert]
      by_cases hx : q.name = x
      · rw [if_pos hx, if_pos hx.symm]
        refine ⟨nofun, ?_⟩
        rintro _ ⟨⟩
        exact ⟨_, rfl, fun final hg => ⟨ClassMemo.classOf_le hmemo (grows.trans hg), rfl⟩⟩
      · rw [if_neg hx, if_neg (Ne.symm hx)]
        exact ⟨fun _ => rfl, nofun⟩

/-- The names that are bound to borrowed parameters. -/
def marks (F : Bindings) (x : String) : Prop := ∃ b, F.get? x = some b ∧ b.borrowedParam = true

theorem marked_marks (F : Bindings) : Marked (marks F) F where
  mark hb := ⟨fun h => ⟨_, hb, h⟩, fun ⟨_, hb', h⟩ => Option.some.inj (hb.symm.trans hb') ▸ h⟩
  present h := by
    obtain ⟨b, hb, -⟩ := h
    exact Option.isSome_of_eq_some hb

/-- **A function is followed as its body is**, from the bindings of its parameters. -/
theorem followFunction_eq_ok {s : FlowState} (h : followFunction f { memo } = .ok () s)
    (hj : agree → Agreeing (joinsFunction f memo)) :
    ∃ (s₁ : FlowState) (bs cs : List Flow), (∀ x,
        (lastParam f.params x = none → s₁.flow.bindings.get? x = none) ∧
        ∀ p, lastParam f.params x = some p → ∃ b, s₁.flow.bindings.get? x = some b ∧
          ∀ final, s₁.memo.Grows final → IsParam final p b) ∧
      Followed (marks s₁.flow.bindings) agree (.ofBlock f.body) s₁ s bs cs ∧
      (s.flow.reachable → s.flow.checkExit f.location = .ok ()) := by
  obtain ⟨_, s₁, hparams, h⟩ := bind_eq_ok.mp h
  obtain ⟨_, s₂, hbody, h⟩ := bind_eq_ok.mp h
  obtain ⟨_, _, hget, h⟩ := bind_eq_ok.mp h
  obtain ⟨rfl, rfl⟩ := get_eq_ok.mp hget
  obtain ⟨-, -, reachable, look⟩ := bindParams_eq_ok hparams
  have sane : s₁.flow.Sane (marks s₁.flow.bindings) := ⟨reachable, marked_marks _⟩
  simp only [joinsFunction, onSuccess, hparams] at hj
  obtain ⟨bs, cs, followed⟩ := followed_block f.body hbody sane hj
  have exit : s = s₂ ∧ (s₂.flow.reachable → s₂.flow.checkExit f.location = .ok ()) := by
    split at h
    · obtain ⟨hexit, rfl⟩ := exitHere_eq_ok h
      exact ⟨rfl, fun _ => hexit⟩
    · rename_i hr
      obtain ⟨-, rfl⟩ := pure_eq_ok.mp h
      exact ⟨rfl, fun h => absurd h hr⟩
  obtain ⟨rfl, exit⟩ := exit
  exact ⟨s₁, bs, cs, look, followed, exit⟩

/-- **The flow analysis admits every function that the checker accepts**, from the bindings of
    its parameters. -/
theorem admits_of_checkFunction {final : ClassMemo} {ws : List Diagnostic}
    (h : checkFunction f memo = .ok ws final) (hj : agree → Agreeing (joinsFunction f memo)) :
    ∃ F : Bindings, (∀ x, (lastParam f.params x = none → F.get? x = none) ∧
        ∀ p, lastParam f.params x = some p → ∃ b, F.get? x = some b ∧ IsParam final p b) ∧
      (consumption final.classOf (marks F) agree).Admits (.ofFunction f) F fun _ _ => True := by
  unfold checkFunction at h
  split at h
  · rename_i s hf
    cases h
    obtain ⟨s₁, bs, cs, look, followed, exit⟩ := followFunction_eq_ok hf hj
    refine ⟨s₁.flow.bindings, fun x => ⟨fun hx => (look x).1 hx, fun p hp => ?_⟩, ?_⟩
    · obtain ⟨b, hb, hp⟩ := (look x).2 p hp
      exact ⟨b, hb, hp _ followed.memo⟩
    · refine (followed.admits _ (.refl _)).mono fun o F hF => ?_
      cases o with
      | normal =>
        obtain ⟨hr, rfl⟩ := hF
        exact ⟨_, FlowAnalysis.steps_singleton.mpr
          (bindingsStep_leave s.memo.classOf (exit hr) (followed.sane hr).marked), trivial⟩
      | broke | continued | returned => trivial
  · cases h

end

end QuantumStatics.Consumption
