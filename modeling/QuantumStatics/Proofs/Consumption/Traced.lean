/-
  The checker as a flow analysis.

  `consumption` is the flow analysis that the checker of a function carries out: its facts
  are the bindings with their states.  A computation of the checker `Traces` some actions if,
  whenever it succeeds, the analysis goes through these actions from the bindings before to
  the bindings after it.
-/
import QuantumStatics.Proofs.Classification.Memo
import QuantumStatics.Proofs.Consumption.Joins
import QuantumStatics.Proofs.Execution.FlowAnalysis

namespace QuantumStatics.Consumption

open Execution Typed

variable {location : Location}

/-- How a use changes the bindings.  The name must be defined. -/
def UseStep (u : Use) (F F' : Bindings) : Prop :=
  ∃ b, F.get? u.name = some b ∧ b.state = .defined ∧
    F' = if u.kind = .consume ∧ b.cls ≠ .copyable then
      F.insert u.name { b with state := .consumed } else F

/-- How an action changes the bindings.  A value may be taken for more restricted than it
    is. -/
def bindingsStep (κ : Ty → OwnershipClass) (borrowed : String → Prop) :
    Action → Bindings → Bindings → Prop
  | .use u, F, F' => UseStep u F F'
  | .bind n t, F, F' => ∃ c, κ t ≤ c ∧
      (∀ b, F.get? n = some b → b.state = .defined → b.cls ≠ .linear) ∧
      F' = F.insert n { (F.get? n).getD {} with state := .defined, cls := c }
  | .leave, F, F' => F' = F ∧ (∀ x, borrowed x → Defined F x) ∧
      ∀ x b, F.get? x = some b → b.state = .defined → b.cls = .linear → borrowed x
  | .again, _, _ => False

/-- The flow analysis that the checker carries out, for a classification of types and the
    borrowed parameters that must be given back.  If `agree` holds, joined paths agree on
    the classes of the names that they both bind. -/
def consumption (κ : Ty → OwnershipClass) (borrowed : String → Prop) (agree : Prop) :
    FlowAnalysis Bindings where
  step := bindingsStep κ borrowed
  join := Covered agree
  again entry edge := ∃ exit, Covered agree entry exit ∧ Covered agree edge exit
  sealed t := κ t = .linear

section

variable {final : ClassMemo} {borrowed : String → Prop} {agree : Prop} {α β : Type}
  {st st₁ st₂ : FlowState} {p q : List Action} {F F' : Bindings} {κ : Ty → OwnershipClass} {t : Ty}
  {c : OwnershipClass} {n : String} {u : Use} {e : Expr}

theorem Marked.step {a : Action} (hF : Marked borrowed F) (h : bindingsStep κ borrowed a F F') :
    Marked borrowed F' := by
  have insert : ∀ {n : String} {b : Binding}, (b.borrowedParam = true ↔ borrowed n) →
      Marked borrowed (F.insert n b) := by
    refine fun hb => ⟨fun {x b'} hx => ?_, fun {x} hx => ?_⟩
    · rw [Dict.get?_insert] at hx
      split at hx
      · rename_i hn
        cases hx
        exact hn ▸ hb
      · exact hF.mark hx
    · rw [Dict.get?_insert]
      split
      · rfl
      · exact hF.present hx
  cases a with
  | use u =>
    obtain ⟨b, hb, -, rfl⟩ := h
    have mark := hF.mark hb
    split
    · exact insert mark
    · exact hF
  | bind n t =>
    obtain ⟨c, -, -, rfl⟩ := h
    refine insert ?_
    cases hn : F.get? n with
    | some b =>
      have mark := hF.mark hn
      exact mark
    | none =>
      have : ¬ borrowed n := fun h => by simpa [hn] using hF.present h
      simp [this]
  | leave => exact h.1 ▸ hF
  | again => exact h.elim

theorem Marked.steps (hF : Marked borrowed F) (h : (consumption κ borrowed agree).steps p F F') :
    Marked borrowed F' := by
  induction p generalizing F with
  | nil => exact h ▸ hF
  | cons a p ih =>
    obtain ⟨F₁, ha, h⟩ := h
    exact ih (hF.step ha) h

/-! ## Expressions -/

variable (borrowed agree) in
/-- Between two states the checker has only gone through the actions `p`. -/
structure Traced (p : List Action) (st st₁ : FlowState) : Prop where
  memo : st.memo.Grows st₁.memo
  loops : st₁.loops = st.loops
  reachable : st₁.flow.reachable = st.flow.reachable
  steps (final : ClassMemo) : st₁.memo.Grows final →
    (consumption final.classOf borrowed agree).steps p st.flow.bindings st₁.flow.bindings

namespace Traced

theorem refl (st : FlowState) : Traced borrowed agree [] st st :=
  ⟨.refl _, rfl, rfl, fun _ _ => rfl⟩

theorem trans (h : Traced borrowed agree p st st₁)
    (h' : Traced borrowed agree q st₁ st₂) : Traced borrowed agree (p ++ q) st st₂ where
  memo := h.memo.trans h'.memo
  loops := h'.loops.trans h.loops
  reachable := h'.reachable.trans h.reachable
  steps final hg :=
    FlowAnalysis.steps_append.mpr ⟨_, h.steps final (h'.memo.trans hg), h'.steps final hg⟩

theorem of_memo {memo : ClassMemo} (h : st.memo.Grows memo) :
    Traced borrowed agree [] st { st with memo } :=
  ⟨h, rfl, rfl, fun _ _ => rfl⟩

end Traced

variable (borrowed agree) in
/-- Whenever a computation succeeds, the checker has gone through the actions `p`. -/
def Traces (p : List Action) (x : Follow α) : Prop :=
  ∀ st a st₁, x st = .ok a st₁ → Traced borrowed agree p st st₁

namespace Traces

theorem pure {a : α} : Traces borrowed agree [] (pure a : Follow α) := by
  intro st b st₁ h
  obtain ⟨-, rfl⟩ := pure_eq_ok.mp h
  exact .refl st

theorem bind {x : Follow α} {f : α → Follow β} (hx : Traces borrowed agree p x)
    (hf : ∀ a, Traces borrowed agree q (f a)) :
    Traces borrowed agree (p ++ q) (x >>= f) := by
  intro st b st₁ h
  obtain ⟨a, s, ha, h⟩ := bind_eq_ok.mp h
  exact (hx _ _ _ ha).trans (hf a _ _ _ h)

theorem reject {cause : Cause} :
    Traces borrowed agree p (Analysis.reject location cause : Follow α) :=
  fun _ _ _ h => absurd h reject_ne_ok

theorem defect {d : Defect} : Traces borrowed agree p (Analysis.defect d : Follow α) :=
  fun _ _ _ h => absurd h defect_ne_ok

theorem ofDefect {x : Except Defect α} :
    Traces borrowed agree [] (Analysis.ofDefect x : Follow α) := by
  intro st b st₁ h
  obtain ⟨-, rfl⟩ := ofDefect_eq_ok.mp h
  exact .refl st

end Traces

theorem classify_eq_ok (h : Follow.classify t st = .ok c st₁) :
    ∃ memo, ClassMemo.classify t st.memo = .ok c memo ∧ st₁ = { st with memo } := by
  unfold Follow.classify at h
  split at h
  · rename_i memo hc
    cases h
    exact ⟨memo, hc, rfl⟩
  · cases h

theorem classOf_le_of_classify (h : Follow.classify t st = .ok c st₁) (hg : st₁.memo.Grows final) :
    final.classOf t ≤ c := by
  obtain ⟨memo, hc, rfl⟩ := classify_eq_ok h
  exact ClassMemo.classOf_le hc hg

theorem classify_traces : Traces borrowed agree [] (Follow.classify t) := by
  intro st c st₁ h
  obtain ⟨memo, hc, rfl⟩ := classify_eq_ok h
  exact .of_memo (ClassMemo.classify_grows hc)

theorem binding?_eq_ok {b : Option Binding} (h : Follow.binding? n st = .ok b st₁) :
    b = st.flow.bindings.get? n ∧ st = st₁ := by
  obtain ⟨s, s', hs, h⟩ := bind_eq_ok.mp h
  obtain ⟨rfl, rfl⟩ := get_eq_ok.mp hs
  obtain ⟨rfl, rfl⟩ := pure_eq_ok.mp h
  exact ⟨rfl, rfl⟩

theorem binding?_traces : Traces borrowed agree [] (Follow.binding? n) := by
  intro st b st₁ h
  obtain ⟨-, rfl⟩ := binding?_eq_ok h
  exact .refl st

theorem definedBinding_eq_ok {b : Binding} (h : Follow.definedBinding n location st = .ok b st₁) :
    st.flow.bindings.get? n = some b ∧ b.state = .defined ∧ st = st₁ := by
  obtain ⟨o, s, ho, h⟩ := bind_eq_ok.mp h
  obtain ⟨rfl, rfl⟩ := binding?_eq_ok ho
  cases hb : st.flow.bindings.get? n with
  | none =>
    rw [hb] at h
    exact absurd h reject_ne_ok
  | some b' =>
    rw [hb] at h
    cases hs : b'.state <;> simp only [hs] at h
    case defined =>
      obtain ⟨rfl, rfl⟩ := pure_eq_ok.mp h
      exact ⟨rfl, hs, rfl⟩
    all_goals exact absurd h reject_ne_ok

theorem definedBinding_traces (hu : u.kind ≠ .consume) :
    Traces borrowed agree [.use u] (Follow.definedBinding u.name location) := by
  intro st b st₁ h
  obtain ⟨hb, hs, rfl⟩ := definedBinding_eq_ok h
  refine ⟨.refl _, rfl, rfl, fun _ _ => FlowAnalysis.steps_singleton.mpr ⟨b, hb, hs, ?_⟩⟩
  rw [if_neg fun h => hu h.1]

theorem useName_traces :
    Traces borrowed agree [.use u] (Follow.useName u.name u.kind location) := by
  intro st _ st₁ h
  obtain ⟨b, s, hdef, h⟩ := bind_eq_ok.mp h
  obtain ⟨hb, hs, rfl⟩ := definedBinding_eq_ok hdef
  have step : ∀ (final : ClassMemo) F, F = (if u.kind = .consume ∧ b.cls ≠ .copyable then
      st.flow.bindings.insert u.name { b with state := .consumed } else st.flow.bindings) →
      (consumption final.classOf borrowed agree).steps [.use u] st.flow.bindings F :=
    fun _ F hF => FlowAnalysis.steps_singleton.mpr ⟨b, hb, hs, hF⟩
  split at h
  · rename_i hc
    cases modify_eq_ok.mp h
    exact ⟨.refl _, rfl, rfl, fun _ _ => step _ _ (if_pos hc).symm⟩
  · rename_i hc
    obtain ⟨-, rfl⟩ := pure_eq_ok.mp h
    exact ⟨.refl _, rfl, rfl, fun _ _ => step _ _ (if_neg hc).symm⟩

theorem bind_traces : Traces borrowed agree [.bind n t] (Follow.bind n t location) := by
  intro st _ st₁ h
  obtain ⟨o, s, ho, h⟩ := bind_eq_ok.mp h
  obtain ⟨rfl, rfl⟩ := binding?_eq_ok ho
  split at h
  · obtain ⟨_, _, h, -⟩ := bind_eq_ok.mp h
    exact absurd h reject_ne_ok
  · rename_i hlin
    obtain ⟨c, s₂, hc, h⟩ := bind_eq_ok.mp h
    have le : ∀ final, s₂.memo.Grows final → final.classOf t ≤ c :=
      fun _ => classOf_le_of_classify hc
    obtain ⟨memo, hmemo, rfl⟩ := classify_eq_ok hc
    cases modify_eq_ok.mp h
    refine ⟨ClassMemo.classify_grows hmemo, rfl, rfl, fun final hg => ?_⟩
    refine FlowAnalysis.steps_singleton.mpr ⟨c, le final hg, fun b hb hs hc => ?_, rfl⟩
    exact hlin (by simp [hb, hs, hc])

theorem checkOtherFields_traces {struct label : String} {index : Nat} (fs : List Field)
    (position : Nat) : Traces borrowed agree []
      (Follow.checkOtherFields location struct label index position fs) := by
  induction fs generalizing position with
  | nil => exact .pure
  | cons f fs ih =>
    simp only [Follow.checkOtherFields]
    split
    · refine classify_traces.bind fun c => ?_
      split
      · exact Traces.reject.bind (p := []) fun _ => ih _
      · exact ih _
    · exact ih _

theorem checkMoveOut_traces (e : Expr) :
    Traces borrowed agree [] (Follow.checkMoveOut e) := by
  induction e using Follow.checkMoveOut.induct with
  | case1 location t object label index use decl typeArgs natArgs htype ih =>
    simp only [Follow.checkMoveOut, htype]
    exact Traces.ofDefect.bind fun fields => (checkOtherFields_traces fields 0).bind fun _ => ih
  | case2 location t object label index use hstruct ih =>
    simp only [Follow.checkMoveOut]
    exact Traces.defect.bind (p := []) fun _ => ih
  | case3 location t indexed index use elem length htype ih =>
    simp only [Follow.checkMoveOut, htype]
    refine classify_traces.bind fun c => ?_
    split
    · split
      · exact ih
      · exact Traces.reject.bind (p := []) fun _ => ih
    · exact ih
  | case4 location t indexed index use harray ih =>
    simp only [Follow.checkMoveOut]
    exact Traces.defect.bind (p := []) fun _ => ih
  | case5 e hf hs =>
    rw [Follow.checkMoveOut]
    · exact .pure
    · exact hf
    · exact hs

theorem checkArg_traces {callee : String} {roots : List String} {ownership : Ownership}
    {arg : Expr} : Traces borrowed agree []
      (Follow.checkArg callee roots ownership arg) := by
  unfold Follow.checkArg
  split
  · refine binding?_traces.bind fun o => ?_
    split
    · split
      · exact .pure
      · refine classify_traces.bind fun c => ?_
        split
        · exact .pure
        · split
          · exact Traces.reject.bind (p := []) fun _ => .pure
          · exact .pure
    · exact .pure
  · split
    · refine classify_traces.bind fun c => ?_
      split
      · exact Traces.reject.bind (p := []) fun _ => .pure
      · exact .pure
    · exact .pure

theorem baseUses_of_root {root : String} (use : UseKind) (h : e.root? = some root) :
    ∃ t, baseUses use e = [⟨root, if use = .consume then use else .borrow, t⟩] := by
  induction e using Expr.root?.induct with
  | case1 _ t n _ =>
    cases h
    refine ⟨t, ?_⟩
    rw [baseUses]
    by_cases hu : use = .consume <;> simp [hu]
  | case2 _ _ object _ _ _ ih =>
    rw [baseUses]
    exact ih h
  | case3 _ _ indexed _ _ ih =>
    rw [baseUses]
    exact ih h
  | case4 e hname hfield hsubscript =>
    cases e with
    | name => exact (hname _ _ _ _ rfl).elim
    | field => exact (hfield _ _ _ _ _ _ rfl).elim
    | subscript => exact (hsubscript _ _ _ _ _ rfl).elim
    | _ => cases h

theorem usePlace_traces {object : Expr} {use : UseKind} {base : Follow Unit}
    (hroot : e.root? = object.root?) (hbase : object.root? = none →
      Traces borrowed agree ((baseUses use object).map .use) base) :
    Traces borrowed agree ((baseUses use object).map .use) (Follow.usePlace e use base) := by
  -- Moving out of the place is checked first, and says nothing about the bindings.
  have afterCheck : ∀ {x : Follow Unit},
      Traces borrowed agree ((baseUses use object).map .use) x →
      Traces borrowed agree ((baseUses use object).map .use) (do
        if use = .consume then
          Follow.checkMoveOut e
        x) := by
    intro x hx
    dsimp only
    split
    · exact (checkMoveOut_traces e).bind fun _ => hx
    · exact hx
  unfold Follow.usePlace
  rw [hroot]
  split
  · rename_i root h
    refine afterCheck ?_
    obtain ⟨t, ht⟩ := baseUses_of_root use h
    rw [ht]
    exact useName_traces (u := ⟨root, _, t⟩)
  · rename_i h
    refine afterCheck ?_
    rw [← List.append_nil (List.map ..)]
    refine (hbase h).bind fun _ => ?_
    split
    · exact .pure
    · refine classify_traces.bind fun c => ?_
      split
      · exact .reject
      · exact .pure

theorem callee_traces {target : CallTarget} {args : Follow Unit}
    (hargs : Traces borrowed agree p args) :
    Traces borrowed agree ((calleeUses target).map .use ++ p) (do
      if target.kind = .localValue then
        let _ ← Follow.definedBinding target.callee location
      args) := by
  unfold calleeUses
  split
  · exact (definedBinding_traces (u := ⟨target.callee, .read, none⟩) nofun).bind fun _ => hargs
  · exact hargs

mutual

theorem evaluate_traces : ∀ e : Expr, Traces borrowed agree (evaluation e) (evaluate e)
  | .int _ _ _ | .float _ _ | .bool _ _ | .natParam _ _ | .fnRef _ _ _ => .pure
  | .name location t n use => useName_traces (u := ⟨n, use, some t⟩)
  | .tuple _ _ elems | .array _ _ elems => evaluateAll_traces elems
  | .call location t target args => by
    rw [evaluation, uses, List.map_append, evaluate]
    exact callee_traces (evaluateArgs_traces _ _ _ args)
  | .field location t object label index use => by
    rw [evaluation, uses, List.map_append, evaluate]
    exact (evaluateIndices_traces object).bind fun _ =>
      usePlace_traces rfl fun h => evaluateBase_traces use object h
  | .subscript location t indexed index use => by
    rw [evaluation, uses, List.map_append, List.map_append, evaluate, List.append_assoc]
    exact (evaluateIndices_traces indexed).bind fun _ => (evaluate_traces index).bind fun _ =>
      usePlace_traces rfl fun h => evaluateBase_traces use indexed h

theorem evaluateIndices_traces : ∀ e : Expr,
    Traces borrowed agree ((indexUses e).map .use) (evaluateIndices e)
  | .field _ _ object _ _ _ => by
    rw [indexUses, evaluateIndices]
    exact evaluateIndices_traces object
  | .subscript _ _ indexed index _ => by
    rw [indexUses, evaluateIndices, List.map_append]
    exact (evaluateIndices_traces indexed).bind fun _ => evaluate_traces index
  | .int _ _ _ | .float _ _ | .bool _ _ | .natParam _ _ | .fnRef _ _ _ | .name _ _ _ _
  | .tuple _ _ _ | .array _ _ _ | .call _ _ _ _ => .pure

theorem evaluateBase_traces (use : UseKind) : ∀ e : Expr, e.root? = none →
    Traces borrowed agree ((baseUses use e).map .use) (evaluateBase e)
  | .field _ _ object _ _ _, h => by
    rw [baseUses, evaluateBase]
    exact evaluateBase_traces use object h
  | .subscript _ _ indexed _ _, h => by
    rw [baseUses, evaluateBase]
    exact evaluateBase_traces use indexed h
  | .name _ _ _ _, h => nomatch h
  | .tuple _ _ elems, _ | .array _ _ elems, _ => evaluateAll_traces elems
  | .call location t target args, _ => by
    rw [baseUses, evaluateBase, List.map_append]
    exact callee_traces (evaluateArgs_traces _ _ _ args)
  | .int _ _ _, _ | .float _ _, _ | .bool _ _, _ | .natParam _ _, _ | .fnRef _ _ _, _ => .pure

theorem evaluateAll_traces : ∀ es : List Expr,
    Traces borrowed agree ((usesAll es).map .use) (evaluateAll es)
  | [] => .pure
  | e :: es => by
    rw [usesAll, evaluateAll, List.map_append]
    exact (evaluate_traces e).bind fun _ => evaluateAll_traces es

theorem evaluateArgs_traces (callee : String) (roots : List String)
    (ownership : List Ownership) : ∀ es : List Expr,
    Traces borrowed agree ((usesAll es).map .use) (evaluateArgs callee roots ownership es)
  | [] => .pure
  | e :: es => by
    rw [usesAll, evaluateArgs, List.map_append]
    exact checkArg_traces.bind fun roots => (evaluate_traces e).bind fun _ =>
      evaluateArgs_traces callee roots ownership.tail es

end

theorem bindAll_traces (location : Location) : ∀ (names : List String) (ts : List Ty),
    Traces borrowed agree (names.zipWith .bind ts) (Follow.bindAll location names ts)
  | name :: names, t :: ts => by
    rw [Follow.bindAll, List.zipWith_cons_cons]
    exact bind_traces.bind fun _ => bindAll_traces location names ts
  | [], _ => .pure
  | _ :: _, [] => .pure

theorem Traced.sane (h : Traced borrowed agree p st st₁) (hs : st.flow.Sane borrowed) :
    st₁.flow.Sane borrowed :=
  ⟨h.reachable.trans hs.reachable, hs.marked.steps (h.steps _ (.refl _))⟩

end

end QuantumStatics.Consumption
