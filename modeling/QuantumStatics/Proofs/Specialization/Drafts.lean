/-
  Definitions are specialized by their plans.

  Specializing a definition walks over its body, makes other specializations on the way, which may
  walk over further bodies, and records what they are kept by.  From a built cache this comes to the
  same as meeting the needs of the definition, one after the other, and then keeping the specialized
  definition.
-/
import QuantumStatics.Proofs.Specialization.Built

namespace QuantumStatics.Specialization

open Typed

/-! ## Meeting needs on a draft -/

namespace Draft

/-- A draft after some needs have been met. -/
def after (d : Draft) (c : Cache) (needs : List Need) : Draft where
  cache := c
  callees := (needs.filterMap (Need.keyText? .definition)).foldl addKey d.callees
  structs := (needs.filterMap (Need.keyText? .struct)).foldl addKey d.structs

@[simp] theorem after_cache (d : Draft) (c : Cache) (needs : List Need) :
    (d.after c needs).cache = c := rfl

theorem after_append (d : Draft) (c c' : Cache) (needs needs' : List Need) :
    (d.after c needs).after c' needs' = d.after c' (needs ++ needs') := by
  simp only [after, List.filterMap_append, List.foldl_append]

end Draft

section

variable (T : SignatureTable) (D : Definitions) (K : Request → Prop)
  (answer : Request → Specializing Specialized)

/-- On a draft with a built cache, the computation does what meeting the needs does to the cache,
    records the needs, and yields `a` unless a need cannot be met. -/
def Drafts {α : Type} (x : Drafting α) (needs : List Need) (a : α) : Prop :=
  (∀ r, .request r ∈ needs → K r) → ∀ d : Draft, Built T D K d.cache →
    match needs.forM (Need.meet answer) d.cache with
    | .ok _ c => x d = .ok a (d.after c needs)
    | .error e c => ∃ d' : Draft, x d = .error e d' ∧ d'.cache = c

end

variable {T : SignatureTable} {D : Definitions} {K : Request → Prop}
  {answer : Request → Specializing Specialized} {key : Key} {nested : DefinitionRequest}
  {location : Location} {c : Cache} {chain : Chain} {r : Request}

namespace Drafts

variable {α β : Type}

theorem pure (a : α) : Drafts T D K answer (Pure.pure a) [] a := fun _ _ _ => rfl

theorem defect (d : Defect) (f : α → Drafting β) (b : β) :
    Drafts T D K answer (Analysis.defect d >>= f) [.impossible d] b :=
  fun _ d _ => ⟨d, rfl, rfl⟩

theorem bind (h : ∀ r, K r → Answers T D K r (answer r)) {x : Drafting α} {f : α → Drafting β}
    {needs needs' : List Need} {a : α} {b : β} (hx : Drafts T D K answer x needs a)
    (hf : Drafts T D K answer (f a) needs' b) :
    Drafts T D K answer (x >>= f) (needs ++ needs') b := by
  intro hK d hb
  have hK₁ : ∀ r, .request r ∈ needs → K r := fun r hr => hK r (List.mem_append_left _ hr)
  have hx := hx hK₁ d hb
  have hbuilds := meet_builds (fun r hr => h r (hK₁ r hr)) d.cache hb trivial
  rw [List.forM_eq_forM, List.forM_append, ← List.forM_eq_forM]
  cases hm : needs.forM (Need.meet answer) d.cache with
  | error e c =>
    rw [hm] at hx
    obtain ⟨d', hx, hc⟩ := hx
    rw [bind_of_error hm]
    exact ⟨d', bind_of_error hx, hc⟩
  | ok u c =>
    rw [hm] at hx hbuilds
    rw [bind_of_ok hm, bind_of_ok hx]
    have hf := hf (fun r hr => hK r (List.mem_append_right _ hr)) (d.after c needs) hbuilds.1
    simpa only [Draft.after_append, Draft.after_cache] using hf

theorem bindPure (h : ∀ r, K r → Answers T D K r (answer r)) {x : Drafting α} {f : α → β}
    {needs : List Need} {a : α} (hx : Drafts T D K answer x needs a) :
    Drafts T D K answer (x >>= fun a => Pure.pure (f a)) needs (f a) := by
  have := hx.bind h (f := fun a => Pure.pure (f a)) (pure (f a))
  rwa [List.append_nil] at this

theorem forM (h : ∀ r, K r → Answers T D K r (answer r)) {f : α → Drafting Unit} {need : α → Need}
    (hf : ∀ a, Drafts T D K answer (f a) [need a] ()) (l : List α) :
    Drafts T D K answer (l.forM f) (l.map need) () := by
  induction l with
  | nil => exact pure ()
  | cons a l ih => exact (hf a).bind h (f := fun _ => l.forM f) ih

theorem request {r : Request} {wrap : α → Specialized} {x : Specializing α}
    {g : String → Drafting β} {b : β} (h : ∀ r, K r → Answers T D K r (answer r))
    (ha : answer r = wrap <$> x)
    (hg : ∀ d : Draft, g r.key.text d = .ok b (d.after d.cache [.request r])) :
    Drafts T D K answer (Draft.specializing x >>= fun s => g (wrap s).keyText)
      [.request r] b := by
  intro hK d hb
  have hr := h r (hK r (List.mem_singleton_self _)) d.cache hb trivial
  change match (discard (answer r) >>= fun _ => Pure.pure ()) d.cache with
    | .ok _ _ => _ | .error _ _ => _
  rw [ha] at hr ⊢
  cases hx : x d.cache with
  | error e c =>
    have hd : discard (wrap <$> x) d.cache = .error e c := map_of_error (map_of_error hx)
    rw [bind_of_error hd]
    refine ⟨{ d with cache := c }, bind_of_error ?_, rfl⟩
    simp only [Draft.specializing, hx]
  | ok s c =>
    have hd : discard (wrap <$> x) d.cache = .ok () c := map_of_ok (map_of_ok hx)
    have hs : Draft.specializing x d = .ok s { d with cache := c } := by
      simp only [Draft.specializing, hx]
    rw [map_of_ok hx] at hr
    rw [bind_of_ok hd]
    show (Draft.specializing x >>= fun s => g (wrap s).keyText) d = _
    rw [bind_of_ok hs, (hr.1.keyText hr.2.2).2]
    exact hg _

end Drafts

/-! ## Closing a definition -/

/-- Answers what a definition needs. -/
def answerNeeds (T : SignatureTable) (nested : DefinitionRequest) (chain : Chain) :
    Request → Specializing Specialized
  | ⟨.struct, key, location⟩ => .struct <$> requestStruct T key location
  | ⟨.definition, key, location⟩ => .definition <$> nested chain key location

section

variable {I : Instantiation}

theorem closeType_drafts (h : ∀ r, K r → Answers T D K r (answerNeeds T nested chain r)) (t : Ty) :
    Drafts T D K (answerNeeds T nested chain) (closeType T I location t)
      (partNeeds D I location (.type t)) (I.apply t) := by
  simp only [closeType, partNeeds]
  by_cases hc : (I.apply t).closed
  · rw [if_pos hc, if_pos hc]
    exact .bindPure h (.forM h (fun k =>
      .request (r := ⟨.struct, k, location⟩) h rfl fun _ => rfl) _)
  · rw [if_neg hc, if_neg hc]
    exact .defect _ _ _

theorem closeNat_drafts (n : NatTerm) :
    Drafts T D K answer (closeNat I n) (natNeeds I n) (I.applyNat n) := by
  simp only [closeNat, natNeeds]
  by_cases hc : (I.applyNat n).isConst
  · rw [if_pos hc, if_pos hc]
    exact .pure _
  · rw [if_neg hc, if_neg hc]
    exact .defect _ _ _

theorem natParam_drafts (l : Location) (n : String) :
    Drafts T D K answer (closeNat I (.var n) >>= natParamValue l n)
      (natNeeds I (.var n)) (natValue I l n) := by
  simp only [closeNat, natNeeds, natValue]
  cases I.applyNat (.var n) with
  | const value => exact .pure _
  | var _ => exact .defect _ _ _
  | undet _ => exact .defect _ _ _

theorem linkCall_drafts (h : ∀ r, K r → Answers T D K r (answerNeeds T nested chain r))
    (l : Location) (c : CallTarget) :
    Drafts T D K (answerNeeds T nested chain) (linkCall D (nested chain) l (c.inst I))
      (partNeeds D I location (.call l c)) (c.specialize I) := by
  have hcallee : (c.inst I).callee = c.callee := rfl
  simp only [linkCall, partNeeds, hcallee]
  by_cases hc : D.contains c.callee
  · rw [if_pos hc, if_pos hc]
    exact .request (r := ⟨.definition, (c.inst I).key, l⟩) (g := fun text => do
      Draft.addCallee text
      return { c.inst I with specialization := some text }) h rfl fun _ => rfl
  · rw [if_neg hc, if_neg hc]
    exact .pure _

/-- **Closing the parts of a definition** meets the needs of each, one after the other. -/
theorem closing_tracks (h : ∀ r, K r → Answers T D K r (answerNeeds T nested chain r)) :
    (closing T D I location (nested chain)).Tracks I fun x parts a =>
      Drafts T D K (answerNeeds T nested chain) x (parts.flatMap (partNeeds D I location)) a where
  pure a := .pure a
  bind hx hf := by
    rw [List.flatMap_append]
    exact hx.bind h hf
  type t := by
    rw [List.flatMap_singleton]
    exact closeType_drafts h t
  nat n := by
    rw [List.flatMap_singleton]
    exact closeNat_drafts n
  natParam l n := by
    rw [List.flatMap_singleton]
    exact natParam_drafts l n
  call l c := by
    rw [List.flatMap_singleton]
    exact linkCall_drafts h l c

theorem drafting_eq (h : ∀ r, K r → Answers T D K r (answerNeeds T nested chain r))
    {f : Typed.Function} (hK : ∀ r, .request r ∈ definitionNeeds D I f → K r)
    (hc : Built T D K c) (key : Key) :
    drafting key.text (f.replace (closing T D I f.location (nested chain))) c = (do
      (definitionNeeds D I f).forM (Need.meet (answerNeeds T nested chain))
      return specializationOf D key f I : Specializing ConcreteDefinition) c := by
  have ht : (closing T D I f.location (nested chain)).Tracks I _ := closing_tracks h
  have hf := f.tracks_replace ht hK { cache := c } hc
  unfold drafting
  change match (definitionNeeds D I f).forM (Need.meet (answerNeeds T nested chain)) c with
    | .ok _ _ => _ | .error _ _ => _ at hf
  cases hm : (definitionNeeds D I f).forM (Need.meet (answerNeeds T nested chain)) c with
  | ok u c' =>
    rw [hm] at hf
    rw [bind_of_ok hm, hf]
    rfl
  | error e c' =>
    rw [hm] at hf
    obtain ⟨d, hf, rfl⟩ := hf
    rw [bind_of_error hm, hf]

end

/-! ## Requests -/

theorem keeping_definition (d : ConcreteDefinition) :
    .definition <$> publish d = keeping (.definition d) := by
  funext c
  change EStateM.Result.ok _ _ = EStateM.Result.ok _ _
  congr 1
  simp [Cache.find?, Cache.keep, Specialized.kind, Specialized.keyText, Dict.get?_insertNew]

theorem follow_definitionPlan (h : ∀ r, K r → Answers T D K r (answerNeeds T nested chain r))
    {f : Typed.Function} (hK : ∀ r, .request r ∈ (definitionPlan D f key).needs → K r)
    (hc : Built T D K c) :
    (do
      let d ← drafting key.text (f.replace (closing T D
        (.pair f.generics key.typeArgs key.natArgs) f.location (nested chain)))
      Specialized.definition <$> publish d) c =
        (definitionPlan D f key).follow (answerNeeds T nested chain) c := by
  have hdraft := drafting_eq h hK hc key
  simp only [keeping_definition]
  change EStateM.bind _ _ _ = _
  rw [EStateM.bind, hdraft]
  change ((_ >>= fun _ => pure (specializationOf D key f _)) >>= _ : Specializing Specialized) c = _
  simp only [bind_assoc, pure_bind]
  rfl

theorem definitionWith_eq_answerWith (hK : ClosedUnderNeeds T D K)
    (h : ∀ chain r, K r → Answers T D K r (answerNeeds T nested chain r))
    (hr : K ⟨.definition, key, location⟩) (hc : Built T D K c) :
    (.definition <$> definitionWith T D nested chain key location : Specializing Specialized) c =
      answerWith T D (answerNeeds T nested) chain ⟨.definition, key, location⟩ c := by
  simp only [definitionWith, answerWith, Request.plan]
  cases hf : D.get? key.name with
  | none => rfl
  | some f =>
    simp only [map_bind]
    cases hk : key.checkArgs f.generics location with
    | error e => rfl
    | ok u =>
      have hp : Request.plan T D ⟨.definition, key, location⟩ = .ok (definitionPlan D f key) :=
        plan_definition_eq_ok.mpr ⟨f, hf, hk, rfl⟩
      have hget : (get : Specializing Cache) c = .ok c c := rfl
      simp only [ofArgs_of_checkArgs hk, Except.map, ofExcept_ok, ofDefect_ok, pure_bind]
      rw [bind_of_ok hget, bind_of_ok hget]
      simp only [Cache.find?]
      cases c.definitions.get? key.text with
      | some d => rfl
      | none =>
        simp only [map_bind]
        cases enter chain key location with
        | error e => rfl
        | ok chain =>
          simp only [ofExcept_ok, pure_bind]
          exact follow_definitionPlan (h chain) (fun r => hK _ _ r hr hp) hc

/-! ## Every request builds -/

theorem defect_answers (r : Request) {α : Type} (wrap : α → Specialized) (d : Defect) :
    Answers T D K r (wrap <$> Analysis.defect d) :=
  .map (.throw (.defect d))

theorem structWithin_builds (hK : ClosedUnderNeeds T D K) (bound : Nat) (chain : Chain)
    (hr : K ⟨.struct, key, location⟩) :
    Answers T D K ⟨.struct, key, location⟩
      (.struct <$> structWithin T bound chain key location) := by
  induction bound generalizing chain key location with
  | zero =>
    rw [structWithin, structWith_eq_answerWith T D]
    exact answerWith_builds hr (fun _ _ r' _ _ => defect_answers r' _ _) chain
  | succ bound ih =>
    rw [structWithin, structWith_eq_answerWith T D]
    refine answerWith_builds hr (fun chain p r' hp hr' => ?_) chain
    obtain ⟨key', rfl⟩ := need_of_struct hp hr'
    exact ih chain (hK _ _ _ hr hp hr')

theorem answerNeeds_builds (hK : ClosedUnderNeeds T D K)
    (h : ∀ {key location}, K ⟨.definition, key, location⟩ →
      Answers T D K ⟨.definition, key, location⟩ (.definition <$> nested chain key location))
    (hr : K r) : Answers T D K r (answerNeeds T nested chain r) := by
  obtain ⟨_ | _, key, location⟩ := r
  · exact structWithin_builds hK _ [] hr
  · exact h hr

theorem definitionWith_builds (hK : ClosedUnderNeeds T D K)
    (h : ∀ chain {key location}, K ⟨.definition, key, location⟩ →
      Answers T D K ⟨.definition, key, location⟩ (.definition <$> nested chain key location))
    (chain : Chain) (hr : K ⟨.definition, key, location⟩) :
    Answers T D K ⟨.definition, key, location⟩
      (.definition <$> definitionWith T D nested chain key location) := by
  have hn := fun chain r => answerNeeds_builds (r := r) hK (h chain)
  intro c hc _
  rw [definitionWith_eq_answerWith hK hn hr hc]
  exact answerWith_builds hr (fun chain p r' hp hr' => hn chain r' (hK _ _ _ hr hp hr')) chain c hc
    trivial

theorem definitionWithin_builds (hK : ClosedUnderNeeds T D K) (bound : Nat) (chain : Chain)
    (hr : K ⟨.definition, key, location⟩) :
    Answers T D K ⟨.definition, key, location⟩
      (.definition <$> definitionWithin T D bound chain key location) := by
  induction bound generalizing chain key location with
  | zero => exact definitionWith_builds hK (fun _ _ _ _ => defect_answers _ _ _) chain hr
  | succ bound ih => exact definitionWith_builds hK (fun chain _ _ => ih chain) chain hr

/-- **Every request keeps caches built**, whether it succeeds or not, and leaves its answer. -/
theorem Request.answer_builds (hK : ClosedUnderNeeds T D K) (hr : K r) :
    Answers T D K r (r.answer T D) := by
  obtain ⟨_ | _, key, location⟩ := r
  · exact structWithin_builds hK _ [] hr
  · exact definitionWithin_builds hK _ [] hr

end QuantumStatics.Specialization
