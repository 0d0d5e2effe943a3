/-
  Calls of local bindings and the definitions of their names.

  A call of a function that a local binding holds is taken for a call of the definition of this
  name, if there is one.  If no call of a local binding has the name of a definition, such calls
  lead to nothing, and it does not matter how the bindings are called.

  * `Request.answer_beside`: requests are answered alike with definitions that are linked alike;
  * `local_calls_lead_nowhere`: calls of local bindings are not among the callees, and renaming a
    local binding changes neither the outcome of a request nor what is listed with it;
  * `shadowing_call_linked`: not so for a local binding with the name of a definition.
-/
import QuantumStatics.Elaboration.Definition
import QuantumStatics.Proofs.Specialization.Sessions
import QuantumStatics.Proofs.Ty.Composition
import QuantumStatics.Proofs.Typed.Renaming

namespace QuantumStatics.Specialization

open Typed

/-! ## Specializations but for their bodies -/

/-- All of a specialization but the parameters and the body of a definition. -/
def Specialized.links : Specialized → Specialized
  | .struct s => .struct s
  | .definition d => .definition { d with function := { d.function with params := [], body := [] } }

@[simp] theorem Specialized.kind_links (s : Specialized) : s.links.kind = s.kind := by
  cases s <;> rfl

@[simp] theorem Specialized.keyText_links (s : Specialized) : s.links.keyText = s.keyText := by
  cases s <;> rfl

/-- Caches with the same links by the same keys. -/
def Cache.Alike (c c' : Cache) : Prop :=
  ∀ kind text,
    (c.find? kind text).map Specialized.links = (c'.find? kind text).map Specialized.links

/-- Two specializations name the same callees and structs. -/
def SameLinks (s s' : Specialized) : Prop := s.links = s'.links

variable {s s' : Specialized} {c c' : Cache} {α : Type} {f : Typed.Function} {y : String}

theorem SameLinks.key (h : SameLinks s s') : s.kind = s'.kind ∧ s.keyText = s'.keyText := by
  rw [← s.kind_links, ← s.keyText_links, h, s'.kind_links, s'.keyText_links]
  exact ⟨rfl, rfl⟩

theorem Cache.Alike.keep (h : c.Alike c') (hs : SameLinks s s') :
    (c.keep s).Alike (c'.keep s') := by
  intro kind text
  obtain ⟨hk, ht⟩ := hs.key
  have same := h kind text
  rw [SameLinks] at hs
  rw [find?_keep, find?_keep, hk, ht]
  split
  · cases hc : c.find? kind text <;> cases hc' : c'.find? kind text <;>
      simp_all
  · exact same

/-- Two runs end alike: both fail with one error, or both succeed with values that are related. -/
def Parallel {α : Type} (E : α → α → Prop) :
    EStateM.Result Failure Cache α → EStateM.Result Failure Cache α → Prop
  | .ok a c, .ok b c' => E a b ∧ c.Alike c'
  | .error e c, .error e' c' => e = e' ∧ c.Alike c'
  | _, _ => False

/-- The error of a request, or the links of what it yields. -/
def outcome : EStateM.Result Failure Cache Specialized → Except Failure Specialized
  | .ok s _ => .ok s.links
  | .error e _ => .error e

theorem Parallel.cacheOf {E : α → α → Prop} {x y : EStateM.Result Failure Cache α}
    (h : Parallel E x y) : (cacheOf x).Alike (cacheOf y) := by
  cases x <;> cases y <;> first | exact h.2 | exact h.elim

theorem Parallel.outcome {x y : EStateM.Result Failure Cache Specialized}
    (h : Parallel SameLinks x y) : outcome x = outcome y := by
  cases x <;> cases y
  · exact congrArg Except.ok h.1
  · exact h.elim
  · exact h.elim
  · exact congrArg Except.error h.1

section

variable {α β : Type} {E : α → α → Prop} {E' : β → β → Prop} {x y : Specializing α}
  {f g : α → Specializing β} {c c' : Cache}

theorem Parallel.bind (h : Parallel E (x c) (y c'))
    (hf : ∀ a b c₁ c₁', x c = .ok a c₁ → y c' = .ok b c₁' → E a b → c₁.Alike c₁' →
      Parallel E' (f a c₁) (g b c₁')) : Parallel E' ((x >>= f) c) ((y >>= g) c') := by
  cases hx : x c with
  | ok a c₁ =>
    cases hy : y c' with
    | ok b c₁' =>
      rw [hx, hy] at h
      rw [bind_of_ok hx, bind_of_ok hy]
      exact hf a b c₁ c₁' hx hy h.1 h.2
    | error e c₁' =>
      rw [hx, hy] at h
      exact h.elim
  | error e c₁ =>
    cases hy : y c' with
    | ok b c₁' =>
      rw [hx, hy] at h
      exact h.elim
    | error e' c₁' =>
      rw [hx, hy] at h
      rw [bind_of_error hx, bind_of_error hy]
      exact h

theorem Parallel.map {u : α → β} {v : α → β} (h : Parallel E (x c) (y c'))
    (huv : ∀ a b, E a b → E' (u a) (v b)) : Parallel E' ((u <$> x) c) ((v <$> y) c') := by
  rw [map_eq_pure_bind, map_eq_pure_bind]
  exact h.bind fun a b c₁ c₁' _ _ hab hc => ⟨huv a b hab, hc⟩

end

theorem keeping_parallel (alike : c.Alike c') (h : SameLinks s s') :
    Parallel SameLinks (keeping s c) (keeping s' c') := by
  obtain ⟨hk, ht⟩ := h.key
  have kept := alike.keep h
  have getD : ∀ (o : Option Specialized) (s : Specialized),
      (o.getD s).links = (o.map Specialized.links).getD s.links := by
    intro o s
    cases o <;> rfl
  refine ⟨?_, kept⟩
  rw [SameLinks, getD, getD, hk, ht, kept, h]

/-! ## Definitions that are linked alike -/

/-- Definitions of the same names that need the same of each other. -/
structure LinkedAlike (D D' : Definitions) : Prop where
  size : D.size = D'.size
  known (n : String) : D.contains n = D'.contains n
  header {n : String} {f f' : Typed.Function} : D.get? n = some f → D'.get? n = some f' →
    (f.location, f.name, f.owner, f.generics, f.result) =
      (f'.location, f'.name, f'.owner, f'.generics, f'.result)
  needs {n : String} {f f' : Typed.Function} (I : Instantiation) : D.get? n = some f →
    D'.get? n = some f' → definitionNeeds D I f = definitionNeeds D' I f'

/-- Plans with the same needs and results with the same links. -/
def Plan.Alike (p p' : Plan) : Prop :=
  p.needs = p'.needs ∧ p.result.map Specialized.links = p'.result.map Specialized.links

variable {T : SignatureTable} {D D' : Definitions}

theorem plan_alike (h : LinkedAlike D D') (r : Request) :
    (∃ e, r.plan T D = .error e ∧ r.plan T D' = .error e) ∨
      ∃ p p', r.plan T D = .ok p ∧ r.plan T D' = .ok p' ∧ p.Alike p' := by
  obtain ⟨_ | _, key, l⟩ := r
  · cases hp : Request.plan T D ⟨.struct, key, l⟩ with
    | error e => exact .inl ⟨e, rfl, hp⟩
    | ok p => exact .inr ⟨p, p, rfl, hp, rfl, rfl⟩
  · have known := h.known key.name
    simp only [Dict.contains] at known
    simp only [Request.plan]
    cases hf : D.get? key.name with
    | none =>
      rw [hf] at known
      rw [Option.isSome_eq_false_iff.mp known.symm |> Option.isNone_iff_eq_none.mp]
      exact .inl ⟨_, rfl, rfl⟩
    | some f =>
      rw [hf] at known
      obtain ⟨f', hf'⟩ := Option.isSome_iff_exists.mp known.symm
      have header := h.header hf hf'
      simp only [Prod.mk.injEq] at header
      obtain ⟨location, name, owner, generics, result⟩ := header
      simp only [hf']
      rw [← generics]
      cases key.checkArgs f.generics l with
      | error e => exact .inl ⟨e, rfl, rfl⟩
      | ok u =>
        refine .inr ⟨_, _, rfl, rfl, ?_⟩
        simp only [Plan.Alike, definitionPlan, ← generics, ← h.needs _ hf hf', true_and,
          Except.map, Specialized.links, specializationOf, Function.specialize, location, name,
          owner, result]

/-! ## Requests -/

/-- A request is answered alike on built caches that are alike. -/
structure Beside (T : SignatureTable) (D D' : Definitions) (r : Request)
    (x y : Specializing Specialized) : Prop where
  left : Answers T D (fun _ => True) r x
  right : Answers T D' (fun _ => True) r y
  parallel {c c' : Cache} : Built T D (fun _ => True) c → Built T D' (fun _ => True) c' →
    c.Alike c' → Parallel SameLinks (x c) (y c')

section

variable {answer answer' : Request → Specializing Specialized} {c c' : Cache}

theorem meet_parallel {needs : List Need}
    (h : ∀ r, .request r ∈ needs → Beside T D D' r (answer r) (answer' r))
    (hc : Built T D (fun _ => True) c) (hc' : Built T D' (fun _ => True) c') (alike : c.Alike c') :
    Parallel (fun _ _ => True) (needs.forM (Need.meet answer) c)
      (needs.forM (Need.meet answer') c') := by
  induction needs generalizing c c' with
  | nil => exact ⟨trivial, alike⟩
  | cons n needs ih =>
    have others := fun r hr => h r (List.mem_cons_of_mem n hr)
    cases n with
    | impossible d => exact ⟨rfl, alike⟩
    | request r =>
      have first := h r List.mem_cons_self
      have left : Builds T D (fun _ => True) (fun _ => True) (discard (answer r)) fun _ _ => True :=
        .map (first.left.imp (fun _ h => h) fun _ _ _ => trivial)
      have right : Builds T D' (fun _ => True) (fun _ => True) (discard (answer' r))
          fun _ _ => True := .map (first.right.imp (fun _ h => h) fun _ _ _ => trivial)
      refine Parallel.bind (E := fun _ _ => True)
        ((first.parallel hc hc' alike).map fun _ _ _ => trivial) ?_
      intro _ _ c₁ c₁' hx hy _ alike
      exact ih others (left.of_ok hc trivial hx).1 (right.of_ok hc' trivial hy).1 alike

theorem follow_parallel {p p' : Plan} (hp : p.Alike p')
    (h : ∀ r, .request r ∈ p.needs → Beside T D D' r (answer r) (answer' r))
    (hc : Built T D (fun _ => True) c) (hc' : Built T D' (fun _ => True) c') (alike : c.Alike c') :
    Parallel SameLinks (p.follow answer c) (p'.follow answer' c') := by
  obtain ⟨needs, result⟩ := hp
  rw [Plan.follow, Plan.follow, ← needs]
  refine (meet_parallel h hc hc' alike).bind fun _ _ c₁ c₁' _ _ _ alike => ?_
  cases hr : p.result with
  | error d =>
    cases hr' : p'.result with
    | error d' =>
      rw [hr, hr'] at result
      cases result
      exact ⟨rfl, alike⟩
    | ok s' =>
      rw [hr, hr'] at result
      cases result
  | ok s =>
    cases hr' : p'.result with
    | error d' =>
      rw [hr, hr'] at result
      cases result
    | ok s' =>
      rw [hr, hr'] at result
      rw [ofDefect_ok, ofDefect_ok, pure_bind, pure_bind]
      exact keeping_parallel alike (Except.ok.inj result)

end

/-- **Answering by plans that are alike**, if what is needed is answered alike. -/
theorem answerWith_beside (hD : LinkedAlike D D')
    {nested nested' : Chain → Request → Specializing Specialized} {r : Request}
    (h : ∀ chain p r', r.plan T D = .ok p → .request r' ∈ p.needs →
      Beside T D D' r' (nested chain r') (nested' chain r')) (chain : Chain) :
    Beside T D D' r (answerWith T D nested chain r) (answerWith T D' nested' chain r) where
  left := answerWith_builds trivial (fun chain p r' hp hr' => (h chain p r' hp hr').left) chain
  right := by
    refine answerWith_builds trivial (fun chain p' r' hp' hr' => ?_) chain
    rcases plan_alike hD r with ⟨e, -, he⟩ | ⟨p, p'', hp, hp'', needs, -⟩
    · cases he.symm.trans hp'
    · cases hp''.symm.trans hp'
      exact (h chain p r' hp (needs ▸ hr')).right
  parallel {c c'} hc hc' alike := by
    rcases plan_alike (T := T) hD r with ⟨e, he, he'⟩ | ⟨p, p', hp, hp', hpp⟩
    · rw [answerWith_of_refused he, answerWith_of_refused he']
      exact ⟨rfl, alike⟩
    · have found := alike r.kind r.key.text
      cases hs : c.find? r.kind r.key.text with
      | some s =>
        rw [hs] at found
        obtain ⟨s', hs', links⟩ := Option.map_eq_some_iff.mp found.symm
        rw [answerWith_of_cached hp hs, answerWith_of_cached hp' hs']
        exact ⟨links.symm, alike⟩
      | none =>
        rw [hs] at found
        have hs' := Option.map_eq_none_iff.mp found.symm
        rw [answerWith_of_new hp hs, answerWith_of_new hp' hs']
        cases enter chain r.key r.location with
        | error e => exact ⟨rfl, alike⟩
        | ok chain' =>
          rw [ofExcept_ok, pure_bind, pure_bind]
          exact follow_parallel hpp (fun r' => h chain' p r' hp) hc hc' alike

theorem defect_beside (r : Request) {α : Type} (wrap : α → Specialized) (d : Defect) :
    Beside T D D' r (wrap <$> Analysis.defect d) (wrap <$> Analysis.defect d) where
  left := defect_answers r wrap d
  right := defect_answers r wrap d
  parallel _ _ alike := ⟨rfl, alike⟩

theorem structWithin_beside (hD : LinkedAlike D D') (bound : Nat) (chain : Chain) (key : Key)
    (l : Location) : Beside T D D' ⟨.struct, key, l⟩ (.struct <$> structWithin T bound chain key l)
      (.struct <$> structWithin T bound chain key l) := by
  -- Structs do not look at definitions, so the same computation follows the plans of both.
  have step : ∀ nested : StructRequest,
      (∀ chain key l, Beside T D D' ⟨.struct, key, l⟩ (.struct <$> nested chain key l)
        (.struct <$> nested chain key l)) → ∀ chain key l,
      Beside T D D' ⟨.struct, key, l⟩ (.struct <$> structWith T nested chain key l)
        (.struct <$> structWith T nested chain key l) := by
    intro nested h chain key l
    let answers : Chain → Request → Specializing Specialized := fun chain r =>
      .struct <$> nested chain r.key r.location
    have beside : Beside T D D' ⟨.struct, key, l⟩ (answerWith T D answers chain ⟨.struct, key, l⟩)
        (answerWith T D' answers chain ⟨.struct, key, l⟩) :=
      answerWith_beside hD (fun chain p r' hp hr' => by
        obtain ⟨key', rfl⟩ := need_of_struct hp hr'
        exact h chain key' l) chain
    rwa [← structWith_eq_answerWith, ← structWith_eq_answerWith] at beside
  induction bound generalizing chain key l with
  | zero => exact step _ (fun _ _ _ => defect_beside _ _ _) chain key l
  | succ bound ih => exact step _ ih chain key l

theorem Beside.congr {r : Request} {x x' y y' : Specializing Specialized}
    (h : Beside T D D' r x' y') (hx : ∀ c, Built T D (fun _ => True) c → x c = x' c)
    (hy : ∀ c, Built T D' (fun _ => True) c → y c = y' c) : Beside T D D' r x y where
  left c hc hp := by
    rw [hx c hc]
    exact h.left c hc hp
  right c hc hp := by
    rw [hy c hc]
    exact h.right c hc hp
  parallel hc hc' alike := by
    rw [hx _ hc, hy _ hc']
    exact h.parallel hc hc' alike

theorem definitionWith_beside (hD : LinkedAlike D D') {nested nested' : DefinitionRequest}
    (h : ∀ chain key l, Beside T D D' ⟨.definition, key, l⟩ (.definition <$> nested chain key l)
      (.definition <$> nested' chain key l)) (chain : Chain) (key : Key) (l : Location) :
    Beside T D D' ⟨.definition, key, l⟩ (.definition <$> definitionWith T D nested chain key l)
      (.definition <$> definitionWith T D' nested' chain key l) := by
  have all : ∀ D, ClosedUnderNeeds T D fun _ => True := fun _ _ _ _ _ _ _ => trivial
  have needs : ∀ chain r, Beside T D D' r (answerNeeds T nested chain r)
      (answerNeeds T nested' chain r) := by
    rintro chain ⟨_ | _, key, l⟩
    · exact structWithin_beside hD _ [] key l
    · exact h chain key l
  refine (answerWith_beside hD (fun chain _ r' _ _ => needs chain r') chain).congr ?_ ?_
  · exact fun c => definitionWith_eq_answerWith (all D) (fun chain r _ => (needs chain r).left)
      trivial
  · exact fun c => definitionWith_eq_answerWith (all D') (fun chain r _ => (needs chain r).right)
      trivial

theorem definitionWithin_beside (hD : LinkedAlike D D') (bound : Nat) (chain : Chain) (key : Key)
    (l : Location) : Beside T D D' ⟨.definition, key, l⟩
      (.definition <$> definitionWithin T D bound chain key l)
      (.definition <$> definitionWithin T D' bound chain key l) := by
  induction bound generalizing chain key l with
  | zero => exact definitionWith_beside hD (fun _ _ _ => defect_beside _ _ _) chain key l
  | succ bound ih => exact definitionWith_beside hD ih chain key l

theorem Request.answer_beside (hD : LinkedAlike D D') (r : Request) :
    Beside T D D' r (r.answer T D) (r.answer T D') := by
  obtain ⟨_ | _, key, l⟩ := r
  · exact structWithin_beside hD _ [] key l
  · change Beside T D D' _ (.definition <$> request T D key l) (.definition <$> request T D' key l)
    rw [request, request, hD.size]
    exact definitionWithin_beside hD _ [] key l

theorem session_alike (hD : LinkedAlike D D') (rs : List Request) :
    (session T D rs).Alike (session T D' rs) := by
  have all : ∀ D, ClosedUnderNeeds T D fun _ => True := fun _ _ _ _ _ _ _ => trivial
  suffices ∀ c c', Built T D (fun _ => True) c → Built T D' (fun _ => True) c' → c.Alike c' →
      (rs.foldl (fun c r => cacheOf (r.answer T D c)) c).Alike
        (rs.foldl (fun c r => cacheOf (r.answer T D' c)) c') from
    this {} {} .empty .empty fun _ _ => rfl
  induction rs with
  | nil => exact fun _ _ _ _ alike => alike
  | cons r rs ih =>
    intro c c' hc hc' alike
    have beside := Request.answer_beside (T := T) hD r
    refine ih _ _ (beside.left.built hc) (beside.right.built hc') ?_
    exact (beside.parallel hc hc' alike).cacheOf

/-! ## Calls of local bindings -/

/-- No local value that is called has the name of a definition. -/
def LocalsApart (D : Definitions) : Prop :=
  ∀ n f, D.get? n = some f → ∀ c ∈ f.calls, c.kind = .localValue → D.contains c.callee = false

theorem partNeeds_congr {D D' : Definitions} (known : ∀ n, D.contains n = D'.contains n)
    (I : Instantiation) (l : Location) (part : Part) :
    partNeeds D I l part = partNeeds D' I l part := by
  cases part with
  | type | nat | natParam => rfl
  | call l' c => rw [partNeeds, partNeeds, known]

theorem needs_rename {D D' : Definitions} (known : ∀ n, D.contains n = D'.contains n)
    (apart : ∀ c ∈ f.calls, c.kind = .localValue → D.contains c.callee = false) {x : String}
    (hy : D.contains y = false) (I : Instantiation) :
    definitionNeeds D I f = definitionNeeds D' I (f.rename x y) := by
  rw [definitionNeeds, definitionNeeds, Function.parts_rename, List.flatMap_map, List.flatMap_def,
    List.flatMap_def]
  refine congrArg List.flatten (List.map_congr_left fun part hp => ?_)
  cases part with
  | type | nat | natParam => rfl
  | call l c =>
    simp only [Part.rename, partNeeds, CallTarget.rename, ← known]
    by_cases kind : c.kind = .localValue
    · have old := apart c (Function.mem_calls.mpr ⟨l, hp⟩) kind
      have new : D.contains (renamed x y c.callee) = false := by
        rw [renamed]
        split
        · exact hy
        · exact old
      simp [kind, old, new]
    · rw [if_neg kind]

theorem length_place {k : String} {v : α} {es : List (String × α)}
    (ordered : es.Pairwise fun e e' => e.1 < e'.1) (bound : (es.lookup k).isSome) :
    (Dict.place k v es).length = es.length := by
  induction es with
  | nil => cases bound
  | cons e es ih =>
    obtain ⟨k', v'⟩ := e
    obtain ⟨first, others⟩ := List.pairwise_cons.mp ordered
    rw [lookup_entry] at bound
    rw [Dict.place]
    split
    · next before =>
      have different : k ≠ k' := fun same => String.lt_irrefl k (same ▸ before)
      rw [if_neg different] at bound
      obtain ⟨w, hw⟩ := Option.isSome_iff_exists.mp bound
      have after := first _ (Instantiation.mem_of_lookup hw)
      exact absurd (String.lt_trans before after) (String.lt_irrefl k)
    · split
      · rfl
      · next different =>
        rw [if_neg different] at bound
        rw [List.length_cons, List.length_cons, ih others bound]

theorem linkedAlike_rename (apart : LocalsApart D) {n : String} (hf : D.get? n = some f)
    (x : String) (hy : D.contains y = false) : LinkedAlike D (D.insert n (f.rename x y)) := by
  have known : ∀ m, D.contains m = Dict.contains (D.insert n (f.rename x y)) m := by
    intro m
    rw [Dict.contains, Dict.contains, Dict.get?_insert]
    split
    · next same => rw [same, hf]; rfl
    · rfl
  refine ⟨(length_place D.ordered (Option.isSome_of_eq_some hf)).symm, known, ?_, ?_⟩
  · intro m g g' hg hg'
    rw [Dict.get?_insert] at hg'
    split at hg'
    · next same =>
      cases hg'
      rw [same, hf] at hg
      cases hg
      rfl
    · cases hg.symm.trans hg'
      rfl
  · intro m g g' I hg hg'
    rw [Dict.get?_insert] at hg'
    split at hg'
    · next same =>
      cases hg'
      rw [same, hf] at hg
      cases hg
      exact needs_rename known (apart n f hf) hy I
    · cases hg.symm.trans hg'
      rw [definitionNeeds, definitionNeeds, funext (partNeeds_congr known I g.location)]

/-- The answer to a request after some others. -/
def answerAfter (T : SignatureTable) (D : Definitions) (rs : List Request) (r : Request) :
    EStateM.Result Failure Cache Specialized :=
  r.answer T D (session T D rs)

/-- **Calls of local bindings lead nowhere**, if none has the name of a definition.  What is listed
    with a cached definition are the definitions that its other calls invoke.  If a local binding of
    a definition is renamed, to a name that no definition has, every request has the same outcome
    after every session: it fails with the same error, or yields what is listed with the same
    callees and structs. -/
theorem local_calls_lead_nowhere (T : SignatureTable) (D : Definitions) (apart : LocalsApart D)
    (rs : List Request) :
    (∀ k d, (session T D rs).definitions.get? k = some d → ∀ x, x ∈ d.callees ↔
      ∃ c ∈ d.function.calls, c.kind ≠ .localValue ∧ D.contains c.callee ∧
        c.specialization = some x) ∧
    ∀ n f, D.get? n = some f → ∀ x y, D.contains y = false → ∀ r,
      outcome (answerAfter T D rs r) =
        outcome (answerAfter T (D.insert n (f.rename x y)) rs r) := by
  constructor
  · intro k d h x
    obtain ⟨⟨_, key, l⟩, p, rfl, rfl, made⟩ := session_made T D rs (find?_definition.mpr h)
    obtain ⟨f, hf, _, rfl⟩ := plan_definition_eq_ok.mp made.plan
    cases made.result
    refine mem_callees.trans ⟨?_, fun ⟨c, hc, _, h⟩ => ⟨c, hc, h⟩⟩
    rintro ⟨c, hc, known, names⟩
    refine ⟨c, hc, fun kind => ?_, known, names⟩
    obtain ⟨l', hc⟩ := Function.mem_calls.mp hc
    obtain ⟨c₀, hc₀, rfl⟩ := Function.call_mem_specialize.mp hc
    have unknown := apart key.name f hf c₀ (Function.mem_calls.mpr ⟨l', hc₀⟩) kind
    cases unknown.symm.trans known
  · intro n f hf x y hy r
    have alike := linkedAlike_rename apart hf x hy
    have all : ∀ D, ClosedUnderNeeds T D fun _ => True := fun _ _ _ _ _ _ _ => trivial
    exact ((Request.answer_beside alike r).parallel (session_built (all D) fun _ _ => trivial)
      (session_built (all _) fun _ _ => trivial) (session_alike alike rs)).outcome

/-- Does nothing. -/
def ping : Typed.Function where
  name := "ping"
  params := []
  result := .none
  body := []

/-- Calls something without arguments. -/
def callNothing (callee : String) (kind : CallKind) (specialization : Option String) : Stmt :=
  .expr {} (.call {} .none { callee, kind, ownership := [], specialization } [])

/-- Calls its parameter, and `ping`. -/
def pings : Typed.Function where
  name := "pings"
  params := [⟨"g", .fn [] .none {}, .borrowed⟩]
  result := .none
  body := [callNothing "g" .localValue none, callNothing "ping" .function none]

/-- The specialization of `pings`. -/
def pingsSpecialized : ConcreteDefinition where
  key := "pings"
  function :=
    { pings with
      body := [callNothing "g" .localValue (some "g"), callNothing "ping" .function (some "ping")] }
  callees := ["ping"]
  structs := []

theorem localsApart_pings : LocalsApart (definitionsOf [ping, pings]) := by
  have entries : (definitionsOf [ping, pings]).entries = [("ping", ping), ("pings", pings)] := by
    cbv
  intro n f h c hc kind
  rw [Dict.get?, entries] at h
  have mem := Instantiation.mem_of_lookup h
  simp only [List.mem_cons, Prod.mk.injEq, List.not_mem_nil, or_false] at mem
  rcases mem with ⟨-, rfl⟩ | ⟨-, rfl⟩
  · cases hc
  · rcases List.mem_cons.mp hc with rfl | hc
    · decide
    · rw [List.mem_singleton.mp hc] at kind
      cases kind

theorem pings_leads_to_ping : LocalsApart (definitionsOf [ping, pings]) ∧
    (session {} (definitionsOf [ping, pings])
      [⟨.definition, ⟨"pings", [], []⟩, {}⟩]).definitions.get? "pings" = some pingsSpecialized ∧
    (∀ x, x ∈ ["ping"] ↔ ∃ c ∈ pingsSpecialized.function.calls, c.kind ≠ .localValue ∧
      (definitionsOf [ping, pings]).contains c.callee ∧ c.specialization = some x) ∧
    outcome (answerAfter {} (definitionsOf [ping, pings]) [] ⟨.definition, ⟨"pings", [], []⟩, {}⟩) =
      outcome (answerAfter {}
        ((definitionsOf [ping, pings]).insert "pings" (pings.rename "g" "h")) []
        ⟨.definition, ⟨"pings", [], []⟩, {}⟩) := by
  have cached : (session {} (definitionsOf [ping, pings])
      [⟨.definition, ⟨"pings", [], []⟩, {}⟩]).definitions.get? "pings" = some pingsSpecialized := by
    cbv
  have found : Dict.get? (definitionsOf [ping, pings]) "pings" = some pings := by cbv
  refine ⟨localsApart_pings, cached, ?_, ?_⟩
  · exact (local_calls_lead_nowhere _ _ localsApart_pings _).1 _ _ cached
  · exact (local_calls_lead_nowhere _ _ localsApart_pings _).2 _ _ found "g" "h" (by decide) _

/-- Calls its argument, which has the name of a definition. -/
def shadows : Typed.Function where
  name := "shadows"
  params := [⟨"ping", .fn [] .none {}, .borrowed⟩]
  result := .none
  body := [callNothing "ping" .localValue none]

/-- The specialization of `shadows`, for a name of its parameter. -/
def shadowsSpecialized (argument : String) (callees : List String) : ConcreteDefinition where
  key := "shadows"
  function :=
    { shadows with
      params := [⟨argument, .fn [] .none {}, .borrowed⟩]
      body := [callNothing argument .localValue (some argument)] }
  callees := callees
  structs := []

/-- The program of which `shadows` is what the checker yields. -/
def shadowsSource : Source.FunctionDef where
  name := "shadows"
  params := [⟨"ping", .fn [] .none {}, .borrowed⟩]
  result := none
  body := [.expr {} (.call {} "ping" [])]

/-- The header of `ping`. -/
def pingTable : SignatureTable :=
  SignatureTable.after (SignatureTable.add ⟨"ping", {}, [], .none, {}⟩) {}

/-- The specialization of `shadows`. -/
def requestShadows : Request := ⟨.definition, ⟨"shadows", [], []⟩, {}⟩

/-- **A call of a local binding with the name of a definition is taken for a call of the
    definition.**  The checker takes the call for one of the binding, but the definition is listed
    with the specialization.  It is not if the binding is renamed. -/
theorem shadowing_call_linked :
    (∃ memory, Elaboration.checkFunction pingTable none shadowsSource {} = .ok shadows memory) ∧
      (∀ c ∈ shadows.calls, c.kind = .localValue) ∧
      (session pingTable (definitionsOf [ping, shadows]) [requestShadows]).definitions.get?
        "shadows" = some (shadowsSpecialized "ping" ["ping"]) ∧
      (session pingTable ((definitionsOf [ping, shadows]).insert "shadows"
        (shadows.rename "ping" "h")) [requestShadows]).definitions.get? "shadows" =
          some (shadowsSpecialized "h" []) := by
  refine ⟨⟨{}, by cbv⟩, ?_, by cbv, by cbv⟩
  intro c hc
  rw [List.mem_singleton.mp hc]

end QuantumStatics.Specialization
