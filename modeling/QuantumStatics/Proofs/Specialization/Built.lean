/-
  Caches that are built by following plans.

  A specialization is kept only when all that it needs is in the cache, whether or not the request
  that led to it succeeds in the end.  So a cache is `Built`: it grows from nothing by one
  specialization at a time, each the result of a plan whose needs are met.
-/
import QuantumStatics.Proofs.Specialization.Plan

namespace QuantumStatics.Specialization

/-! ## Growth -/

/-- Everything in the first cache is in the second. -/
def Cache.Grows (c c' : Cache) : Prop :=
  ∀ kind text s, c.find? kind text = some s → c'.find? kind text = some s

namespace Cache.Grows

theorem refl (c : Cache) : c.Grows c := fun _ _ _ h => h

theorem trans {c c' c'' : Cache} (h : c.Grows c') (h' : c'.Grows c'') : c.Grows c'' :=
  fun kind text s hs => h' kind text s (h kind text s hs)

theorem keep (c : Cache) (s : Specialized) : c.Grows (c.keep s) := by
  intro kind text s' h
  rw [find?_keep]
  split
  · rw [h, Option.getD_some]
  · exact h

end Cache.Grows

/-- A need is met by what is in a cache. -/
def Need.Met (c : Cache) : Need → Prop
  | .request r => ∃ s, c.find? r.kind r.key.text = some s
  | .impossible _ => False

theorem Need.Met.grows {c c' : Cache} {n : Need} (h : n.Met c) (hg : c.Grows c') : n.Met c' := by
  cases n with
  | request r =>
    obtain ⟨s, hs⟩ := h
    exact ⟨s, hg _ _ _ hs⟩
  | impossible d => exact h

/-! ## Plans that can be followed -/

section

variable {T : SignatureTable} {D : Definitions} {r : Request} {p : Plan} {key : Key}
  {location : Location}

theorem plan_struct_eq_ok :
    Request.plan T D ⟨.struct, key, location⟩ = .ok p ↔
      ∃ decl, T.findStruct? key.name = some decl ∧ key.checkArgs decl.params location = .ok () ∧
        structPlan decl key location = p := by
  simp only [Request.plan]
  cases T.findStruct? key.name with
  | none => simp
  | some decl => cases h : key.checkArgs decl.params location <;> simp [Except.map, h]

theorem plan_definition_eq_ok :
    Request.plan T D ⟨.definition, key, location⟩ = .ok p ↔
      ∃ f, D.get? key.name = some f ∧ key.checkArgs f.generics location = .ok () ∧
        definitionPlan D f key = p := by
  simp only [Request.plan]
  cases D.get? key.name with
  | none => simp
  | some f => cases h : key.checkArgs f.generics location <;> simp [Except.map, h]

theorem structPlan_result {decl : StructDecl} {s : Specialized}
    (h : (structPlan decl key location).result = .ok s) :
    ∃ ownership, (Ty.struct decl key.typeArgs key.natArgs).classify = .ok ownership ∧
      s = .struct { key, fields := fieldsFor decl key, ownership } := by
  obtain ⟨ownership, ho, h⟩ := except_bind_eq_ok.mp h
  cases h
  exact ⟨ownership, ho, rfl⟩

theorem need_of_struct (hp : Request.plan T D ⟨.struct, key, location⟩ = .ok p) {r' : Request}
    (h : .request r' ∈ p.needs) : ∃ key', r' = ⟨.struct, key', location⟩ := by
  obtain ⟨decl, _, _, rfl⟩ := plan_struct_eq_ok.mp hp
  simp only [structPlan, structNeeds, List.mem_flatMap, List.mem_map] at h
  obtain ⟨_, _, key', _, h⟩ := h
  cases h
  exact ⟨key', rfl⟩

theorem kept_by_request (hp : r.plan T D = .ok p) {s : Specialized} (hs : p.result = .ok s) :
    s.kind = r.kind ∧ s.keyText = r.key.text := by
  obtain ⟨_ | _, key, location⟩ := r
  · obtain ⟨decl, _, _, rfl⟩ := plan_struct_eq_ok.mp hp
    obtain ⟨ownership, _, rfl⟩ := structPlan_result hs
    exact ⟨rfl, rfl⟩
  · obtain ⟨f, _, _, rfl⟩ := plan_definition_eq_ok.mp hp
    cases hs
    exact ⟨rfl, rfl⟩

end

/-! ## Built caches -/

section

variable (T : SignatureTable) (D : Definitions) (K : Request → Prop)

/-- A plan has been followed with a cache that meets its needs. -/
structure Made (c : Cache) (r : Request) (p : Plan) (s : Specialized) : Prop where
  plan : r.plan T D = .ok p
  met : ∀ n ∈ p.needs, n.Met c
  result : p.result = .ok s

/-- Caches that hold only answers to requests in `K`. -/
inductive Built : Cache → Prop where
  | empty : Built {}
  | keep {c : Cache} {r : Request} {p : Plan} {s : Specialized} (built : Built c) (asked : K r)
    (made : Made T D c r p s) : Built (c.keep s)

/-- A class of requests that has all requests that it needs. -/
def ClosedUnderNeeds : Prop :=
  ∀ r p r', K r → r.plan T D = .ok p → .request r' ∈ p.needs → K r'

end

variable {T : SignatureTable} {D : Definitions} {K : Request → Prop} {c : Cache} {r : Request}
  {p : Plan} {s : Specialized}

theorem Made.grows {c' : Cache} (h : Made T D c r p s) (hg : c.Grows c') : Made T D c' r p s :=
  ⟨h.plan, fun n hn => (h.met n hn).grows hg, h.result⟩

/-- **What is in a built cache was made by a plan**, and what the plan needs is there too. -/
theorem Built.made (h : Built T D K c) {kind : Kind} {text : String}
    (hs : c.find? kind text = some s) :
    ∃ r p, K r ∧ r.kind = kind ∧ r.key.text = text ∧ Made T D c r p s := by
  induction h with
  | empty => cases kind <;> cases hs
  | @keep c r p s' _ hr hm ih =>
    have hg : c.Grows (c.keep s') := .keep c s'
    rw [Cache.find?_keep] at hs
    split at hs
    · next hk =>
      obtain ⟨rfl, rfl⟩ := hk
      cases hf : c.find? s'.kind s'.keyText with
      | some s₀ =>
        rw [hf] at hs ih
        obtain ⟨r', p', hr', hk, ht, hm'⟩ := ih hs
        exact ⟨r', p', hr', hk, ht, hm'.grows hg⟩
      | none =>
        rw [hf] at hs
        cases hs
        obtain ⟨hk, ht⟩ := kept_by_request hm.plan hm.result
        exact ⟨r, p, hr, hk.symm, ht.symm, hm.grows hg⟩
    · obtain ⟨r', p', hr', hk, ht, hm'⟩ := ih hs
      exact ⟨r', p', hr', hk, ht, hm'.grows hg⟩

theorem Built.keyText (h : Built T D K c) {kind : Kind} {text : String}
    (hs : c.find? kind text = some s) : s.kind = kind ∧ s.keyText = text := by
  obtain ⟨r, p, _, rfl, rfl, hm⟩ := h.made hs
  exact kept_by_request hm.plan hm.result

/-! ## Computations that build -/

/-- A computation keeps a cache built, adds to it, and leads to `Q` if it succeeds. -/
def Builds (T : SignatureTable) (D : Definitions) (K : Request → Prop) {α : Type}
    (P : Cache → Prop) (x : Specializing α) (Q : α → Cache → Prop) : Prop :=
  ∀ c, Built T D K c → P c →
    match x c with
    | .ok a c' => Built T D K c' ∧ c.Grows c' ∧ Q a c'
    | .error _ c' => Built T D K c' ∧ c.Grows c'

namespace Builds

variable {α β : Type} {P : Cache → Prop}

theorem pure {Q : α → Cache → Prop} {a : α} (h : ∀ c, P c → Q a c) :
    Builds T D K P (Pure.pure a) Q :=
  fun c hb hp => ⟨hb, .refl c, h c hp⟩

theorem throw {Q : α → Cache → Prop} (e : Failure) :
    Builds T D K P (MonadExcept.throw e) Q :=
  fun c hb _ => ⟨hb, .refl c⟩

theorem bind {Q : α → Cache → Prop} {R : β → Cache → Prop} {x : Specializing α}
    {f : α → Specializing β} (hx : Builds T D K P x Q) (hf : ∀ a, Builds T D K (Q a) (f a) R) :
    Builds T D K P (x >>= f) R := by
  intro c hb hp
  have hx := hx c hb hp
  cases h : x c with
  | error e c' =>
    rw [h] at hx
    rw [bind_of_error h]
    exact hx
  | ok a c' =>
    rw [h] at hx
    obtain ⟨hb', hg, hq⟩ := hx
    have hf := hf a c' hb' hq
    rw [bind_of_ok h]
    cases h' : f a c' with
    | error e c'' =>
      rw [h'] at hf
      exact ⟨hf.1, hg.trans hf.2⟩
    | ok b c'' =>
      rw [h'] at hf
      exact ⟨hf.1, hg.trans hf.2.1, hf.2.2⟩

theorem of_ok {Q : α → Cache → Prop} {x : Specializing α} {a : α} {c' : Cache}
    (hx : Builds T D K P x Q) (hc : Built T D K c) (hp : P c) (h : x c = .ok a c') :
    Built T D K c' ∧ c.Grows c' ∧ Q a c' := by
  have hx := hx c hc hp
  rwa [h] at hx

theorem map {Q : β → Cache → Prop} {x : Specializing α} {f : α → β}
    (hx : Builds T D K P x fun a => Q (f a)) : Builds T D K P (f <$> x) Q := by
  rw [map_eq_pure_bind]
  exact hx.bind fun a => .pure fun _ h => h

theorem get : Builds T D K P MonadState.get fun c₀ c => c₀ = c ∧ P c :=
  fun c hb hp => ⟨hb, .refl c, rfl, hp⟩

theorem ofExcept {x : Except Failure α} :
    Builds T D K P (Analysis.ofExcept x) fun a c => x = .ok a ∧ P c := by
  cases x with
  | ok a => exact .pure fun c hp => ⟨rfl, hp⟩
  | error e => exact .throw e

theorem imp {P' : Cache → Prop} {Q Q' : α → Cache → Prop} {x : Specializing α}
    (hx : Builds T D K P x Q) (hP : ∀ c, P' c → P c) (hQ : ∀ a c, Q a c → Q' a c) :
    Builds T D K P' x Q' := by
  intro c hb hp
  have hx := hx c hb (hP c hp)
  cases h : x c with
  | error e c' =>
    rw [h] at hx
    exact hx
  | ok a c' =>
    rw [h] at hx
    exact ⟨hx.1, hx.2.1, hQ a c' hx.2.2⟩

theorem frame {Q : α → Cache → Prop} {S : Cache → Prop} {x : Specializing α}
    (hS : ∀ c c', c.Grows c' → S c → S c') (hx : Builds T D K P x Q) :
    Builds T D K (fun c => P c ∧ S c) x fun a c => Q a c ∧ S c := by
  intro c hb hp
  have hx := hx c hb hp.1
  cases h : x c with
  | error e c' =>
    rw [h] at hx
    exact hx
  | ok a c' =>
    rw [h] at hx
    exact ⟨hx.1, hx.2.1, hx.2.2, hS c c' hx.2.1 hp.2⟩

end Builds

/-- A computation keeps the answer to a request. -/
def Answers (T : SignatureTable) (D : Definitions) (K : Request → Prop) (r : Request)
    (x : Specializing Specialized) : Prop :=
  Builds T D K (fun _ => True) x fun s c => c.find? r.kind r.key.text = some s

variable {answer : Request → Specializing Specialized}

theorem meet_builds {needs : List Need}
    (h : ∀ r, .request r ∈ needs → Answers T D K r (answer r)) :
    Builds T D K (fun _ => True) (needs.forM (Need.meet answer))
      fun _ c => ∀ n ∈ needs, n.Met c := by
  induction needs with
  | nil => exact .pure fun c _ n hn => nomatch hn
  | cons n needs ih =>
    have hn : Builds T D K (fun _ => True) (n.meet answer) fun _ c => True ∧ n.Met c := by
      cases n with
      | impossible d => exact .throw (.defect d)
      | request r =>
        have hr := h r List.mem_cons_self
        exact .map (hr.imp (fun _ h => h) fun s c hs => ⟨trivial, s, hs⟩)
    have hneeds := (ih fun r hr => h r (List.mem_cons_of_mem n hr)).frame
      fun c c' hg (hm : n.Met c) => hm.grows hg
    refine hn.bind fun _ => hneeds.imp (fun _ h => h) ?_
    intro _ c hc
    exact List.forall_mem_cons.mpr ⟨hc.2, hc.1⟩

theorem keeping_builds (hr : K r) (hp : r.plan T D = .ok p) (hs : p.result = .ok s) :
    Builds T D K (fun c => ∀ n ∈ p.needs, n.Met c) (keeping s)
      fun s c => c.find? r.kind r.key.text = some s := by
  intro c hb hm
  obtain ⟨hk, ht⟩ := kept_by_request hp hs
  refine ⟨.keep hb hr ⟨hp, hm, hs⟩, .keep c s, ?_⟩
  show (c.keep s).find? r.kind r.key.text = some (((c.keep s).find? s.kind s.keyText).getD s)
  rw [hk, ht, Cache.find?_keep, if_pos ⟨hk.symm, ht.symm⟩, Option.getD_some]

theorem follow_builds (hr : K r) (hp : r.plan T D = .ok p)
    (h : ∀ r', .request r' ∈ p.needs → Answers T D K r' (answer r')) :
    Answers T D K r (p.follow answer) := by
  refine (meet_builds h).bind fun _ => ?_
  cases hs : p.result with
  | error d => exact .throw (.defect d)
  | ok s => exact keeping_builds hr hp hs

/-- **Answering a request by its plan** builds, if answering what it needs does. -/
theorem answerWith_builds {nested : Chain → Request → Specializing Specialized} (hr : K r)
    (h : ∀ chain p r', r.plan T D = .ok p → .request r' ∈ p.needs →
      Answers T D K r' (nested chain r')) (chain : Chain) :
    Answers T D K r (answerWith T D nested chain r) := by
  unfold Answers answerWith
  cases hp : r.plan T D with
  | error e => exact .throw e
  | ok p =>
    rw [ofExcept_ok, pure_bind]
    refine Builds.get.bind fun c₀ => ?_
    cases hc : c₀.find? r.kind r.key.text with
    | some s =>
      refine .pure ?_
      rintro c ⟨rfl, _⟩
      exact hc
    | none =>
      refine Builds.ofExcept.bind fun chain => ?_
      have hf := follow_builds hr hp fun r' => h chain p r' hp
      exact hf.imp (fun _ _ => trivial) fun _ _ h => h

end QuantumStatics.Specialization
