/-
  Answers and the requests before.

  A request finds more in the cache if others were answered before.  Then it enters less into its
  chain, but it is answered as if nothing had been there, with one exception: a struct may be
  refused because one of its name is in progress, although neither leads back to itself.
  Specialized one after the other, the same structs are accepted.

  * `answer_independent_of_history`: the answer to a request is the same after any other requests.
-/
import Mathlib.Data.List.Nodup
import Mathlib.Tactic.Tauto
import QuantumStatics.Proofs.Specialization.Chains

namespace QuantumStatics.Specialization

variable {T : SignatureTable} {D : Definitions} {K : Request → Prop} {c h : Cache} {r : Request}
  {p : Plan} {s : Specialized} {chain : Chain} {key : Key} {l : Location}

/-! ## Comparing computations -/

/-- A struct was refused because one of its name, with other arguments, is in progress. -/
def StructReentry (T : SignatureTable) (e : Failure) : Prop :=
  ∃ chain text name l, e = .rejected ⟨.reenters chain text name, l⟩ ∧ (T.findStruct? name).isSome

/-- Two results agree, and the second leaves all that the first leaves, unless the first is the
    refusal of a struct. -/
inductive Follows (T : SignatureTable) {α : Type} :
    EStateM.Result Failure Cache α → EStateM.Result Failure Cache α → Prop where
  | ok {a : α} {c h : Cache} (grows : c.Grows h) : Follows T (.ok a c) (.ok a h)
  | error (e : Failure) (c h : Cache) : Follows T (.error e c) (.error e h)
  | reentry {e : Failure} {c : Cache} {y : EStateM.Result Failure Cache α}
    (refused : StructReentry T e) : Follows T (.error e c) y

namespace Follows

variable {α β : Type} {x y : Specializing α}

theorem bind {f g : α → Specializing β} (hx : Follows T (x c) (y h))
    (hf : ∀ a c' h', x c = .ok a c' → y h = .ok a h' → c'.Grows h' →
      Follows T (f a c') (g a h')) : Follows T ((x >>= f) c) ((y >>= g) h) := by
  generalize hxc : x c = rx at hx
  generalize hyh : y h = ry at hx
  cases hx with
  | ok hg =>
    rw [bind_of_ok hxc, bind_of_ok hyh]
    exact hf _ _ _ hxc hyh hg
  | error e c' h' =>
    rw [bind_of_error hxc, bind_of_error hyh]
    exact .error e c' h'
  | reentry he =>
    rw [bind_of_error hxc]
    exact .reentry he

theorem map (f : α → β) (hx : Follows T (x c) (y h)) : Follows T ((f <$> x) c) ((f <$> y) h) := by
  rw [map_eq_pure_bind, map_eq_pure_bind]
  exact hx.bind fun _ _ _ _ _ hg => .ok hg

end Follows

section

variable (T : SignatureTable) (D : Definitions) (K : Request → Prop)

/-- A way to answer a request that gives back what is cached and otherwise comes to the same on all
    built caches. -/
structure Steady (r : Request) (x : Specializing Specialized) : Prop where
  answers : Answers T D K r x
  cached {h : Cache} {s : Specialized} (hh : Built T D K h)
    (hs : h.find? r.kind r.key.text = some s) : x h = .ok s h
  follows {c h : Cache} (hc : Built T D K c) (hh : Built T D K h) (hg : c.Grows h) :
    Follows T (x c) (x h)

end

/-! ## Following plans -/

section

variable {answer : Request → Specializing Specialized} {needs : List Need}

theorem meet_cached (hs : ∀ r, .request r ∈ needs → Steady T D K r (answer r))
    (hh : Built T D K h) (hm : ∀ n ∈ needs, n.Met h) :
    needs.forM (Need.meet answer) h = .ok () h := by
  induction needs with
  | nil => rfl
  | cons n needs ih =>
    obtain ⟨hn, hm⟩ := List.forall_mem_cons.mp hm
    have ih := ih (fun r hr => hs r (List.mem_cons_of_mem n hr)) hm
    cases n with
    | impossible d => exact hn.elim
    | request r =>
      obtain ⟨s, hn⟩ := hn
      have hd : discard (answer r) h = .ok () h :=
        map_of_ok ((hs r List.mem_cons_self).cached hh hn)
      exact (bind_of_ok hd).trans ih

theorem meet_follows (hs : ∀ r, .request r ∈ needs → Steady T D K r (answer r))
    (hc : Built T D K c) (hh : Built T D K h) (hg : c.Grows h) :
    Follows T (needs.forM (Need.meet answer) c) (needs.forM (Need.meet answer) h) := by
  induction needs generalizing c h with
  | nil => exact .ok hg
  | cons n needs ih =>
    have hneeds : ∀ r, .request r ∈ needs → Steady T D K r (answer r) :=
      fun r hr => hs r (List.mem_cons_of_mem n hr)
    cases n with
    | impossible d => exact .error (.defect d) c h
    | request r =>
      have hr := hs r List.mem_cons_self
      have hd : Builds T D K (fun _ => True) (discard (answer r)) fun _ _ => True :=
        .map (hr.answers.imp (fun _ h => h) fun _ _ _ => trivial)
      refine Follows.bind ((hr.follows hc hh hg).map _) fun _ c' h' hc' hh' hg' => ?_
      exact ih hneeds (hd.of_ok hc trivial hc').1 (hd.of_ok hh trivial hh').1 hg'

end

theorem Built.eq_of_made (hc : Built T D K c) (ht : ToldApart K) (hr : K r)
    (hp : r.plan T D = .ok p) {s' : Specialized} (hs : p.result = .ok s)
    (hs' : c.find? r.kind r.key.text = some s') : s' = s := by
  obtain ⟨p', hm⟩ := hc.made_for ht hr hs'
  cases hp.symm.trans hm.plan
  cases hs.symm.trans hm.result
  rfl

theorem find?_keep_made (hc : Built T D K c) (ht : ToldApart K) (hr : K r) (hp : r.plan T D = .ok p)
    (hs : p.result = .ok s) : (c.keep s).find? s.kind s.keyText = some s := by
  obtain ⟨hk, htext⟩ := kept_by_request hp hs
  rw [Cache.find?_keep, if_pos ⟨rfl, rfl⟩]
  cases hf : c.find? s.kind s.keyText with
  | none => rfl
  | some s' =>
    rw [hk, htext] at hf
    rw [hc.eq_of_made ht hr hp hs hf]
    rfl

theorem keeping_made (hc : Built T D K c) (ht : ToldApart K) (hr : K r) (hp : r.plan T D = .ok p)
    (hs : p.result = .ok s) : keeping s c = .ok s (c.keep s) := by
  change EStateM.Result.ok (((c.keep s).find? s.kind s.keyText).getD s) (c.keep s) = _
  rw [find?_keep_made hc ht hr hp hs, Option.getD_some]

theorem Cache.Grows.keep_left (hg : c.Grows h) (hs : h.find? s.kind s.keyText = some s) :
    (c.keep s).Grows h := by
  intro kind text s' hs'
  rw [find?_keep] at hs'
  split at hs'
  · next heq =>
    obtain ⟨rfl, rfl⟩ := heq
    cases hf : c.find? s.kind s.keyText with
    | none =>
      rw [hf] at hs'
      cases hs'
      exact hs
    | some s₀ =>
      rw [hf] at hs'
      cases hs'
      exact hg _ _ _ hf
  · exact hg _ _ _ hs'

section

variable {r : Request} {p : Plan} {answer : Request → Specializing Specialized}

theorem follow_follows (ht : ToldApart K) (hr : K r) (hp : r.plan T D = .ok p)
    (hs : ∀ r', .request r' ∈ p.needs → Steady T D K r' (answer r')) (hc : Built T D K c)
    (hh : Built T D K h) (hg : c.Grows h) : Follows T (p.follow answer c) (p.follow answer h) := by
  have hbuilds := meet_builds fun r' hr' => (hs r' hr').answers
  refine (meet_follows hs hc hh hg).bind fun _ c' h' hc' hh' hg' => ?_
  cases hres : p.result with
  | error d => exact .error (.defect d) c' h'
  | ok s =>
    have hc' := (hbuilds.of_ok hc trivial hc').1
    have hh' := (hbuilds.of_ok hh trivial hh').1
    simp only [ofDefect_ok, pure_bind]
    rw [keeping_made hc' ht hr hp hres, keeping_made hh' ht hr hp hres]
    exact .ok ((hg'.trans (.keep h' s)).keep_left (find?_keep_made hh' ht hr hp hres))

theorem follow_follows_cached (ht : ToldApart K) (hr : K r) {s : Specialized}
    (hm : Made T D h r p s) (hs : ∀ r', .request r' ∈ p.needs → Steady T D K r' (answer r'))
    (hc : Built T D K c) (hh : Built T D K h) (hg : c.Grows h)
    (hfound : h.find? r.kind r.key.text = some s) :
    Follows T (p.follow answer c) (.ok s h) := by
  have hbuilds := meet_builds fun r' hr' => (hs r' hr').answers
  have hmeet := meet_follows hs hc hh hg
  rw [meet_cached hs hh hm.met] at hmeet
  refine hmeet.bind (y := pure ()) (g := fun _ => pure s) fun _ c' h' hc' hh' hg' => ?_
  cases hh'
  have hc' := (hbuilds.of_ok hc trivial hc').1
  simp only [hm.result, ofDefect_ok, pure_bind]
  rw [keeping_made hc' ht hr hm.plan hm.result]
  obtain ⟨hk, htext⟩ := kept_by_request hm.plan hm.result
  exact .ok (hg'.keep_left (by rw [hk, htext, hfound]))

end

/-- **Answering a request by its plan is steady**, if answering what it needs is, and if what is
    cached is refused only where a struct is re-entered. -/
theorem answerWith_steady (ht : ToldApart K) {r : Request} (hr : K r)
    {nested : Chain → Request → Specializing Specialized} {chain : Chain}
    (hb : ∀ chain p r', r.plan T D = .ok p → .request r' ∈ p.needs →
      Answers T D K r' (nested chain r'))
    (hn : ∀ chain' p r', enter chain r.key r.location = .ok chain' → r.plan T D = .ok p →
      .request r' ∈ p.needs → Steady T D K r' (nested chain' r'))
    (he : ∀ h s e p, Built T D K h → h.find? r.kind r.key.text = some s → r.plan T D = .ok p →
      enter chain r.key r.location = .error e → StructReentry T e) :
    Steady T D K r (answerWith T D nested chain r) where
  answers := answerWith_builds hr hb chain
  cached hh hs := by
    obtain ⟨p, hm⟩ := hh.made_for ht hr hs
    exact answerWith_of_cached hm.plan hs
  follows {c h} hc hh hg := by
    cases hp : r.plan T D with
    | error e =>
      rw [answerWith_of_refused hp, answerWith_of_refused hp]
      exact .error e c h
    | ok p =>
      cases hfc : c.find? r.kind r.key.text with
      | some s =>
        rw [answerWith_of_cached hp hfc, answerWith_of_cached hp (hg _ _ _ hfc)]
        exact .ok hg
      | none =>
        rw [answerWith_of_new hp hfc]
        cases hent : enter chain r.key r.location with
        | error e =>
          cases hfh : h.find? r.kind r.key.text with
          | some s => exact .reentry (he h s e p hh hfh hp hent)
          | none =>
            rw [answerWith_of_new hp hfh, hent]
            exact .error e c h
        | ok chain' =>
          have hs := fun r' => hn chain' p r' hent hp
          rw [ofExcept_ok, pure_bind]
          cases hfh : h.find? r.kind r.key.text with
          | some s =>
            obtain ⟨p', hm⟩ := hh.made_for ht hr hfh
            cases hp.symm.trans hm.plan
            rw [answerWith_of_cached hp hfh]
            exact follow_follows_cached ht hr hm hs hc hh hg hfh
          | none =>
            rw [answerWith_of_new hp hfh, hent, ofExcept_ok, pure_bind]
            exact follow_follows ht hr hp hs hc hh hg

/-! ## Requests are steady -/

theorem structReentry_of_enter (hK : ClosedUnderNeeds T D K) (ht : ToldApart K)
    (hr : K ⟨.struct, key, l⟩) (hpath : (structGraph T D).Path K chain key) (hh : Built T D K h)
    (hs : h.find? .struct key.text = some s) (hp : Request.plan T D ⟨.struct, key, l⟩ = .ok p)
    {e : Failure} (he : enter chain key l = .error e) : StructReentry T e := by
  obtain ⟨k, hk, _, htext | rfl⟩ := enter_eq_error he
  · obtain ⟨l', hk'⟩ := hpath.asked k hk
    have hkey : k = key := ht ⟨.struct, k, l'⟩ ⟨.struct, key, l⟩ hk' hr rfl htext
    have hleads := hpath.leads k hk
    rw [hkey] at hleads
    exact (Graph.not_leads_to_itself hK (ht.tellsApart _) hh ⟨_, hr, rfl, rfl, s, hs⟩ hleads).elim
  · obtain ⟨decl, hd, _, _⟩ := plan_struct_eq_ok.mp hp
    exact ⟨_, _, _, _, rfl, Option.isSome_of_eq_some hd⟩

theorem enter_ne_error (hK : ClosedUnderNeeds T D K) (ht : ToldApart K)
    (hr : K ⟨.definition, key, l⟩) (hpath : (callGraph T D).Path K chain key) (hh : Built T D K h)
    (hs : h.find? .definition key.text = some s) {e : Failure} : enter chain key l ≠ .error e := by
  intro he
  obtain ⟨k, hk, hname, _⟩ := enter_eq_error he
  have hleads : Relation.TransGen (callGraph T D).edge k.name key.name := hpath.leads k hk
  rw [hname] at hleads
  exact Graph.not_leads_to_itself hK (ht.tellsApart _) hh ⟨_, hr, rfl, rfl, s, hs⟩ hleads

theorem structWithin_steady (hK : ClosedUnderNeeds T D K) (ht : ToldApart K) (bound : Nat)
    (hr : K ⟨.struct, key, l⟩) (hpath : (structGraph T D).Path K chain key)
    (hfits : Fits T.structs.keys bound chain) :
    Steady T D K ⟨.struct, key, l⟩ (.struct <$> structWithin T bound chain key l) := by
  induction bound generalizing chain key l with
  | zero =>
    rw [structWithin, structWith_eq_answerWith T D]
    refine answerWith_steady ht hr (fun _ _ r' _ _ => defect_answers r' _ _) ?_
      fun _ _ _ _ hh hs hp => structReentry_of_enter hK ht hr hpath hh hs hp
    intro chain' p r' he hp _
    obtain ⟨k, hk, hname⟩ := hfits.full (struct_known hp)
    exact ((enter_eq_ok he).1 k hk hname).elim
  | succ bound ih =>
    rw [structWithin, structWith_eq_answerWith T D]
    refine answerWith_steady ht hr ?_ ?_
      fun _ _ _ _ hh hs hp => structReentry_of_enter hK ht hr hpath hh hs hp
    · intro chain p r' hp hr'
      obtain ⟨key', rfl⟩ := need_of_struct hp hr'
      exact structWithin_builds hK bound chain (hK _ _ _ hr hp hr')
    · intro chain' p r' he hp hr'
      obtain ⟨key', rfl⟩ := need_of_struct hp hr'
      obtain ⟨hnew, rfl⟩ := enter_eq_ok he
      exact ih (hK _ _ _ hr hp hr') (hpath.push hr rfl hp hr' rfl)
        (hfits.push hnew (struct_known hp))

theorem requestStruct_steady (hK : ClosedUnderNeeds T D K) (ht : ToldApart K)
    (hr : K ⟨.struct, key, l⟩) :
    Steady T D K ⟨.struct, key, l⟩ (.struct <$> requestStruct T key l) := by
  have hsize : T.structs.size = T.structs.keys.length := by simp [Dict.size, Dict.keys]
  rw [requestStruct, hsize]
  exact structWithin_steady hK ht _ hr (.nil _ _) (.nil _)

theorem Steady.congr {r : Request} {x y : Specializing Specialized} (h : Steady T D K r y)
    (heq : ∀ c, Built T D K c → x c = y c) : Steady T D K r x where
  answers := by
    intro c hc hp
    rw [heq c hc]
    exact h.answers c hc hp
  cached hh hs := (heq _ hh).trans (h.cached hh hs)
  follows hc hh hg := by
    rw [heq _ hc, heq _ hh]
    exact h.follows hc hh hg

theorem definitionWith_steady (hK : ClosedUnderNeeds T D K) (ht : ToldApart K)
    {nested : DefinitionRequest} (hr : K ⟨.definition, key, l⟩)
    (hpath : (callGraph T D).Path K chain key)
    (hb : ∀ chain {key l}, K ⟨.definition, key, l⟩ →
      Answers T D K ⟨.definition, key, l⟩ (.definition <$> nested chain key l))
    (hn : ∀ p key' l', (∀ k ∈ chain, k.name ≠ key.name) →
      Request.plan T D ⟨.definition, key, l⟩ = .ok p → .request ⟨.definition, key', l'⟩ ∈ p.needs →
      Steady T D K ⟨.definition, key', l'⟩ (.definition <$> nested (chain ++ [key]) key' l')) :
    Steady T D K ⟨.definition, key, l⟩ (.definition <$> definitionWith T D nested chain key l) := by
  have hanswers := fun chain r => answerNeeds_builds (r := r) hK (hb chain)
  refine Steady.congr ?_ fun c => definitionWith_eq_answerWith hK hanswers hr
  refine answerWith_steady ht hr (fun chain p r' hp hr' => hanswers chain r' (hK _ _ _ hr hp hr'))
    ?_ fun _ _ _ _ hh hs _ he => (enter_ne_error hK ht hr hpath hh hs he).elim
  rintro chain' p ⟨_ | _, key', l'⟩ he hp hr'
  · exact requestStruct_steady hK ht (hK _ _ _ hr hp hr')
  · obtain ⟨hnew, rfl⟩ := enter_eq_ok he
    exact hn p key' l' hnew hp hr'

theorem definitionWithin_steady (hK : ClosedUnderNeeds T D K) (ht : ToldApart K) (bound : Nat)
    (hr : K ⟨.definition, key, l⟩) (hpath : (callGraph T D).Path K chain key)
    (hfits : Fits D.keys bound chain) :
    Steady T D K ⟨.definition, key, l⟩
      (.definition <$> definitionWithin T D bound chain key l) := by
  induction bound generalizing chain key l with
  | zero =>
    refine definitionWith_steady hK ht hr hpath (fun _ _ _ _ => defect_answers _ _ _) ?_
    intro p key' l' hnew hp _
    obtain ⟨k, hk, hname⟩ := hfits.full (definition_known hp)
    exact (hnew k hk hname).elim
  | succ bound ih =>
    refine definitionWith_steady hK ht hr hpath
      (fun chain _ _ hr => definitionWithin_builds hK bound chain hr) ?_
    intro p key' l' hnew hp hr'
    exact ih (hK _ _ _ hr hp hr') (hpath.push hr rfl hp hr' rfl)
      (hfits.push hnew (definition_known hp))

theorem Request.answer_steady (hK : ClosedUnderNeeds T D K) (ht : ToldApart K) (hr : K r) :
    Steady T D K r (r.answer T D) := by
  obtain ⟨_ | _, key, l⟩ := r
  · exact requestStruct_steady hK ht hr
  · have hsize : D.size = D.keys.length := by simp [Dict.size, Dict.keys]
    change Steady T D K _ (.definition <$> request T D key l)
    rw [request, hsize]
    exact definitionWithin_steady hK ht _ hr (.nil _ _) (.nil _)

/-! ## Independence -/

/-- The requests in `rs`, and all that they need in turn. -/
inductive Involved (T : SignatureTable) (D : Definitions) (rs : List Request) : Request → Prop where
  | asked {r : Request} (h : r ∈ rs) : Involved T D rs r
  | needed {r r' : Request} {p : Plan} (h : Involved T D rs r) (hp : r.plan T D = .ok p)
    (hr' : .request r' ∈ p.needs) : Involved T D rs r'

theorem involved_closed (rs : List Request) : ClosedUnderNeeds T D (Involved T D rs) :=
  fun _ _ _ h hp hr' => .needed h hp hr'

/-- An answer without the cache. -/
def answerOf : EStateM.Result Failure Cache Specialized → Except Failure Specialized
  | .ok s _ => .ok s
  | .error e _ => .error e

theorem Follows.answerOf_eq {x y : EStateM.Result Failure Cache Specialized} (hxy : Follows T x y)
    (hx : ∀ e, answerOf x = .error e → ¬StructReentry T e) : answerOf y = answerOf x := by
  cases hxy with
  | ok _ => rfl
  | error e _ _ => rfl
  | reentry he => exact (hx _ rfl he).elim

/-- **Answers do not depend on the requests before.**  If the texts of their keys tell the requests
    apart that are involved, then a request is answered after any others as it is answered at
    first, unless it is refused at first because a struct is re-entered with other arguments. -/
theorem answer_independent_of_history (T : SignatureTable) (D : Definitions) (rs : List Request)
    (r : Request) (told : ToldApart (Involved T D (r :: rs)))
    (notReentry : ∀ e, answerOf (r.answer T D {}) = .error e → ¬StructReentry T e) :
    answerOf (r.answer T D (session T D rs)) = answerOf (r.answer T D {}) := by
  have hK := involved_closed (T := T) (D := D) (r :: rs)
  have hsession : Built T D (Involved T D (r :: rs)) (session T D rs) :=
    session_built hK fun r' hr' => .asked (List.mem_cons_of_mem r hr')
  have hgrows : Cache.Grows {} (session T D rs) := by
    intro kind text s hs
    cases kind <;> cases hs
  have hsteady := Request.answer_steady hK told (.asked List.mem_cons_self)
  exact (hsteady.follows .empty hsession hgrows).answerOf_eq notReentry

/-- The definitions `put`, `putTwice` and `putForever`. -/
def putDefinitions : Definitions := definitionsOf [put, putTwice, putForever]

/-- The specialization of `put` to `int` and 3. -/
def requestPut : Request := ⟨.definition, ⟨"put", [.int], [.const 3]⟩, {}⟩

/-- The specialization of `putTwice`. -/
def requestPutTwice : Request := ⟨.definition, ⟨"putTwice", [], []⟩, {}⟩

/-- The specialization of `putForever`. -/
def requestPutForever : Request := ⟨.definition, ⟨"putForever", [], []⟩, {}⟩

/-- The specialization of `Cell` to a type. -/
def requestCell (t : Ty) : Request := ⟨.struct, ⟨"Cell", [t], []⟩, {}⟩

theorem needs_eq {needs : List Need} (hp : r.plan T D = .ok p)
    (h : (r.plan T D).map Plan.needs = .ok needs) : p.needs = needs := by
  rw [hp] at h
  exact Except.ok.inj h

theorem involved_put (h : Involved cellTable putDefinitions [requestPut, requestPutForever] r) :
    r ∈ [requestPut, requestPutForever, requestPutTwice, requestCell .int] := by
  induction h with
  | asked h => exact List.mem_append_left [_, _] h
  | @needed r r' p _ hp hr' ih =>
    simp only [List.mem_cons, List.not_mem_nil, or_false] at ih ⊢
    rcases ih with rfl | rfl | rfl | rfl
    · have hn : p.needs = [.request (requestCell .int), .request (requestCell .int)] :=
        needs_eq hp (by cbv)
      simp only [hn, List.mem_cons, List.not_mem_nil, or_false, Need.request.injEq] at hr'
      tauto
    · have hn : p.needs = [.request requestPutTwice, .request requestPutForever] :=
        needs_eq hp (by cbv)
      simp only [hn, List.mem_cons, List.not_mem_nil, or_false, Need.request.injEq] at hr'
      tauto
    · have hn : p.needs = [.request (requestCell .int), .request requestPut,
          .request (requestCell .int), .request requestPut] := needs_eq hp (by cbv)
      simp only [hn, List.mem_cons, List.not_mem_nil, or_false, Need.request.injEq] at hr'
      tauto
    · have hn : p.needs = [] := needs_eq hp (by cbv)
      simp [hn] at hr'

theorem toldApart_put :
    ToldApart (Involved cellTable putDefinitions [requestPut, requestPutForever]) := by
  have htexts : [requestPut, requestPutForever, requestPutTwice, requestCell .int].map
      (fun r => (r.kind, r.key.text)) = [(.definition, "put[int; 3]"), (.definition, "putForever"),
        (.definition, "putTwice"), (.struct, "Cell[int]")] := by cbv
  have hnodup : ([requestPut, requestPutForever, requestPutTwice, requestCell .int].map
      fun r => (r.kind, r.key.text)).Nodup := by
    rw [htexts]
    decide
  intro r r' hr hr' hk ht
  have heq : r = r' :=
    List.inj_on_of_nodup_map hnodup (involved_put hr) (involved_put hr') (Prod.ext hk ht)
  rw [heq]

theorem put_independent_of_history :
    ToldApart (Involved cellTable putDefinitions [requestPut, requestPutForever]) ∧
      (∀ e, answerOf (requestPut.answer cellTable putDefinitions {}) = .error e →
        ¬StructReentry cellTable e) ∧
      answerOf (requestPut.answer cellTable putDefinitions
          (session cellTable putDefinitions [requestPutForever])) =
        answerOf (requestPut.answer cellTable putDefinitions {}) := by
  have hok : answerOf (requestPut.answer cellTable putDefinitions {}) =
      .ok (.definition putInt) := by
    cbv
  have hnot : ∀ e, answerOf (requestPut.answer cellTable putDefinitions {}) = .error e →
      ¬StructReentry cellTable e := by
    intro e he
    rw [hok] at he
    cases he
  exact ⟨toldApart_put, hnot, answer_independent_of_history _ _ _ _ toldApart_put hnot⟩

/-- A struct with the name of a type. -/
def shadow : StructDecl := ⟨"int", {}, [⟨"q", .qubit⟩]⟩

/-- A table with `Cell` and the struct named `int`. -/
def shadowTable : SignatureTable :=
  SignatureTable.after (SignatureTable.addStruct shadow {}) cellTable

/-- **Answers may depend on the requests before.**  A cell of a cell is refused because it re-enters
    the struct, but not if the inner cell is specialized before.  And a cell of a struct of the name
    of a leaf type is taken for a cell of the leaf type. -/
theorem answer_depends_on_history :
    (answerOf ((requestCell (.struct cell [.int] [])).answer cellTable ∅ {}) =
        .error (.rejected ⟨.reenters ["Cell[Cell[int]]"] "Cell[int]" "Cell", {}⟩) ∧
      answerOf ((requestCell (.struct cell [.int] [])).answer cellTable ∅
          (session cellTable ∅ [requestCell .int])) =
        .ok (.struct ⟨⟨"Cell", [.struct cell [.int] []], []⟩, [⟨"v", .struct cell [.int] []⟩],
          .copyable⟩)) ∧
    answerOf ((requestCell .int).answer shadowTable ∅ {}) =
        .ok (.struct ⟨⟨"Cell", [.int], []⟩, [⟨"v", .int⟩], .copyable⟩) ∧
      answerOf ((requestCell .int).answer shadowTable ∅
          (session shadowTable ∅ [requestCell (.struct shadow [] [])])) =
        .ok (.struct ⟨⟨"Cell", [.struct shadow [] []], []⟩, [⟨"v", .struct shadow [] []⟩],
          .linear⟩) := by
  refine ⟨⟨?_, ?_⟩, ?_, ?_⟩ <;> cbv

end QuantumStatics.Specialization
