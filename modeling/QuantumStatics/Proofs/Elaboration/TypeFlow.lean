/-
  The types of local bindings, followed through all executions.

  `typeFlow` is the flow analysis that the checker of types carries out.  Its facts are the
  types of the names that are bound on the current path.  The checker keeps types with
  undetermined parts and finds out more and more about them, so its environments are
  read under a substitution that is at least as fine as what has been found out (`view`).
-/
import QuantumStatics.Elaboration.Stmt
import QuantumStatics.Proofs.Elaboration.Inference
import QuantumStatics.Proofs.Execution.FlowAnalysis

namespace QuantumStatics.Elaboration

open Execution Check

/-! ## The analysis -/

/-- The types of the names that are bound. -/
abbrev LocalTypes := String → Option Ty

/-- A path with the first types may go on with the second ones: whatever is bound stays
    bound, with an equal type. -/
def LocalTypes.Joins (l m : LocalTypes) : Prop :=
  ∀ x a, l x = some a → ∃ b, m x = some b ∧ a.equal b

/-- The types after a name has been bound. -/
def LocalTypes.bind (E : LocalTypes) (n : String) (t : Ty) : LocalTypes :=
  fun x => if x = n then some t else E x

namespace LocalTypes

theorem bind_bind (E : LocalTypes) (n : String) (t u : Ty) :
    (E.bind n t).bind n u = E.bind n u := by
  funext x
  unfold LocalTypes.bind
  split <;> rfl

theorem bind_eq_self {E : LocalTypes} {n : String} {t : Ty} (h : E n = some t) :
    E.bind n t = E := by
  funext x
  unfold LocalTypes.bind
  split
  · rename_i hx
    rw [hx, h]
  · rfl

variable {l m n : LocalTypes}

theorem Joins.refl (l : LocalTypes) : l.Joins l := fun _ a ha => ⟨a, ha, a.equal_refl⟩

theorem Joins.trans (h : l.Joins m) (h' : m.Joins n) : l.Joins n := by
  intro x a ha
  obtain ⟨b, hb, hab⟩ := h x a ha
  obtain ⟨c, hc, hbc⟩ := h' x b hb
  exact ⟨c, hc, Ty.equal_trans hab hbc⟩

end LocalTypes

/-- What an action makes of the types of names. -/
def TypesAfter : Action → LocalTypes → LocalTypes → Prop
  | .use _, E, E' | .leave, E, E' => E' = E
  | .bind n t, E, E' => ∃ a, t.equal a ∧ E' = E.bind n a
  | .again, _, _ => False

/-- The flow analysis that follows the types of names, joins equal types only, and asks that
    `passes` holds wherever something is done. -/
def following (passes : Action → LocalTypes → Prop) : FlowAnalysis LocalTypes where
  step a E E' := TypesAfter a E E' ∧ passes a E
  join := LocalTypes.Joins
  again entry edge := ∃ exit, entry.Joins exit ∧ edge.Joins exit
  sealed _ := False

/-- A use records the type of its name. -/
def RecordsTypes : Action → LocalTypes → Prop
  | .use u, E => u.Typed E
  | .bind _ _, _ | .leave, _ | .again, _ => True

/-- The flow analysis that the checker of types carries out. -/
def typeFlow : FlowAnalysis LocalTypes := following RecordsTypes

theorem typeFlow_open (elements : Option Ty) : typeFlow.Open elements := fun _ _ h => h

theorem steps_uses {E : LocalTypes} {us : List Use} (h : ∀ u ∈ us, u.Typed E) :
    typeFlow.steps (us.map .use) E E := by
  induction us with
  | nil => rfl
  | cons u us ih =>
    obtain ⟨hu, hus⟩ := List.forall_mem_cons.mp h
    exact ⟨E, ⟨rfl, hu⟩, ih hus⟩

/-! ## Environments -/

/-- The types in an environment, with what has been found out put in. -/
def view (S : Substitution) (env : Env) : LocalTypes :=
  fun x => (env.bindings.get? x).map (Ty.subst S)

theorem view_insert (S : Substitution) (env : Env) (n : String) (t : Ty) (reachable : Bool) :
    view S ⟨env.bindings.insert n t, reachable⟩ = (view S env).bind n (t.subst S) := by
  funext x
  simp only [view, LocalTypes.bind, Dict.get?_insert]
  split <;> rfl

theorem view_insert_resolved {S S' : Substitution} (h : S.Refines S') {env : Env} {n : String}
    {t : Ty} (hn : env.bindings.get? n = some t) :
    view S' { env with bindings := env.bindings.insert n (t.subst S) } = view S' env := by
  rw [view_insert, h.subst]
  funext x
  unfold LocalTypes.bind
  split
  · rename_i hx
    simp [view, hx, hn]
  · rfl

section

variable {P : Ty → Prop} {d d' : Dict String Ty}

theorem forall_get?_insert {n : String} {t : Ty} (h : ∀ {m u}, d.get? m = some u → P u)
    (ht : P t) : ∀ {m u}, (d.insert n t).get? m = some u → P u := by
  intro m u hu
  rw [Dict.get?_insert] at hu
  split at hu
  · cases hu
    exact ht
  · exact h hu

theorem forall_get?_ofListFirst {l : List (String × Ty)} (h : ∀ p ∈ l, P p.2) :
    ∀ {n t}, (Dict.ofListFirst l).get? n = some t → P t := by
  intro n t ht
  rw [Dict.get?_ofListFirst] at ht
  obtain ⟨before, after, rfl, -⟩ := List.lookup_eq_some_iff.mp ht
  exact h (n, t) (List.mem_append_right _ (List.mem_cons_self ..))

theorem forall_get?_union (h : ∀ {n t}, d.get? n = some t → P t)
    (h' : ∀ {n t}, d'.get? n = some t → P t) : ∀ {n t}, (d.union d').get? n = some t → P t := by
  refine forall_get?_ofListFirst fun p hp => ?_
  obtain ⟨⟨x, a, b⟩, hq, hp⟩ := List.mem_filterMap.mp hp
  obtain ⟨rfl, rfl, -⟩ := Dict.mem_align.mp hq
  obtain ⟨t, ht, rfl⟩ := Option.map_eq_some_iff.mp hp
  rcases Option.or_eq_some_iff.mp ht with ht | ⟨-, ht⟩
  · exact h ht
  · exact h' ht

end

/-- A path with the first environment may go on with the second one. -/
def Env.Joined (S : Substitution) (e m : Env) : Prop :=
  e.reachable → m.reachable ∧ (view S e).Joins (view S m)

theorem Env.Joined.refl (S : Substitution) (e : Env) : e.Joined S e :=
  fun h => ⟨h, .refl _⟩

theorem Env.Joined.trans {S : Substitution} {e m n : Env} (h : e.Joined S m)
    (h' : m.Joined S n) : e.Joined S n := by
  intro he
  obtain ⟨hm, hem⟩ := h he
  obtain ⟨hn, hmn⟩ := h' hm
  exact ⟨hn, hem.trans hmn⟩

/-! ## Joins -/

section

variable {location : Location} {s s' : BodyState} {ts : List (String × Ty)} {l r m env : Env}
  {α : Type} {S : Substitution} {rs : List Env} {u : Unit}

/-- Every name that is bound on either path is bound in the result, with a type that is equal
    to those on the paths. -/
def Merges (S : Substitution) (l : List (String × Option Ty × Option Ty))
    (ts : List (String × Ty)) : Prop :=
  ∀ x a b, (x, a, b) ∈ l → ∀ c, a = some c ∨ b = some c →
    ∃ t, ts.lookup x = some t ∧ (c.subst S).equal (t.subst S)

theorem Merges.cons {l : List (String × Option Ty × Option Ty)} {x : String} {a b : Option Ty}
    {t : Ty} (h : Merges S l ts) (hx : ∀ p ∈ l, x < p.1)
    (ht : ∀ c, a = some c ∨ b = some c → (c.subst S).equal (t.subst S)) :
    Merges S ((x, a, b) :: l) ((x, t) :: ts) := by
  intro y a' b' hy c hc
  rw [lookup_entry]
  rcases List.mem_cons.mp hy with hy | hy
  · cases hy
    exact ⟨t, if_pos rfl, ht c hc⟩
  · rw [if_neg fun hxy => Std.lt_irrefl (hxy ▸ hx _ hy)]
    exact h y a' b' hy c hc

theorem mergeEach_eq_ok {l : List (String × Option Ty × Option Ty)}
    (hl : l.Pairwise fun p q => p.1 < q.1) (h : mergeEach location l s = .ok ts s') :
    Inferred s s' ∧ (s.subs.Solved → ∀ S, s'.subs.Refines S → Merges S l ts) := by
  induction l generalizing s ts with
  | nil =>
    obtain ⟨rfl, rfl⟩ := pure_eq_ok.mp h
    exact ⟨.refl s, fun _ _ _ _ _ _ hm => nomatch hm⟩
  | cons p l ih =>
    obtain ⟨hp, ordered⟩ := List.pairwise_cons.mp hl
    obtain ⟨x, a, b⟩ := p
    -- A type that is bound on one path only is kept.
    have kept : ∀ {a b : Option Ty} {t : Ty}, (∀ c, a = some c ∨ b = some c → c = t) →
        (do return (x, t) :: (← mergeEach location l)) s = .ok ts s' → Inferred s s' ∧
          (s.subs.Solved → ∀ S, s'.subs.Refines S → Merges S ((x, a, b) :: l) ts) := by
      intro a b t ht h
      obtain ⟨ts', s₁, hrest, h⟩ := bind_eq_ok.mp h
      obtain ⟨rfl, rfl⟩ := pure_eq_ok.mp h
      obtain ⟨inferred, merges⟩ := ih ordered hrest
      refine ⟨inferred, fun hS S hr => (merges hS S hr).cons hp fun c hc => ?_⟩
      rw [ht c hc]
      exact Ty.equal_refl _
    cases a with
    | none =>
      cases b with
      | none =>
        obtain ⟨inferred, merges⟩ := ih ordered h
        refine ⟨inferred, fun hS S hr y a' b' hy c hc => ?_⟩
        rcases List.mem_cons.mp hy with hy | hy
        · cases hy
          rcases hc with hc | hc <;> cases hc
        · exact merges hS S hr y a' b' hy c hc
      | some t => exact kept (by rintro c (hc | hc) <;> cases hc; rfl) h
    | some t =>
      cases b with
      | none => exact kept (by rintro c (hc | hc) <;> cases hc; rfl) h
      | some r =>
        obtain ⟨u, s₁, hu, h⟩ := bind_eq_ok.mp h
        obtain ⟨ts', s₂, hrest, h⟩ := bind_eq_ok.mp h
        obtain ⟨rfl, rfl⟩ := pure_eq_ok.mp h
        obtain ⟨unified, equal⟩ := unifyOr_eq_ok hu
        obtain ⟨inferred, merges⟩ := ih ordered hrest
        refine ⟨unified.trans inferred, fun hS S hr => ?_⟩
        have hS₁ := (unified.advances hS).solved
        have hr₁ := (inferred.advances hS₁).refines.trans hr
        obtain ⟨hlr, rfl⟩ := equal hS
        refine (merges hS₁ S hr).cons hp ?_
        rintro c (hc | hc) <;> cases hc
        · rw [hr₁.subst]
          exact Ty.equal_refl _
        · rw [hr₁.subst]
          exact Ty.equal_symm (hr₁.equal hlr)

theorem joined_of_merges {e : Env} (h : Merges S (l.bindings.align r.bindings) ts)
    (he : ∀ x c, e.bindings.get? x = some c →
      l.bindings.get? x = some c ∨ r.bindings.get? x = some c) :
    e.Joined S ⟨.ofListFirst ts, true⟩ := by
  refine fun _ => ⟨rfl, fun x a ha => ?_⟩
  obtain ⟨c, hc, rfl⟩ := Option.map_eq_some_iff.mp ha
  have bound := (he x c hc).imp (Option.isSome_of_eq_some ·) (Option.isSome_of_eq_some ·)
  obtain ⟨t, ht, equal⟩ := h x _ _ (Dict.mem_align.mpr ⟨rfl, rfl, bound⟩) c (he x c hc)
  exact ⟨t.subst S, by simp [view, Dict.get?_ofListFirst, ht], equal⟩

theorem merge_eq_ok (h : merge location l r s = .ok m s') :
    Inferred s s' ∧ (s.subs.Solved → ∀ S, s'.subs.Refines S → l.Joined S m ∧ r.Joined S m) := by
  have skip : ∀ {e : Env} {S}, e.reachable = false → e.Joined S m :=
    fun he hr => by simp [he] at hr
  unfold merge at h
  cases hl : l.reachable <;> cases hr : r.reachable <;> simp only [hl, hr] at h
  case true.true =>
    obtain ⟨ts, s₁, hts, h⟩ := bind_eq_ok.mp h
    obtain ⟨rfl, rfl⟩ := pure_eq_ok.mp h
    obtain ⟨inferred, merges⟩ := mergeEach_eq_ok (Dict.align_ordered _ _) hts
    refine ⟨inferred, fun hS S hr => ⟨?_, ?_⟩⟩
    · exact joined_of_merges (merges hS S hr) fun _ _ => .inl
    · exact joined_of_merges (merges hS S hr) fun _ _ => .inr
  case true.false =>
    obtain ⟨rfl, rfl⟩ := pure_eq_ok.mp h
    exact ⟨.refl s, fun _ S _ => ⟨.refl S l, skip hr⟩⟩
  case false.true =>
    obtain ⟨rfl, rfl⟩ := pure_eq_ok.mp h
    exact ⟨.refl s, fun _ S _ => ⟨skip hl, .refl S r⟩⟩
  case false.false =>
    obtain ⟨-, rfl⟩ := pure_eq_ok.mp h
    exact ⟨.refl s, fun _ S _ => ⟨skip hl, skip hr⟩⟩

theorem reachable_of_merge (h : merge location l r s = .ok m s') (hm : m.reachable) :
    l.reachable ∨ r.reachable := by
  unfold merge at h
  cases hl : l.reachable <;> cases hr : r.reachable <;> simp only [hl, hr] at h
  case false.false =>
    obtain ⟨rfl, -⟩ := pure_eq_ok.mp h
    cases hm
  all_goals simp

theorem reachable_of_mergeAll (h : mergeAll location l rs s = .ok m s') (hm : m.reachable) :
    ∃ e ∈ l :: rs, e.reachable := by
  induction rs generalizing l s with
  | nil =>
    obtain ⟨rfl, -⟩ := pure_eq_ok.mp h
    exact ⟨l, List.mem_cons_self, hm⟩
  | cons r rs ih =>
    obtain ⟨n, s₁, hn, h⟩ := bind_eq_ok.mp h
    obtain ⟨e, he, live⟩ := ih h
    rcases List.mem_cons.mp he with rfl | he
    · rcases reachable_of_merge hn live with hl | hr
      · exact ⟨l, List.mem_cons_self, hl⟩
      · exact ⟨r, by simp, hr⟩
    · exact ⟨e, by simp [he], live⟩

theorem mergeAll_eq_ok (h : mergeAll location l rs s = .ok m s') :
    Inferred s s' ∧ (s.subs.Solved → ∀ S, s'.subs.Refines S → ∀ e ∈ l :: rs, e.Joined S m) := by
  induction rs generalizing l s with
  | nil =>
    obtain ⟨rfl, rfl⟩ := pure_eq_ok.mp h
    refine ⟨.refl s, fun _ S _ e he => ?_⟩
    cases List.mem_singleton.mp he
    exact .refl S l
  | cons r rs ih =>
    obtain ⟨n, s₁, hn, h⟩ := bind_eq_ok.mp h
    obtain ⟨first, join⟩ := merge_eq_ok hn
    obtain ⟨rest, joins⟩ := ih h
    refine ⟨first.trans rest, fun hS S hr => ?_⟩
    have hS₁ := (first.advances hS).solved
    obtain ⟨hl, hr'⟩ := join hS S ((rest.advances hS₁).refines.trans hr)
    obtain ⟨hm, hrs⟩ := List.forall_mem_cons.mp (joins hS₁ S hr)
    exact List.forall_mem_cons.mpr ⟨hl.trans hm, List.forall_mem_cons.mpr ⟨hr'.trans hm, hrs⟩⟩

/-! ## Ends of statements -/

/-- Between two states, the analysis has followed the types through actions in a row.  The
    actions depend on how undetermined types are read. -/
structure Stepped (p : Substitution → List Action) (s s' : BodyState) : Prop where
  advances : s.subs.Solved → s.subs.Advances s'.subs
  loops : s'.loops = s.loops
  reachable : s'.env.reachable = s.env.reachable
  steps : s.subs.Solved → ∀ S, s'.subs.Refines S →
    typeFlow.steps (p S) (view S s.env) (view S s'.env)

theorem Stepped.trans {p q : Substitution → List Action} {s₁ : BodyState} (h₁ : Stepped p s s₁)
    (h₂ : Stepped q s₁ s') : Stepped (fun S => p S ++ q S) s s' where
  advances hS := (h₁.advances hS).trans (h₂.advances (h₁.advances hS).solved)
  loops := h₂.loops.trans h₁.loops
  reachable := h₂.reachable.trans h₁.reachable
  steps hS S hr := by
    have hS₁ := (h₁.advances hS).solved
    exact FlowAnalysis.steps_append.mpr
      ⟨_, h₁.steps hS S ((h₂.advances hS₁).refines.trans hr), h₂.steps hS₁ S hr⟩

/-- Nothing has changed but how types are written. -/
abbrev Settled (s s' : BodyState) : Prop := Stepped (fun _ => []) s s'

theorem Inferred.settled (h : Inferred s s') : Settled s s' where
  advances := h.advances
  loops := h.loops
  reachable := by rw [h.env]
  steps _ _ _ := by rw [h.env]; rfl

/-- A computation changes nothing but how types are written. -/
def Settles {α : Type} (x : Check α) : Prop := ∀ s a s', x s = .ok a s' → Settled s s'

theorem Settles.forM {f : α → Check PUnit} (hf : ∀ a, Settles (f a)) (l : List α) :
    Settles (l.forM f) := by
  induction l with
  | nil =>
    intro s u s' h
    obtain ⟨-, rfl⟩ := pure_eq_ok.mp h
    exact (Inferred.refl s).settled
  | cons a l ih =>
    intro s u s' h
    obtain ⟨_, s₁, ha, h⟩ := bind_eq_ok.mp h
    exact (hf a s _ s₁ ha).trans (ih s₁ u s' h)

theorem resolveTypeArgs_infers (call : PendingCall) (ps : List TypeParam) (ts : List Ty) :
    Infers env (fun _ => True) (resolveTypeArgs call ps ts) := by
  induction ps generalizing ts with
  | nil => exact .pure trivial
  | cons p ps ih =>
    cases ts with
    | nil => exact .pure trivial
    | cons t ts =>
      refine (resolve_infers t).bind fun t _ => .guard ?_
      refine (classify_infers t).bind fun c _ => .ensure ?_
      exact ih ts

theorem resolveNatArgs_infers (call : PendingCall) (ps : List String) (ns : List NatTerm) :
    Infers env (fun _ => True) (resolveNatArgs call ps ns) := by
  induction ps generalizing ns with
  | nil => exact .pure trivial
  | cons p ps ih =>
    cases ns with
    | nil => exact .pure trivial
    | cons n ns => exact Infers.get.bind fun _ _ => .guard (ih ns)

/-- **What the end of a statement makes of a binding**: its type, which has to be determined, is
    written as it has been found out. -/
theorem resolveBinding_cases {b : PendingBinding} (h : resolveBinding b s = .ok u s') :
    (s.env.bindings.get? b.name = none ∧ s' = s) ∨ ∃ t, s.env.bindings.get? b.name = some t ∧
      (t.subst s.subs).hasUndetermined = false ∧ s' = { s with env :=
        { s.env with bindings := s.env.bindings.insert b.name (t.subst s.subs) } } := by
  obtain ⟨t?, s₁, ht, h⟩ := bind_eq_ok.mp h
  obtain ⟨_, _, hget, ht⟩ := bind_eq_ok.mp ht
  obtain ⟨rfl, rfl⟩ := get_eq_ok.mp hget
  obtain ⟨rfl, rfl⟩ := pure_eq_ok.mp ht
  cases hb : s.env.bindings.get? b.name with
  | none =>
    rw [hb] at h
    obtain ⟨-, rfl⟩ := pure_eq_ok.mp h
    exact .inl ⟨rfl, rfl⟩
  | some t =>
    rw [hb] at h
    obtain ⟨t', s₁, ht, h⟩ := bind_eq_ok.mp h
    obtain ⟨rfl, rfl⟩ := resolve_eq_ok ht
    dsimp only at h
    split at h
    · obtain ⟨_, _, h, -⟩ := bind_eq_ok.mp h
      exact absurd h reject_ne_ok
    · rename_i determined
      cases modify_eq_ok.mp h
      exact .inr ⟨t, rfl, by simpa using determined, rfl⟩

theorem resolveBindings_cases {bound : List PendingBinding} {u : PUnit}
    (h : bound.forM resolveBinding s = .ok u s') :
    ∃ bindings, s' = { s with env := { s.env with bindings } } ∧
      ∀ n t, bindings.get? n = some t → t.hasUndetermined = false ∨
        s.env.bindings.get? n = some t ∧ ∀ b ∈ bound, b.name ≠ n := by
  induction bound generalizing s with
  | nil =>
    obtain ⟨-, rfl⟩ := pure_eq_ok.mp h
    exact ⟨_, rfl, fun n t hn => .inr ⟨hn, by simp⟩⟩
  | cons b bound ih =>
    obtain ⟨_, s₁, hb, h⟩ := bind_eq_ok.mp h
    obtain ⟨bindings, rfl, rest⟩ := ih h
    rcases resolveBinding_cases hb with ⟨absent, rfl⟩ | ⟨t, -, determined, rfl⟩
    · refine ⟨bindings, rfl, fun n t hn => (rest n t hn).imp_right fun old => ⟨old.1, ?_⟩⟩
      refine List.forall_mem_cons.mpr ⟨?_, old.2⟩
      rintro rfl
      cases absent.symm.trans old.1
    · refine ⟨bindings, rfl, fun n u hn => ?_⟩
      rcases rest n u hn with ground | ⟨old, others⟩
      · exact .inl ground
      · rw [Dict.get?_insert] at old
        split at old
        · cases old
          exact .inl determined
        · rename_i apart
          exact .inr ⟨old, List.forall_mem_cons.mpr ⟨Ne.symm apart, others⟩⟩

theorem resolveBinding_settles (b : PendingBinding) : Settles (resolveBinding b) := by
  intro s u s' h
  rcases resolveBinding_cases h with ⟨-, rfl⟩ | ⟨t, hb, -, rfl⟩
  · exact (Inferred.refl s').settled
  · exact ⟨fun hS => .refl hS, rfl, rfl, fun _ S hr => (view_insert_resolved hr hb).symm⟩

theorem resolveCalls_infers (calls : List PendingCall) :
    Infers env (fun _ => True) (calls.forM fun call => do
      resolveTypeArgs call call.generics.types call.typeArgs
      resolveNatArgs call call.generics.nats call.natArgs) := by
  induction calls with
  | nil => exact .pure trivial
  | cons call calls ih =>
    refine Infers.bind (P := fun _ => True) ?_ fun _ _ => ih
    exact (resolveTypeArgs_infers call _ _).bind fun _ _ => resolveNatArgs_infers call _ _

theorem resolvePending_runs (h : resolvePending s = .ok u s') :
    ∃ s₁, Inferred s s₁ ∧ s.bound.forM resolveBinding s₁ = .ok () s' := by
  obtain ⟨_, _, hget, h⟩ := bind_eq_ok.mp h
  obtain ⟨rfl, rfl⟩ := get_eq_ok.mp hget
  obtain ⟨_, s₁, hcalls, h⟩ := bind_eq_ok.mp h
  exact ⟨s₁, (resolveCalls_infers _ s _ s₁ rfl hcalls).1, h⟩

theorem resolvePending_settles : Settles resolvePending := by
  intro s u s' h
  obtain ⟨s₁, inferred, h⟩ := resolvePending_runs h
  exact inferred.settled.trans (Settles.forM resolveBinding_settles _ _ _ _ h)

theorem statement_runs {check : Check α} {a : α} (h : statement check s = .ok a s') :
    ∃ s₁ s₂, check { s with calls := [], bound := [] } = .ok a s₁ ∧
      resolvePending s₁ = .ok () s₂ ∧ s' = { s₂ with calls := s.calls, bound := s.bound } := by
  obtain ⟨_, _, hget, h⟩ := bind_eq_ok.mp h
  obtain ⟨rfl, rfl⟩ := get_eq_ok.mp hget
  obtain ⟨_, _, hset, h⟩ := bind_eq_ok.mp h
  cases set_eq_ok.mp hset
  obtain ⟨b, s₁, hcheck, h⟩ := bind_eq_ok.mp h
  obtain ⟨_, s₂, hresolve, h⟩ := bind_eq_ok.mp h
  obtain ⟨_, _, hset, h⟩ := bind_eq_ok.mp h
  cases modify_eq_ok.mp hset
  obtain ⟨rfl, rfl⟩ := pure_eq_ok.mp h
  exact ⟨s₁, s₂, hcheck, hresolve, rfl⟩

theorem statement_eq_ok {check : Check α} {a : α} (h : statement check s = .ok a s') :
    ∃ s₁ s₂, check { s with calls := [], bound := [] } = .ok a s₁ ∧ Settled s₁ s₂ ∧
      s' = { s₂ with calls := s.calls, bound := s.bound } := by
  obtain ⟨s₁, s₂, hcheck, hresolve, rfl⟩ := statement_runs h
  exact ⟨s₁, s₂, hcheck, resolvePending_settles _ _ _ hresolve, rfl⟩

end

end QuantumStatics.Elaboration
