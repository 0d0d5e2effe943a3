/-
  How requests fail.

  A request fails because it has no plan, because something of its name is in progress, because its
  plan asks for the impossible or has no result, or because a request that it needs fails.  What is
  in the cache makes no difference to this: what is cached is not asked for again.
-/
import QuantumStatics.Proofs.Classification.Instances
import QuantumStatics.Proofs.Specialization.Sessions
import QuantumStatics.Proofs.Ty.Composition

namespace QuantumStatics.Specialization

variable {location : Location}

variable {T : SignatureTable} {D : Definitions} {α β : Type} {P : Failure → Prop} {e : Failure}
  {name : String} {r : Request} {chain : Chain}

/-- All requests. -/
def anyRequest : Request → Prop := fun _ => True

theorem closedUnderNeeds_any : ClosedUnderNeeds T D anyRequest := fun _ _ _ _ _ _ => trivial

theorem of_get?_definitionsOf {fs : List Typed.Function} {n : String} {f : Typed.Function}
    (h : (definitionsOf fs).get? n = some f) : f ∈ fs ∧ f.qualifiedName = n := by
  rw [definitionsOf, Dict.get?_ofListFirst] at h
  obtain ⟨f', hf', heq⟩ := List.mem_map.mp (Instantiation.mem_of_lookup h)
  cases heq
  exact ⟨hf', rfl⟩

/-! ## Computations that fail -/

/-- A computation on a built cache fails only in the given way. -/
def FailsAs (T : SignatureTable) (D : Definitions) (P : Failure → Prop) (x : Specializing α) :
    Prop :=
  ∀ c e c', Built T D anyRequest c → x c = .error e c' → P e

namespace FailsAs

theorem pure {a : α} : FailsAs T D P (Pure.pure a) := fun _ _ _ _ => nofun

theorem throw {e : Failure} (h : P e) : FailsAs T D P (MonadExcept.throw e : Specializing α) := by
  rintro c _ _ _ ⟨⟩
  exact h

theorem bind {Q : α → Cache → Prop} {x : Specializing α} {f : α → Specializing β}
    (builds : Builds T D anyRequest (fun _ => True) x Q) (hx : FailsAs T D P x)
    (hf : ∀ a, FailsAs T D P (f a)) : FailsAs T D P (x >>= f) := by
  intro c e c' hc h
  cases hxc : x c with
  | ok a c₁ =>
    rw [bind_of_ok hxc] at h
    exact hf a c₁ e c' (builds.of_ok hc trivial hxc).1 h
  | error e₁ c₁ =>
    rw [bind_of_error hxc] at h
    cases h
    exact hx c e c' hc hxc

theorem map {x : Specializing α} {f : α → β} (hx : FailsAs T D P x) :
    FailsAs T D P (f <$> x) := by
  intro c e c' hc h
  cases hxc : x c with
  | ok a c₁ =>
    rw [map_of_ok hxc] at h
    cases h
  | error e₁ c₁ =>
    rw [map_of_error hxc] at h
    cases h
    exact hx c e c' hc hxc

end FailsAs

/-! ## Requests without a plan -/

/-- The generic parameters that the arguments of a request are for, if there is something of its
    name. -/
def Request.params? (T : SignatureTable) (D : Definitions) : Request → Option Generics
  | ⟨.struct, key, _⟩ => (T.findStruct? key.name).map (·.params)
  | ⟨.definition, key, _⟩ => (D.get? key.name).map (·.generics)

/-- A closed argument does not pass. -/
inductive Unfit (name : String) (location : Location) (p : TypeParam) (t : Ty) : Failure → Prop
  | unclassified {d : Defect} (fault : t.classify = .error d) : Unfit name location p t (.defect d)
  | inadmissible {cls : OwnershipClass} (known : t.classify = .ok cls)
    (bound : p.admits cls = false) :
    Unfit name location p t (.rejected ⟨.inadmissible t cls p.name name, location⟩)

theorem checkTypeArgs_eq_error {ps : List TypeParam} {ts : List Ty}
    (h : Key.checkTypeArgs name location ps ts = .error e) :
    (∃ t p, e = .rejected ⟨.openTypeArgument t p name, location⟩) ∨
      ∃ x ∈ ps.zip ts, Unfit name location x.1 x.2 e := by
  induction ps generalizing ts with
  | nil => cases h
  | cons p ps ih =>
    cases ts with
    | nil => cases h
    | cons t ts =>
      rw [Key.checkTypeArgs] at h
      cases hc : t.closed with
      | false =>
        simp only [hc, Bool.false_eq_true, if_false] at h
        cases h
        exact .inl ⟨t, p.name, rfl⟩
      | true =>
        simp only [hc, if_true] at h
        have here : ∀ {e}, Unfit name location p t e → ∃ x ∈ (p :: ps).zip (t :: ts),
            Unfit name location x.1 x.2 e := fun unfit => ⟨(p, t), List.mem_cons_self, unfit⟩
        cases hcls : t.classify with
        | error d =>
          rw [hcls] at h
          cases h
          exact .inr (here (.unclassified hcls))
        | ok cls =>
          rw [hcls] at h
          cases ha : p.admits cls with
          | false =>
            simp only [Except.mapError, bind, Except.bind, ha] at h
            cases h
            exact .inr (here (.inadmissible hcls ha))
          | true =>
            simp only [Except.mapError, bind, Except.bind, ha] at h
            refine (ih h).imp_right ?_
            rintro ⟨x, hx, unfit⟩
            exact ⟨x, List.mem_cons_of_mem _ hx, unfit⟩

theorem checkNatArgs_eq_error {ps : List String} {ns : List NatTerm}
    (h : Key.checkNatArgs name location ps ns = .error e) :
    ∃ n p, e = .rejected ⟨.openNatArgument n p name, location⟩ := by
  induction ps generalizing ns with
  | nil => cases h
  | cons p ps ih =>
    cases ns with
    | nil => cases h
    | cons n ns =>
      rw [Key.checkNatArgs] at h
      cases hc : n.isConst with
      | false =>
        simp only [hc, Bool.false_eq_true, if_false] at h
        cases h
        exact ⟨n, p, rfl⟩
      | true =>
        simp only [hc, if_true] at h
        exact ih h

/-- **Why arguments do not pass**: there are not as many as parameters, one is not closed, or one
    does not fit its parameter. -/
theorem checkArgs_eq_error {k : Key} {g : Generics} (h : k.checkArgs g location = .error e) :
    (∃ cause, e = .rejected ⟨cause, location⟩ ∧ cause.kind ≠ .typeMismatch ∧
        cause.kind ≠ .recursiveMonomorphisation) ∨
      ∃ x ∈ g.types.zip k.typeArgs, Unfit k.name location x.1 x.2 e := by
  rw [Key.checkArgs] at h
  split at h
  · rcases except_bind_eq_error.mp h with h | ⟨_, -, h⟩
    · refine (checkTypeArgs_eq_error h).imp_left ?_
      rintro ⟨t, p, rfl⟩
      exact ⟨_, rfl, by simp [Cause.kind], by simp [Cause.kind]⟩
    · obtain ⟨n, p, rfl⟩ := checkNatArgs_eq_error h
      exact .inl ⟨_, rfl, by simp [Cause.kind], by simp [Cause.kind]⟩
  · cases h
    exact .inl ⟨_, rfl, by simp [Cause.kind], by simp [Cause.kind]⟩

/-- **Why a request has no plan**: there is nothing of its name, or its arguments do not pass. -/
theorem plan_eq_error (h : r.plan T D = .error e) :
    (∃ cause, e = .rejected ⟨cause, r.location⟩ ∧ cause.kind ≠ .typeMismatch ∧
        cause.kind ≠ .recursiveMonomorphisation) ∨
      ∃ g, r.params? T D = some g ∧
        ∃ x ∈ g.types.zip r.key.typeArgs, Unfit r.key.name r.location x.1 x.2 e := by
  have args : ∀ {g : Generics} {p : Plan},
      (r.key.checkArgs g r.location).map (fun _ => p) = .error e →
      r.key.checkArgs g r.location = .error e := by
    intro g p h
    cases hc : r.key.checkArgs g r.location with
    | ok => rw [hc] at h; cases h
    | error e' => rw [hc] at h; cases h; rfl
  obtain ⟨_ | _, key, location⟩ := r
  · simp only [Request.plan] at h
    split at h
    · cases h
      exact .inl ⟨_, rfl, by simp [Cause.kind], by simp [Cause.kind]⟩
    · next decl hd =>
      refine (checkArgs_eq_error (args h)).imp_right fun unfit => ⟨decl.params, ?_, unfit⟩
      simp [Request.params?, hd]
  · simp only [Request.plan] at h
    split at h
    · cases h
      exact .inl ⟨_, rfl, by simp [Cause.kind], by simp [Cause.kind]⟩
    · next f hf =>
      refine (checkArgs_eq_error (args h)).imp_right fun unfit => ⟨f.generics, ?_, unfit⟩
      simp [Request.params?, hf]

/-! ## Following plans -/

section

variable {answer : Request → Specializing Specialized} {needs : List Need}

theorem meet_fails (answers : ∀ r, .request r ∈ needs → Answers T D anyRequest r (answer r))
    (fails : ∀ r, .request r ∈ needs → FailsAs T D P (answer r))
    (impossible : ∀ d, .impossible d ∈ needs → P (.defect d)) :
    FailsAs T D P (needs.forM (Need.meet answer)) := by
  induction needs with
  | nil => exact .pure
  | cons n needs ih =>
    have rest := ih (fun r hr => answers r (List.mem_cons_of_mem n hr))
      (fun r hr => fails r (List.mem_cons_of_mem n hr))
      fun d hd => impossible d (List.mem_cons_of_mem n hd)
    cases n with
    | impossible d => exact .throw (impossible d List.mem_cons_self)
    | request r =>
      have builds : Builds T D anyRequest (fun _ => True) (discard (answer r)) fun _ _ => True :=
        .map ((answers r List.mem_cons_self).imp (fun _ h => h) fun _ _ _ => trivial)
      exact .bind builds (fails r List.mem_cons_self).map fun _ => rest

end

/-- **Answering a request by its plan** fails only as it should, if answering what it needs does. -/
theorem FailsAs.answerWith {nested : Chain → Request → Specializing Specialized}
    (plan : ∀ e, r.plan T D = .error e → P e)
    (impossible : ∀ p d, r.plan T D = .ok p → .impossible d ∈ p.needs → P (.defect d))
    (result : ∀ p d, r.plan T D = .ok p → p.result = .error d → P (.defect d))
    (enters : ∀ e, enter chain r.key r.location = .error e → P e)
    (answers : ∀ chain p r', r.plan T D = .ok p → .request r' ∈ p.needs →
      Answers T D anyRequest r' (nested chain r'))
    (fails : ∀ chain' p r', enter chain r.key r.location = .ok chain' → r.plan T D = .ok p →
      .request r' ∈ p.needs → FailsAs T D P (nested chain' r')) :
    FailsAs T D P (answerWith T D nested chain r) := by
  unfold Specialization.answerWith
  cases hp : r.plan T D with
  | error e => exact .throw (plan e hp)
  | ok p =>
    rw [ofExcept_ok, pure_bind]
    refine .bind Builds.get (fun _ _ _ _ => nofun) fun c₀ => ?_
    split
    · exact .pure
    · cases he : enter chain r.key r.location with
      | error e => exact .throw (enters e he)
      | ok chain' =>
        rw [ofExcept_ok, pure_bind]
        have builds := meet_builds fun r' => answers chain' p r' hp
        refine .bind builds ?_ fun _ => ?_
        · exact meet_fails (fun r' => answers chain' p r' hp)
            (fun r' => fails chain' p r' he hp) fun d => impossible p d hp
        · cases hs : p.result with
          | error d => exact .throw (result p d hp hs)
          | ok s => exact fun _ _ _ _ => nofun

theorem FailsAs.definitionWith {nested : DefinitionRequest} {key : Key}
    (answers : ∀ chain {key location}, Answers T D anyRequest ⟨.definition, key, location⟩
      (.definition <$> nested chain key location))
    (plan : ∀ e, Request.plan T D ⟨.definition, key, location⟩ = .error e → P e)
    (impossible : ∀ p d, Request.plan T D ⟨.definition, key, location⟩ = .ok p →
      .impossible d ∈ p.needs → P (.defect d))
    (enters : ∀ e, enter chain key location = .error e → P e)
    (fails : ∀ chain' p r', enter chain key location = .ok chain' →
      Request.plan T D ⟨.definition, key, location⟩ = .ok p → .request r' ∈ p.needs →
      FailsAs T D P (answerNeeds T nested chain' r')) :
    FailsAs T D P (Specialized.definition <$>
      Specialization.definitionWith T D nested chain key location) := by
  have builds : ∀ chain r, anyRequest r →
      Answers T D anyRequest r (answerNeeds T nested chain r) := fun chain r =>
    answerNeeds_builds closedUnderNeeds_any fun _ => answers chain
  have result : ∀ p d, Request.plan T D ⟨.definition, key, location⟩ = .ok p →
      p.result = .error d → P (.defect d) := by
    intro p d hp hd
    obtain ⟨f, -, -, rfl⟩ := plan_definition_eq_ok.mp hp
    cases hd
  intro c e c' hc h
  rw [definitionWith_eq_answerWith closedUnderNeeds_any builds trivial hc] at h
  exact FailsAs.answerWith plan impossible result enters
    (fun chain _ r' _ _ => builds chain r' trivial) fails c e c' hc h

/-- Requests in `G` fail only in the given way, whatever step fails. -/
structure Harmless (T : SignatureTable) (D : Definitions) (G : Request → Prop)
    (P : Failure → Prop) : Prop where
  closed : ClosedUnderNeeds T D G
  plan {r : Request} {e : Failure} : G r → r.plan T D = .error e → P e
  impossible {r : Request} {p : Plan} {d : Defect} : G r → r.plan T D = .ok p →
    .impossible d ∈ p.needs → P (.defect d)
  result {r : Request} {p : Plan} {d : Defect} : G r → r.plan T D = .ok p →
    p.result = .error d → P (.defect d)
  enter {chain : Chain} {key : Key} {location : Location} {e : Failure} :
    enter chain key location = .error e → P e
  bound : P (.defect .chainTooLong)

namespace Harmless

variable {G : Request → Prop}

theorem answerWith_fails (H : Harmless T D G P)
    {nested : Chain → Request → Specializing Specialized} {r : Request} (hr : G r)
    (answers : ∀ chain p r', r.plan T D = .ok p → .request r' ∈ p.needs →
      Answers T D anyRequest r' (nested chain r'))
    (fails : ∀ chain p r', r.plan T D = .ok p → .request r' ∈ p.needs →
      FailsAs T D P (nested chain r')) (chain : Chain) :
    FailsAs T D P (answerWith T D nested chain r) :=
  .answerWith (fun _ => H.plan hr) (fun _ _ => H.impossible hr) (fun _ _ => H.result hr)
    (fun _ => H.enter) answers fun chain p r' _ => fails chain p r'

theorem structWithin_fails (H : Harmless T D G P) (bound : Nat) (chain : Chain) {key : Key}
    (hr : G ⟨.struct, key, location⟩) :
    FailsAs T D P (Specialized.struct <$> structWithin T bound chain key location) := by
  induction bound generalizing chain key location with
  | zero =>
    rw [structWithin, structWith_eq_answerWith T D]
    exact H.answerWith_fails hr (fun _ _ r' _ _ => defect_answers r' _ _)
      (fun _ _ _ _ _ => .map (.throw H.bound)) chain
  | succ bound ih =>
    rw [structWithin, structWith_eq_answerWith T D]
    refine H.answerWith_fails hr (fun chain p r' hp hr' => ?_) (fun chain p r' hp hr' => ?_) chain
    all_goals obtain ⟨key', rfl⟩ := need_of_struct hp hr'
    · exact structWithin_builds closedUnderNeeds_any bound chain trivial
    · exact ih chain (H.closed _ _ _ hr hp hr')

theorem definitionWith_fails (H : Harmless T D G P) {nested : DefinitionRequest}
    (answers : ∀ chain {key location}, Answers T D anyRequest ⟨.definition, key, location⟩
      (.definition <$> nested chain key location))
    (fails : ∀ chain {key location}, G ⟨.definition, key, location⟩ →
      FailsAs T D P (Specialized.definition <$> nested chain key location))
    (chain : Chain) {key : Key} (hr : G ⟨.definition, key, location⟩) :
    FailsAs T D P (Specialized.definition <$> definitionWith T D nested chain key location) := by
  refine .definitionWith answers (fun _ => H.plan hr) (fun _ _ => H.impossible hr)
    (fun _ => H.enter) fun chain p r' _ hp hr' => ?_
  have good := H.closed _ _ _ hr hp hr'
  obtain ⟨_ | _, key', location'⟩ := r'
  · exact H.structWithin_fails _ [] good
  · exact fails chain good

theorem definitionWithin_fails (H : Harmless T D G P) (bound : Nat) (chain : Chain) {key : Key}
    (hr : G ⟨.definition, key, location⟩) :
    FailsAs T D P (Specialized.definition <$> definitionWithin T D bound chain key location) := by
  induction bound generalizing chain key location with
  | zero =>
    exact H.definitionWith_fails (fun _ _ _ => defect_answers _ _ _)
      (fun _ _ _ _ => .map (.throw H.bound)) chain hr
  | succ bound ih =>
    exact H.definitionWith_fails
      (fun chain _ _ => definitionWithin_builds closedUnderNeeds_any bound chain trivial)
      (fun chain _ _ => ih chain) chain hr

/-- **After any requests**, harmless requests fail only as they should. -/
theorem answer_fails (H : Harmless T D G P) {r : Request} (hr : G r) (rs : List Request)
    {e : Failure} {c : Cache} (h : r.answer T D (session T D rs) = .error e c) : P e := by
  have built : Built T D anyRequest (session T D rs) :=
    session_built closedUnderNeeds_any fun _ _ => trivial
  obtain ⟨_ | _, key, location⟩ := r
  · exact H.structWithin_fails _ [] hr _ e c built h
  · exact H.definitionWithin_fails _ [] hr _ e c built h

end Harmless

end QuantumStatics.Specialization
