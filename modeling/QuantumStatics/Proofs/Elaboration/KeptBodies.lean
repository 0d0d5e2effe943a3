/-
  What checking a body keeps.

  A statement ends with a look at its generic calls: their arguments have to be determined, and
  admitted by the bounds of the parameters.  So the calls of a statement may count on being settled.
-/
import QuantumStatics.Proofs.Elaboration.Kept

namespace QuantumStatics.Elaboration

open Check
open Typed (Part Expr Stmt)

/-! ## Ends of statements -/

section Ends

variable {T : SignatureTable} {g : Generics} {U : Upkeep T g} {S : Substitution} {F : Prospect U S}
  {s s' : BodyState} {call : PendingCall} {u : Unit} {n : String} {t : Ty}

theorem resolveTypeArgs_settles {ps : List TypeParam} {ts : List Ty} (hs : U.Ready s)
    (hts : ∀ t ∈ ts, U.type t) (h : resolveTypeArgs call ps ts s = .ok u s') :
    Same s s' ∧ U.memo s'.memo ∧
      (s.subs.Refines S → ∀ x ∈ ps.zip ts, F.within x.1 (x.2.subst S)) := by
  induction ps generalizing ts s with
  | nil =>
    obtain ⟨-, rfl⟩ := pure_eq_ok.mp h
    exact ⟨.refl s, hs.memo, fun _ => nofun⟩
  | cons p ps ih =>
    cases ts with
    | nil =>
      obtain ⟨-, rfl⟩ := pure_eq_ok.mp h
      exact ⟨.refl s, hs.memo, fun _ => nofun⟩
    | cons t ts =>
      obtain ⟨ht, hts⟩ := List.forall_mem_cons.mp hts
      rw [resolveTypeArgs] at h
      obtain ⟨_, s₁, hr, h⟩ := bind_eq_ok.mp h
      obtain ⟨rfl, rfl⟩ := resolve_eq_ok hr
      dsimp only at h
      split at h
      · obtain ⟨_, _, h, -⟩ := bind_eq_ok.mp h
        exact absurd h reject_ne_ok
      · rename_i determined
        have determined : (t.subst s₁.subs).hasUndetermined = false := by simpa using determined
        have known : U.type (t.subst s₁.subs) := U.subst hs.images.types hs.images.nats ht
        obtain ⟨c, s₂, hc, h⟩ := bind_eq_ok.mp h
        obtain ⟨same, class_⟩ := classify_eq_ok hc
        have memo := U.classify known hs.memo class_
        split at h
        · rename_i admits
          obtain ⟨same', memo', rest⟩ := ih (Prospect.ready_of_same same hs memo) hts h
          refine ⟨same.trans same', memo', fun hr => List.forall_mem_cons.mpr ⟨?_, ?_⟩⟩
          · have ground := Ty.ground_iff.mpr determined
            have found : t.subst S = t.subst s₁.subs := by
              rw [← hr.subst, Ty.subst_of_determined ground]
            rw [found]
            exact F.admitted known determined hs.memo class_ admits
          · exact rest (same.subs ▸ hr)
        · obtain ⟨_, _, h, -⟩ := bind_eq_ok.mp h
          exact absurd h reject_ne_ok

theorem resolveNatArgs_eq_ok {ps : List String} {ns : List NatTerm}
    (h : resolveNatArgs call ps ns s = .ok u s') :
    s' = s ∧ (s.subs.Refines S → ∀ x ∈ ps.zip ns, x.2.GroundIn S) := by
  induction ps generalizing ns with
  | nil =>
    obtain ⟨-, rfl⟩ := pure_eq_ok.mp h
    exact ⟨rfl, fun _ => nofun⟩
  | cons p ps ih =>
    cases ns with
    | nil =>
      obtain ⟨-, rfl⟩ := pure_eq_ok.mp h
      exact ⟨rfl, fun _ => nofun⟩
    | cons n ns =>
      rw [resolveNatArgs] at h
      obtain ⟨_, _, hget, h⟩ := bind_eq_ok.mp h
      obtain ⟨rfl, rfl⟩ := get_eq_ok.mp hget
      rw [Substitution.applyNat_eq] at h
      dsimp only at h
      split at h
      · obtain ⟨_, _, h, -⟩ := bind_eq_ok.mp h
        exact absurd h reject_ne_ok
      · rename_i determined
        obtain ⟨rfl, known⟩ := ih h
        refine ⟨rfl, fun hr => List.forall_mem_cons.mpr ⟨?_, known hr⟩⟩
        have ground := NatTerm.ground_iff.mpr (Bool.not_eq_true _ ▸ determined)
        exact (NatTerm.groundIn_subst hr).mp ground.groundIn

theorem resolveCalls_settles {calls : List PendingCall} {u : PUnit} (hs : U.Ready s)
    (hc : ∀ c ∈ calls, ∀ t ∈ c.typeArgs, U.type t) (h : (calls.forM fun call => do
      resolveTypeArgs call call.generics.types call.typeArgs
      resolveNatArgs call call.generics.nats call.natArgs) s = .ok u s') :
    Same s s' ∧ U.memo s'.memo ∧ (s.subs.Refines S → ∀ c ∈ calls, F.Settled c) := by
  induction calls generalizing s with
  | nil =>
    obtain ⟨-, rfl⟩ := pure_eq_ok.mp h
    exact ⟨.refl s, hs.memo, fun _ => nofun⟩
  | cons call calls ih =>
    obtain ⟨hcall, hc⟩ := List.forall_mem_cons.mp hc
    obtain ⟨_, s₂, hrun, h⟩ := bind_eq_ok.mp h
    obtain ⟨_, s₁, htypes, hnats⟩ := bind_eq_ok.mp hrun
    obtain ⟨same, memo, settled⟩ := resolveTypeArgs_settles hs hcall htypes
    obtain ⟨rfl, determined⟩ := resolveNatArgs_eq_ok hnats
    obtain ⟨same', memo', rest⟩ := ih (Prospect.ready_of_same same hs memo) hc h
    refine ⟨same.trans same', memo', fun hr => ?_⟩
    have refines := same.subs ▸ hr
    exact List.forall_mem_cons.mpr ⟨⟨settled hr, determined refines⟩, rest refines⟩

variable {H : Prop} {α β : Type} {location : Location}

theorem setEnv_keeps {env : Env} (h : F.envs.Holds H env) :
    F.Keeps H .any (modify fun s => { s with env }) :=
  .modify (fun _ => rfl) (fun _ => rfl)
    (fun _ hs => ⟨hs.solved, hs.images, h.now, hs.jumps, hs.calls, hs.memo⟩)
    fun _ hH fine => ⟨fine.images, h.later hH, fine.jumps⟩

theorem setBinding_keeps (ht : F.types.Holds H t) :
    F.Keeps H .any (modify fun s =>
      { s with env := { s.env with bindings := s.env.bindings.insert n t } }) :=
  .modify (fun _ => rfl) (fun _ => rfl)
    (fun _ hs => ⟨hs.solved, hs.images, forall_get?_insert hs.env ht.now, hs.jumps, hs.calls,
      hs.memo⟩)
    fun _ hH fine => ⟨fine.images, forall_get?_insert fine.env (ht.later hH), fine.jumps⟩

theorem bind_keeps (ht : F.types.Holds H t) : F.Keeps H .any (Check.bind n t location) :=
  .modify (fun _ => rfl) (fun _ => rfl)
    (fun _ hs => ⟨hs.solved, hs.images, forall_get?_insert hs.env ht.now, hs.jumps, hs.calls,
      hs.memo⟩)
    fun _ hH fine => ⟨fine.images, forall_get?_insert fine.env (ht.later hH), fine.jumps⟩

theorem resolveBinding_keeps (b : PendingBinding) : F.Keeps H .any (resolveBinding b) := by
  refine (binding?_keeps b.name).bind fun _ t? ht => ?_
  split
  · exact .pure Aspect.holds_any
  · refine (resolve_keeps (Aspect.holds_opt_some.mp ht)).bind fun _ t ht => .guard fun _ => ?_
    exact setBinding_keeps ht

theorem forM_keeps {f : α → Check PUnit} {l : List α}
    (hf : ∀ {H'}, (H' → H) → ∀ a ∈ l, F.Keeps H' .any (f a)) : F.Keeps H .any (l.forM f) := by
  induction l generalizing H with
  | nil => exact .pure Aspect.holds_any
  | cons a l ih =>
    refine (hf id a (List.mem_cons_self ..)).bind fun lift _ _ => ih fun lift' b hb => ?_
    exact hf (fun h => lift (lift' h)) b (List.mem_cons_of_mem _ hb)

theorem resolvePending_settles_calls (hs : U.Ready s) (h : resolvePending s = .ok u s') :
    U.Ready s' ∧ s.subs.Refines s'.subs ∧
      (s'.subs.Refines S → F.Ends s ∧ (F.Fine s → F.Fine s')) := by
  obtain ⟨_, _, hget, h⟩ := bind_eq_ok.mp h
  obtain ⟨rfl, rfl⟩ := get_eq_ok.mp hget
  obtain ⟨_, s₁, hcalls, h⟩ := bind_eq_ok.mp h
  obtain ⟨same, memo, settled⟩ := resolveCalls_settles (F := F) hs hs.calls hcalls
  have first := Prospect.ready_of_same same hs memo
  have bindings : F.Keeps True .any (s.bound.forM resolveBinding) :=
    forM_keeps fun _ b _ => resolveBinding_keeps b
  obtain ⟨ready, further, -, keeps⟩ := bindings s₁ _ s' first h
  have refines : s.subs.Refines s'.subs := same.subs ▸ further.refines
  refine ⟨ready, refines, fun hr => ?_⟩
  have settled := settled (refines.trans hr)
  refine ⟨⟨refines.trans hr, settled⟩, fun fine => ?_⟩
  have calls : s'.calls = s₁.calls := by
    obtain ⟨_, rfl, -⟩ := resolveBindings_cases h
    rfl
  have ends : F.Ends s' := ⟨hr, by rwa [calls, same.calls]⟩
  exact (keeps ends trivial trivial (Prospect.fine_of_same same fine)).1

theorem statement_keeps {G : Aspect α} {check : Check α} (h : F.Keeps H G check) :
    F.Keeps H G (statement check) := by
  intro s a s' hs hrun
  obtain ⟨s₁, s₂, hcheck, hresolve, rfl⟩ := statement_runs hrun
  have start : U.Ready { s with calls := [], bound := [] } :=
    ⟨hs.solved, hs.images, hs.env, hs.jumps, nofun, hs.memo⟩
  obtain ⟨ready, further, now, keeps⟩ := h _ _ _ start hcheck
  obtain ⟨ready', refines, settles⟩ := resolvePending_settles_calls (F := F) ready hresolve
  refine ⟨⟨ready'.solved, ready'.images, ready'.env, ready'.jumps, hs.calls, ready'.memo⟩,
    ⟨further.refines.trans refines, List.Subset.refl _⟩, now, fun ends hH _ fine => ?_⟩
  obtain ⟨ends₁, kept⟩ := settles ends.refines
  obtain ⟨fine₁, later⟩ := keeps ends₁ hH trivial ⟨fine.images, fine.env, fine.jumps⟩
  have fine₂ := kept fine₁
  exact ⟨⟨fine₂.images, fine₂.env, fine₂.jumps⟩, later⟩

end Ends

/-! ## Joining paths -/

section Joins

variable {T : SignatureTable} {g : Generics} {U : Upkeep T g} {S : Substitution}
  {F : Prospect U S} {H : Prop} {α β : Type} {location : Location}

theorem mergeEach_keeps {l : List (String × Option Ty × Option Ty)}
    (hl : ∀ p ∈ l, F.types.opt.Holds H p.2.1 ∧ F.types.opt.Holds H p.2.2) :
    F.Keeps H ⟨fun ts => ∀ p ∈ ts, U.type p.2, fun ts => ∀ p ∈ ts, F.type p.2⟩
      (mergeEach location l) := by
  induction l generalizing H with
  | nil => exact .pure ⟨nofun, fun _ => nofun⟩
  | cons p l ih =>
    obtain ⟨x, a, b⟩ := p
    obtain ⟨⟨ha, hb⟩, hrest⟩ := List.forall_mem_cons.mp hl
    have kept : ∀ {H'} {t : Ty}, (H' → H) → F.types.Holds H' t →
        F.Keeps H' ⟨fun ts => ∀ p ∈ ts, U.type p.2, fun ts => ∀ p ∈ ts, F.type p.2⟩
          (do return (x, t) :: (← mergeEach location l)) := fun lift ht => by
      refine (ih fun p hp => ⟨(hrest p hp).1.mono lift, (hrest p hp).2.mono lift⟩).bind
        fun lift' ts hts => .pure ⟨List.forall_mem_cons.mpr ⟨ht.now, hts.now⟩, fun h => ?_⟩
      exact List.forall_mem_cons.mpr ⟨ht.later (lift' h), hts.later h⟩
    cases a with
    | none =>
      cases b with
      | none => exact ih hrest
      | some t => exact kept id (Aspect.holds_opt_some.mp hb)
    | some t =>
      cases b with
      | none => exact kept id (Aspect.holds_opt_some.mp ha)
      | some r =>
        exact (unifyOr_keeps (Aspect.holds_opt_some.mp ha) (Aspect.holds_opt_some.mp hb)).bind
          fun lift u hu => kept lift hu

/-- **The bindings of joined paths have the property**, if those of the paths do. -/
theorem merge_keeps {l r : Env} (hl : F.envs.Holds H l) (hr : F.envs.Holds H r) :
    F.Keeps H F.envs (merge location l r) := by
  unfold merge
  split
  · refine (mergeEach_keeps fun p hp => ?_).bind fun _ ts hts => .pure
      ⟨forall_get?_ofListFirst hts.now, fun h => forall_get?_ofListFirst (hts.later h)⟩
    obtain ⟨x, a, b⟩ := p
    obtain ⟨rfl, rfl, -⟩ := Dict.mem_align.mp hp
    exact ⟨⟨fun _ ht => hl.now ht, fun h _ ht => hl.later h ht⟩,
      ⟨fun _ ht => hr.now ht, fun h _ ht => hr.later h ht⟩⟩
  · exact .pure hl
  · exact .pure hr
  · exact .pure ⟨forall_get?_union hl.now hr.now,
      fun h => forall_get?_union (hl.later h) (hr.later h)⟩

theorem mergeAll_keeps {l : Env} {rs : List Env} (hl : F.envs.Holds H l)
    (hrs : F.envs.each.Holds H rs) : F.Keeps H F.envs (mergeAll location l rs) := by
  induction rs generalizing l H with
  | nil => exact .pure hl
  | cons r rs ih =>
    obtain ⟨hr, hrs⟩ := Aspect.holds_each_cons.mp hrs
    exact (merge_keeps hl hr).bind fun lift m hm => ih hm (hrs.mono lift)

/-! ## Parts of statements -/

theorem holds_env {s : BodyState} (h : F.states.Holds H s) : F.envs.Holds H s.env :=
  ⟨h.now.env, fun hH => (h.later hH).env⟩

theorem jump_keeps : F.Keeps H .any jump :=
  .modify (fun _ => rfl) (fun _ => rfl)
    (fun _ hs => ⟨hs.solved, hs.images, hs.env, hs.jumps, hs.calls, hs.memo⟩)
    fun _ _ fine => ⟨fine.images, fine.env, fine.jumps⟩

theorem branch_keeps {G : Aspect α} {check : Check α} {env : Env} (henv : F.envs.Holds H env)
    (h : ∀ {H'}, (H' → H) → F.Keeps H' G check) :
    F.Keeps H ⟨fun r => G.now r.1 ∧ U.Binds r.2, fun r => G.later r.1 ∧ F.Binds r.2⟩
      (branch env check) := by
  refine (setEnv_keeps henv).bind fun lift _ _ => (h lift).bind fun _ a ha => ?_
  refine Prospect.KeepsIf.get.bind fun lift' s hs => .pure ⟨⟨ha.now, hs.now.env⟩, fun h => ?_⟩
  exact ⟨ha.later (lift' h), (hs.later h).env⟩

theorem update_keeps {G : Aspect β} {f : BodyState → BodyState} {k : BodyState → Check β}
    (subs : ∀ s, (f s).subs = s.subs) (calls : ∀ s, (f s).calls = s.calls)
    (ready : ∀ s, U.Ready s → U.Ready (f s)) (fine : ∀ s, F.Fine s → F.Fine (f s))
    (hk : ∀ {H'}, (H' → H) → ∀ s, F.states.Holds H' s → F.Keeps H' G (k s)) :
    F.Keeps H G (do
      let s ← get
      set (f s)
      k s) := by
  intro s b s' hs h
  obtain ⟨_, _, hget, h⟩ := bind_eq_ok.mp h
  obtain ⟨rfl, rfl⟩ := get_eq_ok.mp hget
  obtain ⟨_, _, hset, h⟩ := bind_eq_ok.mp h
  cases set_eq_ok.mp hset
  have next : F.Keeps (H ∧ F.Fine s) G (k s) := hk (fun h => h.1) s ⟨hs, fun h => h.2⟩
  obtain ⟨ready', further, now, keeps⟩ := next _ b s' (ready s hs) h
  refine ⟨ready', ⟨subs s ▸ further.refines, calls s ▸ further.calls⟩, now, ?_⟩
  exact fun ends hH _ hf => keeps ends ⟨hH, hf⟩ trivial (fine s hf)

/-- **After a loop all bindings have the property**, whichever way it was left. -/
theorem loop_keeps {G : Aspect α} {check : Check α}
    (h : ∀ {H'}, (H' → H) → F.Keeps H' G check) : F.Keeps H G (loop location check) := by
  refine Prospect.KeepsIf.get.bind fun lift entry hentry => ?_
  refine Prospect.KeepsIf.bind (.modify (fun _ => rfl) (fun _ => rfl) (fun s hs => ?_)
    fun s _ fine => ?_) fun lift₁ _ _ => ?_
  · exact ⟨hs.solved, hs.images, hs.env, List.forall_mem_cons.mpr ⟨nofun, hs.jumps⟩, hs.calls,
      hs.memo⟩
  · exact ⟨fine.images, fine.env, List.forall_mem_cons.mpr ⟨nofun, fine.jumps⟩⟩
  refine (h fun h => lift (lift₁ h)).bind fun lift₂ a ha => ?_
  refine update_keeps (fun _ => rfl) (fun _ => rfl) (fun s hs => ?_) (fun s fine => ?_)
    fun lift₃ s hs => ?_
  · exact ⟨hs.solved, hs.images, hs.env, fun f hf => hs.jumps f (List.mem_of_mem_tail hf),
      hs.calls, hs.memo⟩
  · exact ⟨fine.images, fine.env, fun f hf => fine.jumps f (List.mem_of_mem_tail hf)⟩
  have now := List.forall_mem_append.mp (forall_mem_headD hs.now.jumps)
  have later := fun h => List.forall_mem_append.mp (forall_mem_headD (hs.later h).jumps)
  have continues : F.envs.each.Holds _ (s.loops.headD {}).continues := ⟨now.2, fun h => (later h).2⟩
  have breaks : F.envs.each.Holds _ (s.loops.headD {}).breaks := ⟨now.1, fun h => (later h).1⟩
  have entry := (holds_env hentry).mono fun h => lift₁ (lift₂ (lift₃ h))
  refine (merge_keeps entry (holds_env hs)).bind fun lift₄ m hm => ?_
  refine (mergeAll_keeps hm (continues.mono lift₄)).bind fun lift₅ m hm => ?_
  refine (mergeAll_keeps hm (breaks.mono fun h => lift₄ (lift₅ h))).bind fun lift₆ m hm => ?_
  refine (setEnv_keeps hm).bind fun lift₇ _ _ => .pure ?_
  exact ha.mono fun h => lift₃ (lift₄ (lift₅ (lift₆ (lift₇ h))))

theorem inLoop_keeps {what : String} {f : LoopFrame → LoopFrame}
    (now : ∀ frame, (∀ e ∈ frame.breaks ++ frame.continues, U.Binds e) →
      ∀ e ∈ (f frame).breaks ++ (f frame).continues, U.Binds e)
    (later : H → ∀ frame, (∀ e ∈ frame.breaks ++ frame.continues, F.Binds e) →
      ∀ e ∈ (f frame).breaks ++ (f frame).continues, F.Binds e) :
    F.Keeps H .any (inLoop location what f) := by
  intro s _ s' hs h
  obtain ⟨frame, loops, hl, rfl⟩ := inLoop_eq_ok h
  obtain ⟨hframe, hloops⟩ := List.forall_mem_cons.mp (hl ▸ hs.jumps)
  refine ⟨⟨hs.solved, hs.images, hs.env, List.forall_mem_cons.mpr ⟨now frame hframe, hloops⟩,
    hs.calls, hs.memo⟩, ⟨hs.solved.refines, List.Subset.refl _⟩, trivial, fun _ hH _ fine => ?_⟩
  obtain ⟨hframe, hloops⟩ := List.forall_mem_cons.mp (hl ▸ fine.jumps)
  exact ⟨⟨fine.images, fine.env, List.forall_mem_cons.mpr ⟨later hH frame hframe, hloops⟩⟩,
    trivial⟩

theorem targetTypes_keeps (seen targets : List String) :
    F.Keeps H F.types.each (targetTypes location seen targets) := by
  induction targets generalizing seen H with
  | nil => exact .pure Aspect.holds_each_nil
  | cons target targets ih =>
    rw [targetTypes]
    refine .guard fun _ => freshType_keeps.bind fun _ t ht => ?_
    exact (ih _).bind fun lift types htypes =>
      .pure (Aspect.holds_each_cons.mpr ⟨ht.mono lift, htypes⟩)

theorem loopVarType_keeps {iterable : Expr} (hi : F.exprs.Holds H iterable) (loopVar : String) :
    F.Keeps H F.types (loopVarType location loopVar iterable) := by
  refine (resolve_keeps (holds_type hi)).bind fun _ t ht => ?_
  have checked : ∀ {H'} {t : Ty}, F.types.Holds H' t → F.Keeps H' F.types (do
      if t.hasUndetermined then
        .reject location (.loopVariableType loopVar)
      return t) := fun ht => .guard fun _ => .pure ht
  split
  · exact checked (holds_component ht (List.mem_singleton_self _))
  · exact checked (holds_builtin rfl)
  · exact .reject

end Joins

/-! ## Statements -/

section Statements

variable {Γ : Scope} {U : Upkeep Γ.table Γ.generics} {S : Substitution} {F : Prospect U S}
  {location : Location} {H : Prop} {s s' : BodyState}

theorem condition_keeps {e : Source.Expr} (he : e.EachType U.declared) :
    F.Keeps H F.exprs (condition Γ e) := by
  have bool : ∀ {H'}, F.types.Holds H' .bool := holds_builtin rfl
  refine (checkExpr_keeps (Aspect.holds_opt_some.mpr bool) .borrow e he).bind fun _ typed ht => ?_
  exact (expect_keeps ht bool e.location _).bind fun lift _ _ => .pure (ht.mono lift)

theorem annotatedValue_keeps {what : String} {stated : Option Ty} {value : Source.Expr}
    (hv : value.EachType U.declared) (ht : ∀ t ∈ stated, U.declared t) :
    F.Keeps H ⟨fun e => (∀ p ∈ e.parts, U.part p) ∧ U.type (stated.getD e.type),
      fun e => (∀ p ∈ e.parts, F.part p) ∧ F.type (stated.getD e.type)⟩
      (annotatedValue Γ location what stated value) := by
  unfold annotatedValue
  split
  · refine (checkExpr_keeps Aspect.holds_opt_none .consume value hv).mono fun _ e he => ?_
    exact ⟨⟨he.now, (holds_type he).now⟩, fun h => ⟨he.later h, (holds_type he).later h⟩⟩
  · rename_i t
    refine Prospect.KeepsIf.ofExcept.bind fun _ _ checked => ?_
    have known : ∀ {H'}, F.types.Holds H' t := holds_stated (ht t rfl) checked.now
    refine (checkExpr_keeps (Aspect.holds_opt_some.mpr known) .consume value hv).bind
      fun _ typed he => ?_
    refine (expect_keeps he known location what).bind fun lift _ _ => .pure ⟨?_, fun h => ?_⟩
    · exact ⟨he.now, (known : F.types.Holds True t).now⟩
    · exact ⟨he.later (lift h), known.later trivial⟩

theorem holds_stmt_of_expr {s : Stmt} {e : Expr} (h : F.exprs.Holds H e) (hs : s.parts = e.parts) :
    F.stmts.Holds H s :=
  holds_stmts.mpr (hs ▸ holds_exprs.mp h)

mutual

theorem checkStmt_keeps (hresult : ∀ {H}, F.types.Holds H Γ.result) {H : Prop} :
    ∀ s : Source.Stmt, s.EachType U.declared → F.Keeps H F.stmts (checkStmt Γ s)
  | .assign location target value stated, h => by
    rw [checkStmt]
    refine statement_keeps ((annotatedValue_keeps h.1 h.2).bind fun _ typed ht => ?_)
    have bound : F.types.Holds _ (stated.getD typed.type) := ⟨ht.now.2, fun h => (ht.later h).2⟩
    refine (bind_keeps bound).bind fun lift _ _ => .pure ?_
    exact ⟨ht.now.1, fun h => (ht.later (lift h)).1⟩
  | .tupleAssign location targets value, h => by
    rw [checkStmt]
    refine statement_keeps ((targetTypes_keeps [] targets).bind fun _ types htypes => ?_)
    have expected := holds_tuple htypes
    refine (checkExpr_keeps (Aspect.holds_opt_some.mpr expected) .consume value h).bind
      fun lift typed ht => ?_
    refine (expect_keeps ht (expected.mono lift) location _).bind fun lift₁ _ _ => ?_
    refine (forM_keeps fun lift₂ p hp => bind_keeps ?_).bind fun lift₂ _ _ => .pure ?_
    · have mem := (List.of_mem_zip hp).2
      exact (Aspect.holds_each.mp htypes p.2 mem).mono fun h => lift (lift₁ (lift₂ h))
    · exact holds_stmt_of_expr (ht.mono fun h => lift₁ (lift₂ h)) rfl
  | .expr location value, h => by
    rw [checkStmt]
    exact statement_keeps ((checkExpr_keeps Aspect.holds_opt_none .consume value h).bind
      fun _ typed ht => .pure (holds_stmt_of_expr ht rfl))
  | .ret location (some value), h => by
    rw [checkStmt]
    refine statement_keeps ((checkExpr_keeps (Aspect.holds_opt_some.mpr hresult) .consume value
      (h _ rfl)).bind fun _ typed ht => ?_)
    refine (expect_keeps ht hresult location _).bind fun lift _ _ => ?_
    refine jump_keeps.bind fun lift₁ _ _ => .pure ?_
    exact holds_stmt_of_expr (ht.mono fun h => lift (lift₁ h)) rfl
  | .ret location none, _ => by
    rw [checkStmt]
    refine statement_keeps ((unifyAt_keeps hresult (holds_builtin rfl)).bind fun _ _ _ => ?_)
    exact jump_keeps.bind fun _ _ _ => .pure (holds_stmts.mpr nofun)
  | .branch location cond thenBody elseBody, h => by
    rw [checkStmt]
    refine statement_keeps ((condition_keeps h.1).bind fun _ cond hcond => ?_)
    refine Prospect.KeepsIf.get.bind fun lift before hbefore => ?_
    refine (branch_keeps (holds_env hbefore) fun _ => checkBlock_keeps hresult thenBody h.2.1).bind
      fun lift₁ first hfirst => ?_
    refine (branch_keeps ((holds_env hbefore).mono lift₁) fun _ =>
      checkBlock_keeps hresult elseBody h.2.2).bind fun lift₂ other hother => ?_
    have envs : F.envs.Holds _ first.2 := ⟨hfirst.now.2, fun h => (hfirst.later h).2⟩
    have envs' : F.envs.Holds _ other.2 := ⟨hother.now.2, fun h => (hother.later h).2⟩
    refine (merge_keeps (envs.mono lift₂) envs').bind fun lift₃ m hm => ?_
    refine (setEnv_keeps hm).bind fun lift₄ _ _ => .pure (holds_stmts.mpr ?_)
    refine List.forall_mem_append.mpr ⟨?_, List.forall_mem_append.mpr ⟨?_, ?_⟩⟩
    · exact holds_exprs.mp (hcond.mono fun h => lift (lift₁ (lift₂ (lift₃ (lift₄ h)))))
    · refine holds_stmts_each.mp ⟨hfirst.now.1, fun h => ?_⟩
      exact (hfirst.later (lift₂ (lift₃ (lift₄ h)))).1
    · exact holds_stmts_each.mp ⟨hother.now.1, fun h => (hother.later (lift₃ (lift₄ h))).1⟩
  | .whileLoop location cond body, h => by
    rw [checkStmt]
    refine statement_keeps ((condition_keeps h.1).bind fun _ cond hcond => ?_)
    refine (loop_keeps fun _ => checkBlock_keeps hresult body h.2).bind fun lift body hbody =>
      .pure (holds_stmts.mpr (List.forall_mem_append.mpr ⟨?_, holds_stmts_each.mp hbody⟩))
    exact holds_exprs.mp (hcond.mono lift)
  | .forLoop location loopVar iterable body, h => by
    rw [checkStmt]
    refine statement_keeps ((checkExpr_keeps Aspect.holds_opt_none .consume iterable h.1).bind
      fun _ iterable hi => ?_)
    refine (loopVarType_keeps hi loopVar).bind fun lift t ht => ?_
    refine Prospect.KeepsIf.get.bind fun lift₁ before hbefore => ?_
    refine (setBinding_keeps (ht.mono lift₁)).bind fun lift₂ _ _ => ?_
    refine (loop_keeps fun _ => checkBlock_keeps hresult body h.2).bind fun lift₃ body hbody => ?_
    refine Prospect.KeepsIf.get.bind fun lift₄ s hs => ?_
    have entry := (holds_env hbefore).mono fun h => lift₂ (lift₃ (lift₄ h))
    refine (merge_keeps entry (holds_env hs)).bind fun lift₅ m hm => ?_
    refine (setEnv_keeps hm).bind fun lift₆ _ _ => .pure (holds_stmts.mpr ?_)
    refine List.forall_mem_cons.mpr ⟨holds_part_type.mpr ?_, List.forall_mem_append.mpr ⟨?_, ?_⟩⟩
    · exact ht.mono fun h => lift₁ (lift₂ (lift₃ (lift₄ (lift₅ (lift₆ h)))))
    · exact holds_exprs.mp
        (hi.mono fun h => lift (lift₁ (lift₂ (lift₃ (lift₄ (lift₅ (lift₆ h)))))))
    · exact holds_stmts_each.mp (hbody.mono fun h => lift₄ (lift₅ (lift₆ h)))
  | .breakLoop location, _ => by
    rw [checkStmt]
    refine statement_keeps (Prospect.KeepsIf.get.bind fun _ s hs => ?_)
    refine (inLoop_keeps (fun _ => forall_mem_addBreak (P := U.Binds) hs.now.env)
      fun h _ => forall_mem_addBreak (P := F.Binds) (hs.later h).env).bind fun _ _ _ => ?_
    exact jump_keeps.bind fun _ _ _ => .pure (holds_stmts.mpr nofun)
  | .continueLoop location, _ => by
    rw [checkStmt]
    refine statement_keeps (Prospect.KeepsIf.get.bind fun _ s hs => ?_)
    refine (inLoop_keeps (fun _ => forall_mem_addContinue (P := U.Binds) hs.now.env)
      fun h _ => forall_mem_addContinue (P := F.Binds) (hs.later h).env).bind fun _ _ _ => ?_
    exact jump_keeps.bind fun _ _ _ => .pure (holds_stmts.mpr nofun)

theorem checkBlock_keeps (hresult : ∀ {H}, F.types.Holds H Γ.result) {H : Prop} :
    ∀ ss : List Source.Stmt, Source.Stmt.EachTypeAll U.declared ss →
      F.Keeps H F.stmts.each (checkBlock Γ ss)
  | [], _ => .pure Aspect.holds_each_nil
  | s :: ss, h => by
    refine (checkStmt_keeps hresult s h.1).bind fun _ typed ht => ?_
    exact (checkBlock_keeps hresult ss h.2).bind fun lift rest hrest =>
      .pure (Aspect.holds_each_cons.mpr ⟨ht.mono lift, hrest⟩)

end

theorem statement_calls {α : Type} {check : Check α} {a : α} (h : statement check s = .ok a s') :
    s'.calls = s.calls := by
  obtain ⟨s₁, s₂, -, -, rfl⟩ := statement_runs h
  rfl

theorem checkBlock_calls {ss : List Source.Stmt} {typed : List Typed.Stmt}
    (h : checkBlock Γ ss s = .ok typed s') : s'.calls = s.calls := by
  induction ss generalizing s typed with
  | nil =>
    obtain ⟨-, rfl⟩ := pure_eq_ok.mp h
    rfl
  | cons stmt ss ih =>
    obtain ⟨_, s₁, hstmt, h⟩ := bind_eq_ok.mp h
    obtain ⟨_, s₂, hrest, h⟩ := bind_eq_ok.mp h
    obtain ⟨-, rfl⟩ := pure_eq_ok.mp h
    have first : s₁.calls = s.calls := by
      cases stmt with
      | ret _ value => cases value <;> exact statement_calls hstmt
      | _ => exact statement_calls hstmt
    exact (ih hrest).trans first

end Statements

/-! ## Functions -/

section Functions

variable {T : SignatureTable} {owner : Option StructDecl} {f : Source.FunctionDef}
  {typed : Typed.Function} {memory memory' : CheckerMemory} {sig : Signature} {S : Substitution}

theorem Upkeep.part_subst {g : Generics} {U : Upkeep T g} (hS : U.Images S) {p : Part}
    (h : U.part p) : U.part (p.subst S) := by
  cases p with
  | type t => exact U.subst hS.types hS.nats h
  | nat n => exact natSubst hS h
  | natParam n => exact h
  | call location c =>
    intro hk
    obtain ⟨types, nats⟩ := h hk
    exact ⟨by rw [Typed.CallTarget.subst, types]; rfl, by rw [Typed.CallTarget.subst, nats]; rfl⟩

theorem Prospect.part_subst {g : Generics} {U : Upkeep T g} (F : Prospect U S) (hS : S.Refines S)
    (images : F.Images S) {p : Part} (h : F.part p) : F.part (p.subst S) := by
  cases p with
  | type t => exact F.subst hS images h
  | nat n => exact (NatTerm.groundIn_subst hS).mpr h
  | natParam n => trivial
  | call location c =>
    intro s hs hk x hx
    rw [show (c.subst S).typeArgs = c.typeArgs.map (Ty.subst S) from rfl, List.zip_map_right] at hx
    obtain ⟨y, hy, rfl⟩ := List.mem_map.mp hx
    have within := h s hs hk y hy
    rwa [← hS.subst] at within

theorem part_subst_subst (hS : S.Refines S) (p : Part) : (p.subst S).subst S = p.subst S := by
  cases p with
  | type t => rw [Part.subst, Part.subst, hS.subst]
  | nat n => rw [Part.subst, Part.subst, hS.subst_nat]
  | natParam n => rfl
  | call location c =>
    simp [Part.subst, Typed.CallTarget.subst, hS.subst, hS.subst_nat]

/-- Nothing is expected in the end. -/
def Prospect.vacuous {g : Generics} (U : Upkeep T g) (S : Substitution) : Prospect U S where
  type _ := True
  within _ _ := True
  declared _ := trivial
  prim := trivial
  undet := trivial
  tuple _ := trivial
  array _ := trivial
  component _ _ := trivial
  subst _ _ _ := trivial
  fnRef _ _ := trivial
  signature _ _ _ _ _ := ⟨fun _ _ => trivial, trivial⟩
  fields _ _ _ _ _ := trivial
  admitted _ _ _ _ _ := trivial

theorem holds_signature {U : Upkeep T sig.generics} {F : Prospect U S} {location : Location}
    {H : Prop} (signature : signatureOf owner f = .ok sig) (declared : f.EachType U.declared)
    (params : ∀ p ∈ sig.params, checkType T sig.generics location p.type = .ok ())
    (result : checkType T sig.generics location sig.result = .ok ()) :
    (∀ p ∈ sig.params, F.types.Holds H p.type) ∧ F.types.Holds H sig.result := by
  obtain ⟨hparams, hresult⟩ := signatureOf_eq_ok signature
  constructor
  · intro p hp
    have known := declared.params p (hparams ▸ hp)
    exact ⟨U.stated known (params p hp), fun _ => F.declared known⟩
  · cases hr : f.result with
    | none =>
      rw [hresult, hr]
      exact holds_builtin rfl
    | some t =>
      have known := declared.result t hr
      rw [hresult, hr] at result ⊢
      exact ⟨U.stated known result, fun _ => F.declared known⟩

/-- **All parts of a checked function have the property**, if the types that it declares and states
    do.  What holds only in the end holds under the substitution that is found in the end. -/
theorem checkFunction_keeps (signature : signatureOf owner f = .ok sig)
    (U : Upkeep T sig.generics) (declared : f.EachType U.declared) (memo : U.memo memory.memo)
    (h : checkFunction T owner f memory = .ok typed memory') :
    typed.generics = sig.generics ∧ U.memo memory'.memo ∧ (∀ p ∈ typed.parts, U.part p) ∧
      ∃ S, (∀ p ∈ typed.parts, p.subst S = p) ∧
        ∀ F : Prospect U S, ∀ p ∈ typed.parts, F.part p := by
  obtain ⟨checked, final, -, run⟩ := exists_checked signature h
  obtain ⟨-, params, result, body, ⟨generics, hparams, hresult⟩, -, rfl, rfl⟩ := run
  -- What holds of the parts before the substitution is put in.
  have kept : ∀ F : Prospect U final.subs, U.Ready final ∧ F.Fine final ∧
      ∀ p ∈ checked.parts, F.parts.Holds True p := by
    intro F
    obtain ⟨ofParams, ofResult⟩ : _ ∧ F.types.Holds True sig.result :=
      holds_signature signature declared params result
    have start : U.Ready { toCheckerMemory := memory, env := paramEnv sig.params } :=
      ⟨Substitution.solved_empty, ⟨nofun, nofun⟩,
        eachType_paramEnv fun p hp => (ofParams p hp).now, nofun, nofun, memo⟩
    have fine : F.Fine { toCheckerMemory := memory, env := paramEnv sig.params } :=
      ⟨nofun, eachType_paramEnv fun p hp => (ofParams p hp).later trivial, nofun⟩
    obtain ⟨ready, -, now, keeps⟩ := checkBlock_keeps (Γ := bodyScope T sig f.body) (F := F)
      (H := True) (fun {H} => ofResult.mono fun _ => trivial) f.body declared.body _ _ _ start body
    have ends : F.Ends final :=
      ⟨ready.solved.refines, checkBlock_calls body ▸ List.forall_mem_nil _⟩
    obtain ⟨fine', later⟩ := keeps ends trivial trivial fine
    refine ⟨ready, fine', ?_⟩
    rw [Typed.Function.parts, List.forall_mem_append, List.forall_mem_cons, List.forall_mem_map,
      hparams, hresult]
    exact ⟨fun p hp => holds_part_type.mpr (ofParams p hp), holds_part_type.mpr ofResult,
      holds_stmts_each.mp ⟨now, fun _ => later⟩⟩
  obtain ⟨ready, -, parts⟩ := kept (.vacuous U final.subs)
  refine ⟨generics, ready.memo, ?_, final.subs, ?_, fun F => ?_⟩
  all_goals
    rw [Typed.Function.parts_subst]
    refine List.forall_mem_map.mpr fun p hp => ?_
  · exact Upkeep.part_subst ready.images (parts p hp).now
  · exact part_subst_subst ready.solved.refines p
  · obtain ⟨-, fine, parts⟩ := kept F
    exact F.part_subst ready.solved.refines fine.images ((parts p hp).later trivial)

end Functions

end QuantumStatics.Elaboration
