/-
  Unification makes types equal.

  Each part of the algorithm, started in solved form, ends in solved form with a finer
  substitution, and makes its two arguments equal under it.  This holds however deep the
  recursion is allowed to go.
-/
import QuantumStatics.Proofs.Analysis
import QuantumStatics.Proofs.Unification.Solved

namespace QuantumStatics

open Substitution

/-- A finer substitution in solved form. -/
structure Substitution.Advances (S S' : Substitution) : Prop where
  solved : S'.Solved
  refines : S.Refines S'

namespace Substitution.Advances

variable {S S' S'' : Substitution}

theorem refl (h : S.Solved) : S.Advances S := ⟨h, h.refines⟩

theorem trans (h : S.Advances S') (h' : S'.Advances S'') : S.Advances S'' :=
  ⟨h'.solved, h.refines.trans h'.refines⟩

end Substitution.Advances

namespace Unifier

variable {S S' : Substitution} {stamp : Stamp} {n l r : NatTerm}

@[simp] theorem clash_ne_ok {α : Type} {c : Clash} {a : α} : clash c S ≠ .ok a S' := nofun

section

variable {α : Type} {c : Clash} {p : Prop} [Decidable p]

theorem unless_eq_ok : (if p then pure () else clash c) S = .ok () S' ↔ p ∧ S = S' := by
  by_cases hp : p <;> simp [hp]

theorem guard_eq_ok {f : PUnit → Unifier α} {a : α} :
    (if p then f ⟨⟩ else clash c >>= f) S = .ok a S' ↔ p ∧ f ⟨⟩ S = .ok a S' := by
  by_cases hp : p <;> simp [hp, bind_eq_ok]

end

theorem natPairs_eq_forM (ls rs : List NatTerm) :
    natPairs ls rs = (ls.zip rs).forM fun c => nats c.1 c.2 >>= fun _ => pure () := by
  induction ls generalizing rs with
  | nil => rfl
  | cons l ls ih =>
    cases rs with
    | nil => rfl
    | cons r rs => simp only [natPairs, ih, List.zip_cons_cons, List.forM, bind_assoc, pure_bind]

theorem pairs_eq_forM (go : Ty → Ty → Unifier Unit) (ls rs : List Ty) :
    pairs go ls rs = (ls.zip rs).forM fun c => go c.1 c.2 := by
  induction ls generalizing rs with
  | nil => rfl
  | cons l ls ih =>
    cases rs with
    | nil => rfl
    | cons r rs => rw [pairs, ih, List.zip_cons_cons, List.forM]

/-! ## Binding -/

section

variable {stamp k : Stamp} {t : Ty} {n : NatTerm}

@[simp] theorem types_ofType :
    (ofType stamp t).types.get? k = if k = stamp then some t else none := by
  simp [ofType, Dict.get?_insert]

@[simp] theorem nats_ofType : (ofType stamp t).nats.get? k = none := rfl

@[simp] theorem types_ofNat : (ofNat stamp n).types.get? k = none := rfl

@[simp] theorem nats_ofNat :
    (ofNat stamp n).nats.get? k = if k = stamp then some n else none := by
  simp [ofNat, Dict.get?_insert]

theorem then_bindType (hs : S.types.get? stamp = none) :
    S.Then (.ofType stamp t) (S.bindType stamp t) where
  types k := by
    simp only [Substitution.bindType, Dict.get?_insert, Dict.get?_map, types_ofType]
    by_cases hk : k = stamp
    · simp [hk, hs]
    · simp [hk, funext (apply_eq (ofType stamp t))]
  nats k := by
    have same : ∀ n : NatTerm, n.subst (.ofType stamp t) = n := fun n => by cases n <;> simp
    simp [Substitution.bindType, same]

theorem then_bindNat (hs : S.nats.get? stamp = none) :
    S.Then (.ofNat stamp n) (S.bindNat stamp n) where
  types k := by simp [Substitution.bindNat, funext (apply_eq (ofNat stamp n))]
  nats k := by
    simp only [Substitution.bindNat, Dict.get?_insert, Dict.get?_map, nats_ofNat]
    by_cases hk : k = stamp
    · simp [hk, hs]
    · simp [hk, funext fun m : NatTerm => show (ofNat stamp n).applyNat m = m.subst _ from rfl]

theorem apart_ofType (hS : S.Solved) (ht : ∀ v ∈ t.vars, ¬ S.Binds v)
    (fresh : .undetType stamp ∉ t.vars) : S.Apart (ofType stamp t) := by
  have mentioned : ∀ {v}, (ofType stamp t).Mentions v → v ∈ t.vars := by
    rintro v (⟨k, u, hu, hv⟩ | ⟨k, n, hn, -⟩)
    · obtain ⟨-, rfl⟩ : k = stamp ∧ t = u := by simpa using hu
      exact hv
    · simp at hn
  have unbound : ∀ v ∈ t.vars, ¬ (ofType stamp t).Binds v := by
    intro v hv
    cases v with
    | undetType k =>
      have : k ≠ stamp := fun hk => fresh (hk ▸ hv)
      simp [Binds, this]
    | type | nat | undetNat => simp [Binds]
  exact ⟨hS, ⟨fun hu v hv => unbound v (mentioned (.inl ⟨_, _, hu, hv⟩)), fun hn => by simp at hn⟩,
    fun hm => ht _ (mentioned hm)⟩

theorem apart_ofNat (hS : S.Solved) (hn : ∀ v ∈ n.vars, ¬ S.Binds v) (fresh : n ≠ .undet stamp) :
    S.Apart (ofNat stamp n) := by
  have mentioned : ∀ {v}, (ofNat stamp n).Mentions v → v ∈ n.vars := by
    rintro v (⟨k, u, hu, -⟩ | ⟨k, m, hm, hv⟩)
    · simp at hu
    · obtain ⟨-, rfl⟩ : k = stamp ∧ n = m := by simpa using hm
      exact hv
  have unbound : ∀ v ∈ n.vars, ¬ (ofNat stamp n).Binds v := by
    intro v hv
    cases n with
    | const => cases hv
    | var name =>
      cases List.mem_singleton.mp hv
      exact id
    | undet k =>
      cases List.mem_singleton.mp hv
      have : k ≠ stamp := fun hk => fresh (by rw [hk])
      simp [Binds, this]
  exact ⟨hS, ⟨fun hu => by simp at hu, fun hm v hv => unbound v (mentioned (.inr ⟨_, _, hm, hv⟩))⟩,
    fun hm => hn _ (mentioned hm)⟩

end

theorem bindType_eq_ok {t : Ty} (hS : S.Solved) (hs : S.types.get? stamp = none)
    (h : bindType stamp t S = .ok () S') :
    S.Advances S' ∧ (Ty.undet stamp).subst S' = t.subst S' := by
  obtain ⟨_, _, hget, h⟩ := bind_eq_ok.mp h
  obtain ⟨rfl, rfl⟩ := get_eq_ok.mp hget
  dsimp only at h
  rw [apply_eq] at h
  split at h
  · obtain ⟨_, _, h, -⟩ := bind_eq_ok.mp h
    exact absurd h clash_ne_ok
  · rename_i hm
    cases set_eq_ok.mp h
    have apart : S.Apart (ofType stamp (t.subst S)) :=
      apart_ofType hS (fun v => hS.not_binds) fun hv => hm (Ty.mentionsType_iff.mpr hv)
    have hthen : S.Then _ (S.bindType stamp (t.subst S)) := then_bindType hs
    refine ⟨⟨hthen.solved apart, hthen.refines hS⟩, ?_⟩
    have image : (Ty.undet stamp).subst (S.bindType stamp (t.subst S)) = t.subst S := by
      simp [hthen.types, hs]
    rw [image, hthen.subst, Ty.subst_eq_self fun v hv =>
      apart.later.not_mentions (.inl ⟨stamp, t.subst S, by simp, hv⟩)]

/-! ## Nats -/

theorem bindNat_eq_ok (hS : S.Solved) (hs : S.nats.get? stamp = none)
    (h : bindNat stamp n S = .ok () S') :
    S.Advances S' ∧ (NatTerm.undet stamp).subst S' = n.subst S' := by
  obtain ⟨_, _, hget, h⟩ := bind_eq_ok.mp h
  obtain ⟨rfl, rfl⟩ := get_eq_ok.mp hget
  change (if n.subst S = .undet stamp then pure () else set (S.bindNat stamp (n.subst S)) :
    Unifier Unit) S = _ at h
  split at h
  · rename_i hn
    obtain ⟨-, rfl⟩ := pure_eq_ok.mp h
    exact ⟨.refl hS, by simp [hn, hs]⟩
  · rename_i hn
    cases set_eq_ok.mp h
    have apart : S.Apart (ofNat stamp (n.subst S)) := apart_ofNat hS (fun v => hS.not_binds_nat) hn
    have hthen : S.Then _ (S.bindNat stamp (n.subst S)) := then_bindNat hs
    refine ⟨⟨hthen.solved apart, hthen.refines hS⟩, ?_⟩
    have image : (NatTerm.undet stamp).subst (S.bindNat stamp (n.subst S)) = n.subst S := by
      simp [hthen.nats, hs]
    rw [image, hthen.subst_nat, NatTerm.subst_eq_self fun v hv =>
      apart.later.not_mentions (.inr ⟨stamp, n.subst S, by simp, hv⟩)]

theorem bindNat_subst_eq_ok (hS : S.Solved) (hl : l.subst S = .undet stamp)
    (h : bindNat stamp (r.subst S) S = .ok () S') : S.Advances S' ∧ l.subst S' = r.subst S' := by
  have unbound : ¬ S.Binds (.undetNat stamp) :=
    hS.not_binds_nat (n := l) (by simp [hl, NatTerm.vars])
  obtain ⟨adv, he⟩ := bindNat_eq_ok hS (by simpa [Binds] using unbound) h
  rw [← hl, adv.refines.subst_nat, adv.refines.subst_nat] at he
  exact ⟨adv, he⟩

theorem nats_eq_ok (hS : S.Solved) (h : nats l r S = .ok n S') :
    S.Advances S' ∧ l.subst S' = r.subst S' := by
  obtain ⟨_, _, hget, h⟩ := bind_eq_ok.mp h
  obtain ⟨rfl, rfl⟩ := get_eq_ok.mp hget
  simp only [applyNat_eq] at h
  split at h
  · rename_i he
    obtain ⟨-, rfl⟩ := pure_eq_ok.mp h
    exact ⟨.refl hS, he⟩
  · have side : ∀ {l r : NatTerm} {stamp : Stamp}, l.subst S = .undet stamp →
        (bindNat stamp (r.subst S) >>= fun _ => pure (r.subst S) : Unifier NatTerm) S = .ok n S' →
        S.Advances S' ∧ l.subst S' = r.subst S' := by
      intro l r stamp hl h
      obtain ⟨_, _, hb, h⟩ := bind_eq_ok.mp h
      obtain ⟨-, rfl⟩ := pure_eq_ok.mp h
      exact bindNat_subst_eq_ok hS hl hb
    cases hl : l.subst S with
    | undet stamp =>
      rw [hl] at h
      exact side hl h
    | const | var =>
      cases hr : r.subst S with
      | undet stamp =>
        refine (side hr (r := l) ?_).imp_right Eq.symm
        rw [hl, hr] at h
        rwa [hl]
      | const | var =>
        rw [hl, hr] at h
        exact absurd h clash_ne_ok

theorem natPairs_eq_ok {ls rs : List NatTerm} (hl : ls.length = rs.length) (hS : S.Solved)
    (h : natPairs ls rs S = .ok () S') :
    S.Advances S' ∧ ls.map (NatTerm.subst S') = rs.map (NatTerm.subst S') := by
  induction ls generalizing rs S with
  | nil =>
    obtain rfl := List.length_eq_zero_iff.mp hl.symm
    obtain ⟨-, rfl⟩ := pure_eq_ok.mp h
    exact ⟨.refl hS, rfl⟩
  | cons l ls ih =>
    obtain ⟨r, rs, rfl⟩ := List.exists_cons_of_length_eq_add_one hl.symm
    obtain ⟨n, S₁, hn, h⟩ := bind_eq_ok.mp h
    obtain ⟨adv, he⟩ := nats_eq_ok hS hn
    obtain ⟨adv', hes⟩ := ih (by simpa using hl) adv.solved h
    refine ⟨adv.trans adv', ?_⟩
    rw [List.map_cons, List.map_cons, hes, ← adv'.refines.subst_nat l, he,
      adv'.refines.subst_nat r]

/-! ## Types -/

/-- A computation makes two types equal, from every substitution in solved form. -/
def MakesEqual (x : Unifier Unit) (l r : Ty) : Prop :=
  ∀ {S S'}, S.Solved → x S = .ok () S' → S.Advances S' ∧ (l.subst S').equal (r.subst S')

section

variable {go : Ty → Ty → Unifier Unit} (hgo : ∀ l r, MakesEqual (go l r) l r)

include hgo

theorem pairs_eq_ok {ls rs : List Ty} (hl : ls.length = rs.length) (hS : S.Solved)
    (h : pairs go ls rs S = .ok () S') :
    S.Advances S' ∧ Ty.equalAll (ls.map (Ty.subst S')) (rs.map (Ty.subst S')) := by
  induction ls generalizing rs S with
  | nil =>
    obtain rfl := List.length_eq_zero_iff.mp hl.symm
    obtain ⟨-, rfl⟩ := pure_eq_ok.mp h
    exact ⟨.refl hS, rfl⟩
  | cons l ls ih =>
    obtain ⟨r, rs, rfl⟩ := List.exists_cons_of_length_eq_add_one hl.symm
    obtain ⟨_, S₁, ht, h⟩ := bind_eq_ok.mp h
    obtain ⟨adv, he⟩ := hgo l r hS ht
    obtain ⟨adv', hes⟩ := ih (by simpa using hl) adv.solved h
    refine ⟨adv.trans adv', ?_⟩
    rw [List.map_cons, List.map_cons, Ty.equalAll, adv'.refines.equal he, hes]
    rfl

theorem params_eq_ok {ls rs : List ParamType} {position : Nat} (hl : ls.length = rs.length)
    (hS : S.Solved) (h : params go position ls rs S = .ok () S') :
    S.Advances S' ∧ Ty.equalParams (ls.map (ParamType.subst S')) (rs.map (ParamType.subst S')) := by
  induction ls generalizing rs S position with
  | nil =>
    obtain rfl := List.length_eq_zero_iff.mp hl.symm
    obtain ⟨-, rfl⟩ := pure_eq_ok.mp h
    exact ⟨.refl hS, rfl⟩
  | cons l ls ih =>
    obtain ⟨r, rs, rfl⟩ := List.exists_cons_of_length_eq_add_one hl.symm
    rw [params] at h
    split at h
    · rename_i ho
      obtain ⟨_, S₁, ht, h⟩ := bind_eq_ok.mp h
      obtain ⟨adv, he⟩ := hgo l.type r.type hS ht
      obtain ⟨adv', hes⟩ := ih (by simpa using hl) adv.solved h
      refine ⟨adv.trans adv', ?_⟩
      rw [List.map_cons, List.map_cons, ParamType.subst, ParamType.subst, Ty.equalParams,
        adv'.refines.equal he, hes]
      simp [ho]
    · obtain ⟨_, _, h, -⟩ := bind_eq_ok.mp h
      exact absurd h clash_ne_ok

omit hgo in
theorem bindType_makesEqual {stamp : Stamp} {t : Ty} (hS : S.Solved)
    (hs : ¬ S.Binds (.undetType stamp)) (h : bindType stamp t S = .ok () S') :
    S.Advances S' ∧ ((Ty.undet stamp).subst S').equal (t.subst S') := by
  obtain ⟨adv, he⟩ := bindType_eq_ok hS (by simpa [Binds] using hs) h
  exact ⟨adv, he ▸ Ty.equal_refl _⟩

/-- **Types that the substitution has been applied to are made equal**, if their components
    are. -/
theorem shapes_eq_ok {l r : Ty} (hS : S.Solved) (hl : ∀ v ∈ l.vars, ¬ S.Binds v)
    (hr : ∀ v ∈ r.vars, ¬ S.Binds v) (h : shapes go l r S = .ok () S') :
    S.Advances S' ∧ (l.subst S').equal (r.subst S') := by
  have undetRight : ∀ {k : Stamp}, r = .undet k → bindType k l S = .ok () S' →
      S.Advances S' ∧ (l.subst S').equal (r.subst S') := by
    rintro k rfl h
    exact (bindType_makesEqual hS (hr _ (List.mem_singleton_self _)) h).imp_right Ty.equal_symm
  cases l with
  | undet k =>
    have unbound : ¬ S.Binds (.undetType k) := hl _ (List.mem_singleton_self _)
    cases r with
    | undet k' =>
      rw [shapes] at h
      split at h
      · rename_i hk
        obtain ⟨-, rfl⟩ := pure_eq_ok.mp h
        exact ⟨.refl hS, hk ▸ Ty.equal_refl _⟩
      · exact bindType_makesEqual hS unbound h
    | _ => exact bindType_makesEqual hS unbound h
  | prim name cls =>
    cases r with
    | prim name' cls' =>
      obtain ⟨hn, rfl⟩ := unless_eq_ok.mp h
      exact ⟨.refl hS, by simp [Ty.equal, hn]⟩
    | undet k' => exact undetRight rfl h
    | _ => exact absurd h clash_ne_ok
  | var p =>
    cases r with
    | var p' =>
      obtain ⟨hn, rfl⟩ := unless_eq_ok.mp h
      exact ⟨.refl hS, by simp [Ty.equal, hn]⟩
    | undet k' => exact undetRight rfl h
    | _ => exact absurd h clash_ne_ok
  | tuple ls =>
    cases r with
    | tuple rs =>
      obtain ⟨hlen, h⟩ := guard_eq_ok.mp h
      obtain ⟨adv, he⟩ := pairs_eq_ok hgo hlen hS h
      exact ⟨adv, by simpa [Ty.equal] using he⟩
    | undet k' => exact undetRight rfl h
    | _ => exact absurd h clash_ne_ok
  | array l n =>
    cases r with
    | array r n' =>
      obtain ⟨_, S₁, ht, h⟩ := bind_eq_ok.mp h
      obtain ⟨_, S₂, hn, h⟩ := bind_eq_ok.mp h
      obtain ⟨-, rfl⟩ := pure_eq_ok.mp h
      obtain ⟨adv, he⟩ := hgo l r hS ht
      obtain ⟨adv', hen⟩ := nats_eq_ok adv.solved hn
      exact ⟨adv.trans adv', by simp [Ty.equal, hen, adv'.refines.equal he]⟩
    | undet k' => exact undetRight rfl h
    | _ => exact absurd h clash_ne_ok
  | struct d ls ns =>
    cases r with
    | struct d' rs ns' =>
      obtain ⟨hd, h⟩ := guard_eq_ok.mp h
      obtain ⟨hlen, h⟩ := guard_eq_ok.mp h
      obtain ⟨_, S₁, ht, h⟩ := bind_eq_ok.mp h
      obtain ⟨hlen', h⟩ := guard_eq_ok.mp h
      obtain ⟨adv, he⟩ := pairs_eq_ok hgo hlen hS ht
      obtain ⟨adv', hen⟩ := natPairs_eq_ok hlen' adv.solved h
      have he' : ((Ty.tuple ls).subst S').equal ((Ty.tuple rs).subst S') :=
        adv'.refines.equal (by simpa [Ty.equal] using he)
      exact ⟨adv.trans adv', by simpa [Ty.equal, hd, hen] using he'⟩
    | undet k' => exact undetRight rfl h
    | _ => exact absurd h clash_ne_ok
  | fn ls l g =>
    cases r with
    | fn rs r g' =>
      obtain ⟨hlen, h⟩ := guard_eq_ok.mp h
      obtain ⟨hg, h⟩ := guard_eq_ok.mp h
      obtain ⟨_, S₁, ht, h⟩ := bind_eq_ok.mp h
      obtain ⟨adv, he⟩ := params_eq_ok hgo hlen hS ht
      obtain ⟨adv', her⟩ := hgo l r adv.solved h
      have he' : ((Ty.fn ls .none g).subst S').equal ((Ty.fn rs .none g).subst S') :=
        adv'.refines.equal (by simpa [Ty.equal, Ty.none] using he)
      exact ⟨adv.trans adv', by simpa [Ty.equal, Ty.none, hg, her] using he'⟩
    | undet k' => exact undetRight rfl h
    | _ => exact absurd h clash_ne_ok
  | option l =>
    cases r with
    | option r =>
      obtain ⟨adv, he⟩ := hgo l r hS h
      exact ⟨adv, by simpa [Ty.equal] using he⟩
    | undet k' => exact undetRight rfl h
    | _ => exact absurd h clash_ne_ok

end

theorem types_makesEqual (depth : Nat) (l r : Ty) : MakesEqual (types depth l r) l r := by
  induction depth generalizing l r with
  | zero => exact fun _ h => absurd h clash_ne_ok
  | succ depth ih =>
    intro S S' hS h
    rw [types] at h
    dsimp only at h
    split at h
    · rename_i S₁ hs
      cases h
      simp only [apply_eq] at hs
      obtain ⟨adv, he⟩ := shapes_eq_ok ih hS (fun v => hS.not_binds) (fun v => hS.not_binds) hs
      rw [adv.refines.subst, adv.refines.subst] at he
      exact ⟨adv, he⟩
    · cases h

end Unifier

/-- **Unification makes two types equal**, and returns what has become of them. -/
theorem unify_eq_ok {l r t : Ty} {S S' : Substitution} (hS : S.Solved)
    (h : unify l r S = .ok t S') :
    S.Advances S' ∧ (l.subst S').equal (r.subst S') ∧ t = l.subst S' := by
  obtain ⟨_, _, hget, h⟩ := bind_eq_ok.mp h
  obtain ⟨rfl, rfl⟩ := get_eq_ok.mp hget
  obtain ⟨_, S₁, ht, h⟩ := bind_eq_ok.mp h
  obtain ⟨_, _, hget, h⟩ := bind_eq_ok.mp h
  obtain ⟨rfl, rfl⟩ := get_eq_ok.mp hget
  obtain ⟨rfl, rfl⟩ := pure_eq_ok.mp h
  obtain ⟨adv, he⟩ := Unifier.types_makesEqual _ l r hS ht
  exact ⟨adv, he, by rw [apply_eq, apply_eq, adv.refines.subst]⟩

end QuantumStatics
