/-
  What holds along every run of the unifier, whether it succeeds or fails.

  The unifier takes pairs of types apart and binds one stamp after another.  A `PairInvariant` is
  something that holds of the pairs under the substitution found so far: it goes from a pair to
  the pairs of components, and a new binding keeps it.
-/
import QuantumStatics.Proofs.Unification.Sound

namespace QuantumStatics

open Substitution

/-! ## Sizes -/

namespace Ty

mutual

theorem size_skeleton : (t : Ty) → t.skeleton.size = t.size
  | .prim _ _ | .var _ | .undet _ => rfl
  | .tuple elems => by rw [skeleton, size, size, sizeAll_skeleton elems]
  | .array elem _ => by rw [skeleton, size, size, size_skeleton elem]
  | .struct _ typeArgs _ => by rw [skeleton, size, size, sizeAll_skeleton typeArgs]
  | .fn params result _ => by
    rw [skeleton, size, size, size_skeleton result, sizeParams_skeleton params]
  | .option inner => by rw [skeleton, size, size, size_skeleton inner]

theorem sizeAll_skeleton : (ts : List Ty) → sizeAll (skeletonAll ts) = sizeAll ts
  | [] => rfl
  | t :: ts => by rw [skeletonAll, sizeAll, sizeAll, size_skeleton t, sizeAll_skeleton ts]

theorem sizeParams_skeleton : (ps : List ParamType) →
    sizeParams (skeletonParams ps) = sizeParams ps
  | [] => rfl
  | ⟨t, _⟩ :: ps => by
    rw [skeletonParams, sizeParams, sizeParams, size_skeleton t, sizeParams_skeleton ps]

end

theorem size_eq_of_equal {l r : Ty} (h : l.equal r) : l.size = r.size := by
  rw [← size_skeleton l, (equal_iff l r).mp h, size_skeleton]

theorem size_le_sizeAll {t : Ty} {ts : List Ty} (h : t ∈ ts) : t.size ≤ sizeAll ts := by
  induction h with
  | head => simp [sizeAll]
  | tail _ _ ih => simp only [sizeAll]; omega

@[simp] theorem sizeParams_cons (p : ParamType) (ps : List ParamType) :
    sizeParams (p :: ps) = p.type.size + sizeParams ps := by
  cases p; rfl

theorem size_le_sizeParams {p : ParamType} {ps : List ParamType} (h : p ∈ ps) :
    p.type.size ≤ sizeParams ps := by
  induction h with
  | head => simp
  | tail _ _ ih => rw [sizeParams_cons]; omega

theorem eq_or_size_subst_lt (θ : Substitution) {stamp : Stamp} {t : Ty}
    (h : .undetType stamp ∈ t.vars) :
    t = .undet stamp ∨ ((undet stamp).subst θ).size < (t.subst θ).size := by
  have le : ∀ {t : Ty}, t = .undet stamp ∨ ((undet stamp).subst θ).size < (t.subst θ).size →
      ((undet stamp).subst θ).size ≤ (t.subst θ).size := by
    rintro t (rfl | h)
    · exact Nat.le_refl _
    · exact Nat.le_of_lt h
  have natVars : ∀ n : NatTerm, .undetType stamp ∉ n.vars := fun n => by
    cases n <;> simp [NatTerm.vars]
  induction t with
  | prim | var => simp [vars] at h
  | undet k =>
    obtain rfl : stamp = k := by simpa [vars] using h
    exact .inl rfl
  | tuple elems ih =>
    simp only [vars, varsAll_eq, List.mem_flatMap] at h
    obtain ⟨t, ht, h⟩ := h
    have part := size_le_sizeAll (List.mem_map_of_mem (f := subst θ) ht)
    have := le (ih t ht h)
    rw [subst_tuple, size]
    exact .inr (by omega)
  | array elem length ih =>
    have := le (ih (by simpa [vars, natVars] using h))
    rw [subst_array, size]
    exact .inr (by omega)
  | struct decl typeArgs natArgs ih =>
    simp only [vars, varsAll_eq, List.mem_append, List.mem_flatMap, natVars, and_false,
      exists_false, or_false] at h
    obtain ⟨t, ht, h⟩ := h
    have part := size_le_sizeAll (List.mem_map_of_mem (f := subst θ) ht)
    have := le (ih t ht h)
    rw [subst_struct, size]
    exact .inr (by omega)
  | fn params result generics ihp ihr =>
    simp only [vars, varsParams_eq, List.mem_filter, List.mem_append, List.mem_flatMap] at h
    rw [subst_fn, size]
    rcases h.1 with ⟨p, hp, h⟩ | h
    · have part : (p.type.subst θ).size ≤ sizeParams (params.map (ParamType.subst θ)) :=
        size_le_sizeParams (List.mem_map_of_mem (f := ParamType.subst θ) hp)
      have := le (ihp p hp h)
      exact .inr (by omega)
    · have := le (ihr h)
      exact .inr (by omega)
  | option inner ih =>
    have := le (ih (by simpa [vars] using h))
    rw [subst_option, size]
    exact .inr (by omega)

end Ty

/-- **No substitution makes an undetermined type equal to a type that it is a proper part of.** -/
theorem Substitution.not_equates_of_mem_vars {stamp : Stamp} {t : Ty}
    (h : .undetType stamp ∈ t.vars) (ht : t ≠ .undet stamp) (θ : Substitution) :
    ¬ θ.equates (.undet stamp) t := by
  intro he
  rw [equates, apply_eq, apply_eq] at he
  have hlt := (Ty.eq_or_size_subst_lt θ h).resolve_left ht
  have := Ty.size_eq_of_equal he
  omega

/-! ## What a substitution makes equal -/

theorem map_eq_map_iff_zip {α β γ : Type} {f : α → γ} {g : β → γ} {ls : List α} {rs : List β} :
    ls.map f = rs.map g ↔ ls.length = rs.length ∧ ∀ p ∈ ls.zip rs, f p.1 = g p.2 := by
  induction ls generalizing rs with
  | nil => cases rs <;> simp
  | cons l ls ih =>
    cases rs with
    | nil => simp
    | cons r rs =>
      simp only [List.map_cons, List.cons.injEq, ih, List.length_cons, Nat.add_right_cancel_iff,
        List.zip_cons_cons, List.forall_mem_cons]
      exact and_left_comm

section

variable {θ : Substitution} {l r : Ty} {ls rs : List Ty}

theorem equates_iff : θ.equates l r ↔ (l.subst θ).skeleton = (r.subst θ).skeleton := by
  rw [equates, apply_eq, apply_eq, Ty.equal_iff]

theorem equates_tuple :
    θ.equates (.tuple ls) (.tuple rs) ↔
      ls.length = rs.length ∧ ∀ p ∈ ls.zip rs, θ.equates p.1 p.2 := by
  simp [equates_iff, Ty.skeleton, map_eq_map_iff_zip]

theorem equates_array {n m : NatTerm} :
    θ.equates (.array l n) (.array r m) ↔ θ.equates l r ∧ n.subst θ = m.subst θ := by
  simp [equates_iff, Ty.skeleton]

theorem equates_struct {ld rd : StructDecl} {ns ms : List NatTerm} :
    θ.equates (.struct ld ls ns) (.struct rd rs ms) ↔ ld.name = rd.name ∧
      (ls.length = rs.length ∧ ∀ p ∈ ls.zip rs, θ.equates p.1 p.2) ∧
      (ns.length = ms.length ∧ ∀ p ∈ ns.zip ms, p.1.subst θ = p.2.subst θ) := by
  simp [equates_iff, Ty.skeleton, map_eq_map_iff_zip]

theorem equates_fn {ls rs : List ParamType} {lg rg : Generics} :
    θ.equates (.fn ls l lg) (.fn rs r rg) ↔
      (ls.length = rs.length ∧
        ∀ p ∈ ls.zip rs, θ.equates p.1.type p.2.type ∧ p.1.ownership = p.2.ownership) ∧
      θ.equates l r ∧ lg = rg := by
  simp [equates_iff, Ty.skeleton, map_eq_map_iff_zip, Ty.skeletonParam, ParamType.subst]

theorem equates_option : θ.equates (.option l) (.option r) ↔ θ.equates l r := by
  simp [equates_iff, Ty.skeleton]

end

/-! ## Invariants of pairs -/

/-- Something that holds of the pairs of types that are to be made equal, given the depth that is
    left, and of the pairs of nats, under the substitution found so far. -/
structure PairInvariant where
  types : Nat → Substitution → Ty → Ty → Prop
  nats : Substitution → NatTerm → NatTerm → Prop
  symm {d S l r} : types d S l r → types d S r l
  natSymm {S n m} : nats S n m → nats S m n
  -- The substitution may be applied to a pair.
  subst {d S l r} : S.Solved → types d S l r → types d S (l.subst S) (r.subst S)
  natSubst {S n m} : S.Solved → nats S n m → nats S (n.subst S) (m.subst S)
  -- The components of a pair are reached with less depth left.
  tuple {d S ls rs} : types (d + 1) S (.tuple ls) (.tuple rs) →
    ∀ p ∈ ls.zip rs, types d S p.1 p.2
  array {d S l r n m} : types (d + 1) S (.array l n) (.array r m) → types d S l r ∧ nats S n m
  struct {d S ld ls ns rd rs ms} : types (d + 1) S (.struct ld ls ns) (.struct rd rs ms) →
    (∀ p ∈ ls.zip rs, types d S p.1 p.2) ∧ ∀ p ∈ ns.zip ms, nats S p.1 p.2
  fn {d S ls l rs r g} : types (d + 1) S (.fn ls l g) (.fn rs r g) →
    (∀ p ∈ ls.zip rs, types d S p.1.type p.2.type) ∧ types d S l r
  option {d S l r} : types (d + 1) S (.option l) (.option r) → types d S l r
  -- A new binding keeps what holds.
  bindType {d S S' k t} : S.types.get? k = none → S.Apart (.ofType k t) →
    S.Then (.ofType k t) S' → types d S (.undet k) t →
    (∀ {d l r}, types d S l r → types d S' l r) ∧ ∀ {n m}, nats S n m → nats S' n m
  bindNat {S S' k n} : S.nats.get? k = none → S.Apart (.ofNat k n) →
    S.Then (.ofNat k n) S' → nats S (.undet k) n →
    (∀ {d l r}, types d S l r → types d S' l r) ∧ ∀ {n m}, nats S n m → nats S' n m

namespace PairInvariant

variable (I : PairInvariant)

/-- What holds under the first substitution holds under the second, which is in solved form. -/
structure Keeps (S S' : Substitution) : Prop where
  solved : S'.Solved
  types {d l r} : I.types d S l r → I.types d S' l r
  nats {n m} : I.nats S n m → I.nats S' n m

/-- The invariant holds of a pair that no substitution makes the same. -/
def Refuted : Prop :=
  (∃ d S l r, I.types d S l r ∧ ∀ θ : Substitution, ¬ θ.equates l r) ∨
    ∃ S n m, I.nats S n m ∧ ∀ θ : Substitution, n.subst θ ≠ m.subst θ

/-- The cause of a clash: the invariant holds of a pair that is reached with no depth left, or of
    one that no substitution makes the same. -/
def Explains (c : Clash) : Prop :=
  (c = .endless ∧ ∃ S l r, I.types 0 S l r) ∨ (c ≠ .endless ∧ I.Refuted)

/-- However a computation ends, it keeps the invariant; and if it fails, then for a cause. -/
structure Ends {α : Type} (x : Unifier α) (S : Substitution) : Prop where
  ok {a S'} : x S = .ok a S' → I.Keeps S S'
  error {e S'} : x S = .error e S' → I.Keeps S S' ∧ I.Explains e.clash

variable {I} {α β : Type} {S S' S'' : Substitution} {d : Nat} {l r : Ty}

theorem Keeps.refl (hS : S.Solved) : I.Keeps S S := ⟨hS, id, id⟩

theorem Keeps.trans (h : I.Keeps S S') (h' : I.Keeps S' S'') : I.Keeps S S'' :=
  ⟨h'.solved, h'.types ∘ h.types, h'.nats ∘ h.nats⟩

namespace Ends

theorem pure (hS : S.Solved) (a : α) : I.Ends (pure a) S where
  ok h := by
    obtain ⟨-, rfl⟩ := pure_eq_ok.mp h
    exact .refl hS
  error h := nomatch h

theorem get {f : Substitution → Unifier α} (h : I.Ends (f S) S) : I.Ends (get >>= f) S :=
  ⟨h.ok, h.error⟩

theorem set (h : I.Keeps S S') : I.Ends (set S') S where
  ok h' := by
    cases set_eq_ok.mp h'
    exact h
  error h := nomatch h

theorem bind {x : Unifier α} {f : α → Unifier β} (hx : I.Ends x S)
    (hf : ∀ a S', I.Keeps S S' → I.Ends (f a) S') : I.Ends (x >>= f) S where
  ok h := by
    obtain ⟨a, S₁, ha, h⟩ := bind_eq_ok.mp h
    have kept := hx.ok ha
    exact kept.trans ((hf a S₁ kept).ok h)
  error {e S'} h := by
    change EStateM.bind x f S = _ at h
    unfold EStateM.bind at h
    cases ha : x S with
    | ok a S₁ =>
      rw [ha] at h
      have kept := hx.ok ha
      obtain ⟨kept', why⟩ := (hf a S₁ kept).error h
      exact ⟨kept.trans kept', why⟩
    | error e' S₁ =>
      rw [ha] at h
      cases h
      exact hx.error ha

theorem forM {f : α → Unifier PUnit} {as : List α} (hS : S.Solved)
    (h : ∀ a ∈ as, ∀ S', I.Keeps S S' → I.Ends (f a) S') : I.Ends (as.forM f) S := by
  induction as generalizing S with
  | nil => exact .pure hS ()
  | cons a as ih =>
    rw [List.forall_mem_cons] at h
    refine (h.1 S (.refl hS)).bind fun _ S' kept => ?_
    exact ih kept.solved fun a ha S'' kept' => h.2 a ha S'' (kept.trans kept')

theorem clash {c : Clash} (hS : S.Solved) (hc : c ≠ .endless) (h : I.Refuted) :
    I.Ends (Unifier.clash c : Unifier α) S where
  ok h := nomatch h
  error h := by
    cases h
    exact ⟨.refl hS, .inr ⟨hc, h⟩⟩

section

variable {p : Prop} [Decidable p] {c : Clash}

theorem check (hS : S.Solved) (hc : c ≠ .endless) (h : ¬ p → I.Refuted) :
    I.Ends (if p then Pure.pure () else Unifier.clash c) S := by
  by_cases hp : p
  · rw [if_pos hp]
    exact .pure hS ()
  · rw [if_neg hp]
    exact .clash hS hc (h hp)

theorem guard {f : PUnit → Unifier α} (hS : S.Solved) (hc : c ≠ .endless) (h : ¬ p → I.Refuted)
    (hf : p → I.Ends (f ⟨⟩) S) : I.Ends (if p then f ⟨⟩ else Unifier.clash c >>= f) S := by
  by_cases hp : p
  · rw [if_pos hp]
    exact hf hp
  · rw [if_neg hp]
    exact clash hS hc (h hp)

end

end Ends

/-! ## Runs -/

theorem refuted_of_types (h : I.types d S l r) (hne : ∀ θ : Substitution, ¬ θ.equates l r) :
    I.Refuted :=
  .inl ⟨d, S, l, r, h, hne⟩

theorem refuted_of_nats {n m : NatTerm} (h : I.nats S n m)
    (hne : ∀ θ : Substitution, n.subst θ ≠ m.subst θ) : I.Refuted :=
  .inr ⟨S, n, m, h, hne⟩

theorem bindType_ends {k : Stamp} {t : Ty} (hS : S.Solved) (hk : ¬ S.Binds (.undetType k))
    (hv : ∀ v ∈ t.vars, ¬ S.Binds v) (ht : t ≠ .undet k) (h : I.types d S (.undet k) t) :
    I.Ends (Unifier.bindType k t) S := by
  have unbound : S.types.get? k = none := by simpa [Binds] using hk
  refine .get ?_
  dsimp only
  rw [apply_eq, Ty.subst_eq_self hv]
  split
  · rename_i hm
    exact .clash hS (by simp)
      (refuted_of_types h (not_equates_of_mem_vars (Ty.mentionsType_iff.mp hm) ht))
  · rename_i hm
    have apart := Unifier.apart_ofType hS hv fun hk => hm (Ty.mentionsType_iff.mpr hk)
    have hthen : S.Then (.ofType k t) (S.bindType k t) := Unifier.then_bindType unbound
    obtain ⟨types, nats⟩ := I.bindType unbound apart hthen h
    exact .set ⟨hthen.solved apart, types, nats⟩

theorem bindNat_ends {k : Stamp} {n : NatTerm} (hS : S.Solved)
    (hk : ¬ S.Binds (.undetNat k)) (hv : ∀ v ∈ n.vars, ¬ S.Binds v) (hn : n ≠ .undet k)
    (h : I.nats S (.undet k) n) : I.Ends (Unifier.bindNat k n) S := by
  have unbound : S.nats.get? k = none := by simpa [Binds] using hk
  refine .get ?_
  dsimp only
  rw [applyNat_eq, NatTerm.subst_eq_self hv, if_neg hn]
  have apart := Unifier.apart_ofNat hS hv hn
  have hthen : S.Then (.ofNat k n) (S.bindNat k n) := Unifier.then_bindNat unbound
  obtain ⟨types, nats⟩ := I.bindNat unbound apart hthen h
  exact .set ⟨hthen.solved apart, types, nats⟩

/-- **However unifying two nats ends**, the invariant is kept. -/
theorem nats_ends {l r : NatTerm} (hS : S.Solved) (h : I.nats S l r) :
    I.Ends (Unifier.nats l r) S := by
  refine .get ?_
  dsimp only
  rw [applyNat_eq, applyNat_eq]
  have applied := I.natSubst hS h
  have hl : ∀ v ∈ (l.subst S).vars, ¬ S.Binds v := fun v => hS.not_binds_nat
  have hr : ∀ v ∈ (r.subst S).vars, ¬ S.Binds v := fun v => hS.not_binds_nat
  generalize l.subst S = l at applied hl ⊢
  generalize r.subst S = r at applied hr ⊢
  split
  · exact .pure hS _
  · rename_i hne
    cases l with
    | undet k =>
      have bound := bindNat_ends hS (hl _ (List.mem_singleton_self _)) hr (Ne.symm hne) applied
      exact bound.bind fun _ S' kept => .pure kept.solved _
    | const | var =>
      cases r with
      | undet k =>
        have bound := bindNat_ends hS (hr _ (List.mem_singleton_self _)) hl hne (I.natSymm applied)
        exact bound.bind fun _ S' kept => .pure kept.solved _
      | const | var => exact .clash hS nofun (refuted_of_nats applied fun _ => hne)

theorem natPairs_ends {ls rs : List NatTerm} (hS : S.Solved)
    (h : ∀ p ∈ ls.zip rs, I.nats S p.1 p.2) : I.Ends (Unifier.natPairs ls rs) S := by
  rw [Unifier.natPairs_eq_forM]
  refine .forM hS fun p hp S' kept => ?_
  exact (nats_ends kept.solved (kept.nats (h p hp))).bind fun _ _ kept' => .pure kept'.solved ()

section

variable {d : Nat} {go : Ty → Ty → Unifier Unit}
  (hgo : ∀ {S l r}, S.Solved → I.types d S l r → I.Ends (go l r) S)

include hgo

theorem pairs_ends {ls rs : List Ty} (hS : S.Solved)
    (h : ∀ p ∈ ls.zip rs, I.types d S p.1 p.2) : I.Ends (Unifier.pairs go ls rs) S := by
  rw [Unifier.pairs_eq_forM]
  exact .forM hS fun p hp S' kept => hgo kept.solved (kept.types (h p hp))

theorem params_ends {ls rs : List ParamType} {position : Nat} (hS : S.Solved)
    (h : ∀ p ∈ ls.zip rs, I.types d S p.1.type p.2.type)
    (fault : ∀ p ∈ ls.zip rs, p.1.ownership ≠ p.2.ownership → I.Refuted) :
    I.Ends (Unifier.params go position ls rs) S := by
  induction ls generalizing rs S position with
  | nil => exact .pure hS ()
  | cons l ls ih =>
    cases rs with
    | nil => exact .pure hS ()
    | cons r rs =>
      rw [List.zip_cons_cons, List.forall_mem_cons] at h fault
      refine .guard hS nofun fault.1 fun _ => ?_
      refine (hgo hS h.1).bind fun _ S' kept => ?_
      exact ih kept.solved (fun p hp => kept.types (h.2 p hp)) fault.2

theorem shapes_ends {l r : Ty} (hS : S.Solved) (hl : ∀ v ∈ l.vars, ¬ S.Binds v)
    (hr : ∀ v ∈ r.vars, ¬ S.Binds v) (h : I.types (d + 1) S l r) :
    I.Ends (Unifier.shapes go l r) S := by
  have undetRight : ∀ {k : Stamp}, r = .undet k → l ≠ .undet k →
      I.Ends (Unifier.bindType k l) S := by
    rintro k rfl hne
    exact bindType_ends hS (hr _ (List.mem_singleton_self _)) hl hne (I.symm h)
  have differ : (∀ θ : Substitution, ¬ θ.equates l r) →
      I.Ends (Unifier.clash (.shapes l r) : Unifier Unit) S :=
    fun hne => .clash hS (by simp) (refuted_of_types h hne)
  cases l with
  | undet k =>
    have bind : r ≠ .undet k → I.Ends (Unifier.bindType k r) S := fun hne =>
      bindType_ends hS (hl _ (List.mem_singleton_self _)) hr hne h
    cases r with
    | undet k' =>
      rw [Unifier.shapes]
      split
      · exact .pure hS ()
      · rename_i hk
        exact bind (by simpa using Ne.symm hk)
    | _ => exact bind (by simp)
  | prim name cls =>
    cases r with
    | prim name' cls' =>
      refine .check hS (by simp) fun hn => refuted_of_types h fun θ he => hn ?_
      simpa [equates_iff, Ty.skeleton] using he
    | undet k' => exact undetRight rfl (by simp)
    | _ => exact differ fun θ => by simp [equates_iff, Ty.skeleton]
  | var p =>
    cases r with
    | var p' =>
      refine .check hS (by simp) fun hn => refuted_of_types h fun θ he => hn ?_
      simpa [equates_iff, Ty.skeleton] using he
    | undet k' => exact undetRight rfl (by simp)
    | _ => exact differ fun θ => by simp [equates_iff, Ty.skeleton]
  | tuple ls =>
    cases r with
    | tuple rs =>
      refine .guard hS (by simp) (fun hlen => refuted_of_types h fun θ he => hlen ?_) fun _ => ?_
      · exact (equates_tuple.mp he).1
      · exact pairs_ends hgo hS (I.tuple h)
    | undet k' => exact undetRight rfl (by simp)
    | _ => exact differ fun θ => by simp [equates_iff, Ty.skeleton]
  | array l n =>
    cases r with
    | array r n' =>
      obtain ⟨elem, length⟩ := I.array h
      refine (hgo hS elem).bind fun _ S' kept => ?_
      refine (nats_ends kept.solved (kept.nats length)).bind fun _ S'' kept' => ?_
      exact .pure kept'.solved ()
    | undet k' => exact undetRight rfl (by simp)
    | _ => exact differ fun θ => by simp [equates_iff, Ty.skeleton]
  | struct ld ls ns =>
    cases r with
    | struct rd rs ms =>
      obtain ⟨typeArgs, natArgs⟩ := I.struct h
      refine .guard hS (by simp) (fun hn => refuted_of_types h fun θ he => hn ?_) fun _ => ?_
      · exact (equates_struct.mp he).1
      refine .guard hS (by simp) (fun hlen => refuted_of_types h fun θ he => hlen ?_) fun _ => ?_
      · exact (equates_struct.mp he).2.1.1
      refine (pairs_ends hgo hS typeArgs).bind fun _ S' kept => ?_
      refine .guard kept.solved (by simp) (fun hlen => refuted_of_types h fun θ he => hlen ?_)
        fun _ => ?_
      · exact (equates_struct.mp he).2.2.1
      exact natPairs_ends kept.solved fun p hp => kept.nats (natArgs p hp)
    | undet k' => exact undetRight rfl (by simp)
    | _ => exact differ fun θ => by simp [equates_iff, Ty.skeleton]
  | fn ls l lg =>
    cases r with
    | fn rs r rg =>
      refine .guard hS (by simp) (fun hlen => refuted_of_types h fun θ he => hlen ?_) fun _ => ?_
      · exact (equates_fn.mp he).1.1
      refine .guard hS (by simp) (fun hg => refuted_of_types h fun θ he => hg ?_) fun hg => ?_
      · exact (equates_fn.mp he).2.2
      subst hg
      obtain ⟨params, result⟩ := I.fn h
      refine (params_ends hgo hS params fun p hp ho => refuted_of_types h fun θ he => ho ?_).bind
        fun _ S' kept => ?_
      · exact ((equates_fn.mp he).1.2 p hp).2
      exact hgo kept.solved (kept.types result)
    | undet k' => exact undetRight rfl (by simp)
    | _ => exact differ fun θ => by simp [equates_iff, Ty.skeleton]
  | option l =>
    cases r with
    | option r => exact hgo hS (I.option h)
    | undet k' => exact undetRight rfl (by simp)
    | _ => exact differ fun θ => by simp [equates_iff, Ty.skeleton]

end

/-- **However unifying two types ends**, the invariant is kept. -/
theorem types_ends (hS : S.Solved) (h : I.types d S l r) : I.Ends (Unifier.types d l r) S := by
  induction d generalizing l r S with
  | zero =>
    exact ⟨nofun, fun he => by cases he; exact ⟨.refl hS, .inl ⟨rfl, S, l, r, h⟩⟩⟩
  | succ d ih =>
    have applied := shapes_ends ih hS (fun v => hS.not_binds) (fun v => hS.not_binds) (I.subst hS h)
    rw [← apply_eq, ← apply_eq] at applied
    constructor
    · intro _ S' hrun
      rw [Unifier.types] at hrun
      dsimp only at hrun
      split at hrun
      · rename_i hok
        cases hrun
        exact applied.ok hok
      · cases hrun
    · intro e S' hrun
      rw [Unifier.types] at hrun
      dsimp only at hrun
      split at hrun
      · cases hrun
      · rename_i herr
        cases hrun
        obtain ⟨kept, why⟩ := applied.error herr
        exact ⟨kept, why⟩

theorem unify_ends (hS : S.Solved) (h : I.types (depthBound (S.apply l) (S.apply r)) S l r) :
    I.Ends (unify l r) S := by
  refine .get ((types_ends hS h).bind fun _ S' kept => .get ?_)
  exact .pure kept.solved _

end PairInvariant

/-! ## Invariants of single types -/

/-- The types that a type is built from, those of declarations apart. -/
def Ty.components : Ty → List Ty
  | .prim _ _ | .var _ | .undet _ => []
  | .tuple elems => elems
  | .array elem _ => [elem]
  | .struct _ typeArgs _ => typeArgs
  | .fn params result _ => params.map (·.type) ++ [result]
  | .option inner => [inner]

/-- Something that holds of each of the two types. -/
structure TypeInvariant where
  holds : Nat → Substitution → Ty → Prop
  subst {d S t} : S.Solved → holds d S t → holds d S (t.subst S)
  component {d S t u} : holds (d + 1) S t → u ∈ t.components → holds d S u
  bindType {d d' S S' k t u} : S.types.get? k = none → S.Apart (.ofType k t) →
    S.Then (.ofType k t) S' → holds d S (.undet k) → holds d S t → holds d' S u → holds d' S' u
  bindNat {d S S' k n u} : S.nats.get? k = none → S.Apart (.ofNat k n) →
    S.Then (.ofNat k n) S' → holds d S u → holds d S' u

namespace TypeInvariant

variable (J : TypeInvariant) {d : Nat} {S : Substitution} {l r : Ty}

/-- Both types satisfy an invariant. -/
def Both (d : Nat) (S : Substitution) (l r : Ty) : Prop := J.holds d S l ∧ J.holds d S r

variable {J}

theorem Both.component {l' r' : Ty} (h : J.Both (d + 1) S l r) (hl : l' ∈ l.components)
    (hr : r' ∈ r.components) : J.Both d S l' r' :=
  ⟨J.component h.1 hl, J.component h.2 hr⟩

variable (J)

/-- An invariant of types is one of pairs. -/
def pairs : PairInvariant where
  types := J.Both
  nats _ _ _ := True
  symm h := And.symm h
  natSymm := id
  subst hS h := ⟨J.subst hS h.1, J.subst hS h.2⟩
  natSubst _ := id
  tuple h _ hp := h.component (List.of_mem_zip hp).1 (List.of_mem_zip hp).2
  array h := ⟨h.component (List.mem_singleton_self _) (List.mem_singleton_self _), trivial⟩
  struct h := ⟨fun _ hp => h.component (List.of_mem_zip hp).1 (List.of_mem_zip hp).2,
    fun _ _ => trivial⟩
  fn h := by
    refine ⟨fun p hp => ?_, ?_⟩
    · exact h.component (List.mem_append_left _ (List.mem_map_of_mem (List.of_mem_zip hp).1))
        (List.mem_append_left _ (List.mem_map_of_mem (List.of_mem_zip hp).2))
    · exact h.component (List.mem_append_right _ (List.mem_singleton_self _))
        (List.mem_append_right _ (List.mem_singleton_self _))
  option h := h.component (List.mem_singleton_self _) (List.mem_singleton_self _)
  bindType hk apart hthen bound := by
    have keep {d u} : J.holds d _ u → J.holds d _ u := J.bindType hk apart hthen bound.1 bound.2
    exact ⟨fun h => ⟨keep h.1, keep h.2⟩, id⟩
  bindNat hk apart hthen _ := by
    have keep {d u} : J.holds d _ u → J.holds d _ u := J.bindNat hk apart hthen
    exact ⟨fun h => ⟨keep h.1, keep h.2⟩, id⟩

end TypeInvariant

end QuantumStatics
