/-
  The depth that unification allows for is never used up.

  A binding adds at most the height of its image to the height of a type, and takes one of the
  stamps away that are left to bind.  So no height is doubled more often than there are stamps
  in the two types, and the components that the unifier reaches nest no deeper than that.
-/
import QuantumStatics.Proofs.Unification.Runs

namespace QuantumStatics

open Substitution

/-! ## Heights -/

namespace Ty

mutual

/-- How deep the components of a type nest, those of declarations not counted. -/
def height : Ty → Nat
  | .prim _ _ | .var _ | .undet _ => 0
  | .tuple elems => 1 + heightAll elems
  | .array elem _ => 1 + elem.height
  | .struct _ typeArgs _ => 1 + heightAll typeArgs
  | .fn params result _ => 1 + max (heightParams params) result.height
  | .option inner => 1 + inner.height

/-- The greatest height of some types. -/
def heightAll : List Ty → Nat
  | [] => 0
  | t :: ts => max t.height (heightAll ts)

/-- The greatest height of the parameters of a function type. -/
def heightParams : List ParamType → Nat
  | [] => 0
  | ⟨t, _⟩ :: ps => max t.height (heightParams ps)

end

theorem heightAll_le {ts : List Ty} {h : Nat} : heightAll ts ≤ h ↔ ∀ t ∈ ts, t.height ≤ h := by
  induction ts with
  | nil => simp [heightAll]
  | cons t ts ih => rw [heightAll, Nat.max_le, ih, List.forall_mem_cons]

theorem heightParams_le {ps : List ParamType} {h : Nat} :
    heightParams ps ≤ h ↔ ∀ p ∈ ps, p.type.height ≤ h := by
  induction ps with
  | nil => simp [heightParams]
  | cons p ps ih =>
    obtain ⟨t, ownership⟩ := p
    rw [heightParams, Nat.max_le, ih, List.forall_mem_cons]

theorem mem_components_subst (S : Substitution) {t u : Ty} (h : u ∈ t.components) :
    u.subst S ∈ (t.subst S).components := by
  cases t with
  | prim | var | undet => cases h
  | tuple | struct => simpa [components] using ⟨u, h, rfl⟩
  | array | option => simp_all [components]
  | fn params result generics =>
    simp only [components, List.mem_append, List.mem_map, List.mem_singleton, subst_fn] at h ⊢
    obtain ⟨p, hp, rfl⟩ | rfl := h
    · exact .inl ⟨p.subst S, ⟨p, hp, rfl⟩, rfl⟩
    · exact .inr rfl

theorem height_lt_of_mem_components {t u : Ty} (h : u ∈ t.components) : u.height < t.height := by
  cases t with
  | prim | var | undet => cases h
  | tuple elems | struct _ typeArgs _ =>
    have := heightAll_le.mp (Nat.le_refl _) u h
    rw [height]
    simp only [components] at this
    omega
  | array | option =>
    obtain rfl := List.mem_singleton.mp h
    rw [height]
    omega
  | fn params result generics =>
    rw [height]
    obtain h | h := List.mem_append.mp h
    · obtain ⟨p, hp, rfl⟩ := List.mem_map.mp h
      have := heightParams_le.mp (Nat.le_refl _) p hp
      omega
    · obtain rfl := List.mem_singleton.mp h
      omega

theorem undetType_mem_vars_of_mem_components {t u : Ty} {k : Stamp} (h : u ∈ t.components)
    (hk : .undetType k ∈ u.vars) : .undetType k ∈ t.vars := by
  cases t with
  | prim | var | undet => cases h
  | tuple elems =>
    rw [vars, varsAll_eq]
    exact List.mem_flatMap.mpr ⟨u, h, hk⟩
  | array | option =>
    obtain rfl := List.mem_singleton.mp h
    simp [vars, hk]
  | struct decl typeArgs natArgs =>
    rw [vars, varsAll_eq]
    exact List.mem_append_left _ (List.mem_flatMap.mpr ⟨u, h, hk⟩)
  | fn params result generics =>
    rw [vars, varsParams_eq, List.mem_filter, List.mem_append]
    refine ⟨(List.mem_append.mp h).imp (fun h => ?_) fun h => ?_, rfl⟩
    · obtain ⟨p, hp, rfl⟩ := List.mem_map.mp h
      exact List.mem_flatMap.mpr ⟨p, hp, hk⟩
    · obtain rfl := List.mem_singleton.mp h
      exact hk

theorem height_subst_le {σ : Substitution} {h : Nat} (hσ : ∀ k, ((undet k).subst σ).height ≤ h)
    (t : Ty) : (t.subst σ).height ≤ t.height + h := by
  induction t with
  | prim | var => simp [height]
  | undet k => simpa [height] using hσ k
  | tuple elems ih =>
    have bound : heightAll (elems.map (subst σ)) ≤ heightAll elems + h := by
      refine heightAll_le.mpr (List.forall_mem_map.mpr fun t ht => ?_)
      have := ih t ht
      have := heightAll_le.mp (Nat.le_refl _) t ht
      omega
    rw [subst_tuple, height, height]
    omega
  | array elem length ih =>
    rw [subst_array, height, height]
    omega
  | struct decl typeArgs natArgs ih =>
    have bound : heightAll (typeArgs.map (subst σ)) ≤ heightAll typeArgs + h := by
      refine heightAll_le.mpr (List.forall_mem_map.mpr fun t ht => ?_)
      have := ih t ht
      have := heightAll_le.mp (Nat.le_refl _) t ht
      omega
    rw [subst_struct, height, height]
    omega
  | fn params result generics ihp ihr =>
    have bound : heightParams (params.map (ParamType.subst σ)) ≤ heightParams params + h := by
      refine heightParams_le.mpr (List.forall_mem_map.mpr fun p hp => ?_)
      have : (p.type.subst σ).height ≤ p.type.height + h := ihp p hp
      have := heightParams_le.mp (Nat.le_refl _) p hp
      simp only [ParamType.subst]
      omega
    rw [subst_fn, height, height]
    omega
  | option inner ih =>
    rw [subst_option, height, height]
    omega

mutual

theorem exists_stamps : (t : Ty) → ∃ V : List Stamp,
    (∀ k, .undetType k ∈ t.vars → k ∈ V) ∧ t.height + V.length ≤ t.size
  | .prim _ _ => ⟨[], by simp [vars], by simp [height, size]⟩
  | .var _ => ⟨[], by simp [vars], by simp [height, size]⟩
  | .undet k => ⟨[k], by simp [vars], by simp [height, size]⟩
  | .tuple elems => by
    obtain ⟨V, mem, le⟩ := exists_stampsAll elems
    refine ⟨V, mem, ?_⟩
    rw [height, size]
    omega
  | .array elem length => by
    obtain ⟨V, mem, le⟩ := exists_stamps elem
    refine ⟨V, fun k hk => mem k ?_, ?_⟩
    · cases length <;> simpa [vars, NatTerm.vars] using hk
    · rw [height, size]
      omega
  | .struct _ typeArgs natArgs => by
    obtain ⟨V, mem, le⟩ := exists_stampsAll typeArgs
    refine ⟨V, fun k hk => mem k ?_, ?_⟩
    · rw [vars, List.mem_append, List.mem_flatMap] at hk
      obtain ⟨n, -, hn⟩ | hk := hk.symm
      · cases n <;> simp [NatTerm.vars] at hn
      · exact hk
    · rw [height, size]
      omega
  | .fn params result generics => by
    obtain ⟨V, mem, le⟩ := exists_stampsParams params
    obtain ⟨V', mem', le'⟩ := exists_stamps result
    refine ⟨V ++ V', fun k hk => ?_, ?_⟩
    · rw [vars, List.mem_filter, List.mem_append] at hk
      exact List.mem_append.mpr (hk.1.imp (mem k) (mem' k))
    · rw [height, size, List.length_append]
      omega
  | .option inner => by
    obtain ⟨V, mem, le⟩ := exists_stamps inner
    refine ⟨V, mem, ?_⟩
    rw [height, size]
    omega

theorem exists_stampsAll : (ts : List Ty) → ∃ V : List Stamp,
    (∀ k, .undetType k ∈ varsAll ts → k ∈ V) ∧ heightAll ts + V.length ≤ sizeAll ts
  | [] => ⟨[], by simp [varsAll], by simp [heightAll, sizeAll]⟩
  | t :: ts => by
    obtain ⟨V, mem, le⟩ := exists_stamps t
    obtain ⟨V', mem', le'⟩ := exists_stampsAll ts
    refine ⟨V ++ V', fun k hk => ?_, ?_⟩
    · rw [varsAll, List.mem_append] at hk
      exact List.mem_append.mpr (hk.imp (mem k) (mem' k))
    · rw [heightAll, sizeAll, List.length_append]
      omega

theorem exists_stampsParams : (ps : List ParamType) → ∃ V : List Stamp,
    (∀ k, .undetType k ∈ varsParams ps → k ∈ V) ∧ heightParams ps + V.length ≤ sizeParams ps
  | [] => ⟨[], by simp [varsParams], by simp [heightParams, sizeParams]⟩
  | ⟨t, _⟩ :: ps => by
    obtain ⟨V, mem, le⟩ := exists_stamps t
    obtain ⟨V', mem', le'⟩ := exists_stampsParams ps
    refine ⟨V ++ V', fun k hk => ?_, ?_⟩
    · rw [varsParams, List.mem_append] at hk
      exact List.mem_append.mpr (hk.imp (mem k) (mem' k))
    · rw [heightParams, sizeParams, List.length_append]
      omega

end

end Ty

/-! ## Bounds along a run -/

/-- How many of the stamps are not bound. -/
def Substitution.unbound (S : Substitution) (V : List Stamp) : Nat :=
  V.countP fun k => (S.types.get? k).isNone

/-- How high types may get: each binding doubles the height at most. -/
def Substitution.heightBound (S : Substitution) (V : List Stamp) (H : Nat) : Nat :=
  H <<< (V.length - S.unbound V)

/-- What has become of a type mentions no undetermined types but those of `V`, is no higher than
    the bound, and stays within the depth that is left when all of `V` are bound. -/
structure Shallow (V : List Stamp) (H d : Nat) (S : Substitution) (t : Ty) : Prop where
  stamps {k : Stamp} : .undetType k ∈ (t.subst S).vars → k ∈ V
  height : (t.subst S).height ≤ S.heightBound V H
  depth : (t.subst S).height + H <<< V.length < d + S.heightBound V H

section

variable {V : List Stamp} {H d : Nat} {S S' σ : Substitution} {t u : Ty}

theorem heightBound_le : S.heightBound V H ≤ H <<< V.length := by
  rw [heightBound, Nat.shiftLeft_eq, Nat.shiftLeft_eq]
  exact Nat.mul_le_mul_left H (Nat.pow_le_pow_right (by omega) (by omega))

theorem two_mul_heightBound_le (h : S'.unbound V < S.unbound V) :
    2 * S.heightBound V H ≤ S'.heightBound V H := by
  have : S.unbound V ≤ V.length := List.countP_le_length
  rw [heightBound, heightBound, ← Nat.shiftLeft_succ, Nat.shiftLeft_eq, Nat.shiftLeft_eq]
  exact Nat.mul_le_mul_left H (Nat.pow_le_pow_right (by omega) (by omega))

theorem unbound_lt {k : Stamp} {image : Ty} (hk : S.types.get? k = none)
    (hthen : S.Then (.ofType k image) S') (hV : k ∈ V) : S'.unbound V < S.unbound V := by
  have still : ∀ j, (S'.types.get? j).isNone → (S.types.get? j).isNone := by
    intro j hj
    rw [hthen.types] at hj
    cases hs : S.types.get? j <;> simp_all
  have bound : (S'.types.get? k).isNone = false := by simp [hthen.types, hk]
  unfold unbound
  induction hV with
  | head V =>
    rw [List.countP_cons_of_neg (by simp [bound]), List.countP_cons_of_pos (by simp [hk])]
    exact Nat.lt_succ_of_le (List.countP_mono_left fun j _ => still j)
  | @tail j V _ ih =>
    rw [List.countP_cons, List.countP_cons]
    have := still j
    split <;> split <;> simp_all
    omega

theorem not_shallow_zero : ¬ Shallow V H 0 S t := by
  intro h
  have := h.depth
  have := heightBound_le (S := S) (V := V) (H := H)
  omega

namespace Shallow

theorem component (h : Shallow V H (d + 1) S t) (hu : u ∈ t.components) : Shallow V H d S u := by
  have part := Ty.mem_components_subst S hu
  have lower := Ty.height_lt_of_mem_components part
  have bound := h.height
  have depth := h.depth
  exact ⟨fun hk => h.stamps (Ty.undetType_mem_vars_of_mem_components part hk), by omega, by omega⟩

theorem subst (hS : S.Solved) (h : Shallow V H d S t) : Shallow V H d S (t.subst S) := by
  obtain ⟨stamps, height, depth⟩ := h
  rw [← hS.refines.subst t] at height depth
  exact ⟨fun hk => stamps (by rwa [hS.refines.subst] at hk), height, depth⟩

theorem bindType {d' : Nat} {k : Stamp} {image : Ty} (h : Shallow V H d S t)
    (hk : S.types.get? k = none) (apart : S.Apart (.ofType k image))
    (hthen : S.Then (.ofType k image) S') (hstamp : Shallow V H d' S (.undet k))
    (himage : Shallow V H d' S image) : Shallow V H d S' t := by
  have applied : image.subst S = image := Ty.subst_eq_self fun v hv =>
    apart.images (.inl ⟨k, image, by simp, hv⟩)
  have himage_height := applied ▸ himage.height
  have doubled : 2 * S.heightBound V H ≤ S'.heightBound V H :=
    two_mul_heightBound_le (unbound_lt hk hthen (hstamp.stamps (by simp [hk, Ty.vars])))
  have raised :
      ((t.subst S).subst (.ofType k image)).height ≤ (t.subst S).height + image.height := by
    refine Ty.height_subst_le (fun j => ?_) _
    by_cases hj : j = k <;> simp [hj, Ty.height]
  have height := h.height
  have depth := h.depth
  rw [← hthen.subst] at raised
  refine ⟨fun {j} hj => ?_, by omega, by omega⟩
  rw [hthen.subst] at hj
  rcases Ty.mem_vars_subst hj with ⟨hj, -⟩ | ⟨i, u, hu, hj⟩ | ⟨i, n, hn, -⟩
  · exact h.stamps hj
  · obtain ⟨-, rfl⟩ : i = k ∧ image = u := by simpa using hu
    exact himage.stamps (applied.symm ▸ hj)
  · simp at hn

theorem bindNat {k : Stamp} {n : NatTerm} (h : Shallow V H d S t)
    (hthen : S.Then (.ofNat k n) S') : Shallow V H d S' t := by
  have same : S'.heightBound V H = S.heightBound V H := by
    simp [heightBound, unbound, hthen.types]
  have kept : ((t.subst S).subst (.ofNat k n)).height ≤ (t.subst S).height + 0 :=
    Ty.height_subst_le (fun j => by simp [Ty.height]) _
  have height := h.height
  have depth := h.depth
  rw [← hthen.subst] at kept
  refine ⟨fun {j} hj => ?_, by omega, by omega⟩
  rw [hthen.subst] at hj
  rcases Ty.mem_vars_subst hj with ⟨hj, -⟩ | ⟨i, u, hu, -⟩ | ⟨i, m, hm, hj⟩
  · exact h.stamps hj
  · simp at hu
  · cases m <;> simp [NatTerm.vars] at hj

end Shallow

/-- **Types stay shallow along every run.** -/
def shallow (V : List Stamp) (H : Nat) : TypeInvariant where
  holds := Shallow V H
  subst := .subst
  component := .component
  bindType hk apart hthen hstamp himage h := h.bindType hk apart hthen hstamp himage
  bindNat _ _ hthen h := h.bindNat hthen

theorem shallow_of_lt (stamps : ∀ k, .undetType k ∈ (t.subst S).vars → k ∈ V)
    (height : (t.subst S).height ≤ H) (depth : H <<< V.length < d) : Shallow V H d S t := by
  have bound : H ≤ S.heightBound V H := by
    rw [heightBound, Nat.shiftLeft_eq]
    exact Nat.le_mul_of_pos_right H (Nat.two_pow_pos _)
  exact ⟨stamps _, by omega, by omega⟩

theorem shiftLeft_lt_depthBound {l r : Ty} {n : Nat} (h : H + n ≤ l.size + r.size) :
    H <<< n < depthBound l r := by
  rw [depthBound, Nat.shiftLeft_eq, Nat.shiftLeft_eq, Nat.one_mul]
  calc H * 2 ^ n < 2 ^ H * 2 ^ n :=
        (Nat.mul_lt_mul_right (Nat.two_pow_pos n)).mpr Nat.lt_two_pow_self
    _ = 2 ^ (H + n) := (Nat.pow_add 2 H n).symm
    _ ≤ 2 ^ (l.size + r.size + 32) := Nat.pow_le_pow_right (by omega) (by omega)

end

/-- **Unification does not fail for want of depth**, if the substitution is in solved form. -/
theorem unify_ne_endless {l r : Ty} {S S' : Substitution} {e : UnificationError} (hS : S.Solved)
    (h : unify l r S = .error e S') : e.clash ≠ .endless := by
  obtain ⟨V, mem, le⟩ := Ty.exists_stamps (l.subst S)
  obtain ⟨V', mem', le'⟩ := Ty.exists_stamps (r.subst S)
  let H := max (l.subst S).height (r.subst S).height
  have depth : H <<< (V ++ V').length < depthBound (S.apply l) (S.apply r) := by
    rw [apply_eq, apply_eq]
    refine shiftLeft_lt_depthBound ?_
    rw [List.length_append]
    omega
  have start : (shallow (V ++ V') H).pairs.types (depthBound (S.apply l) (S.apply r)) S l r :=
    ⟨shallow_of_lt (fun k hk => List.mem_append_left _ (mem k hk)) (Nat.le_max_left _ _) depth,
      shallow_of_lt (fun k hk => List.mem_append_right _ (mem' k hk)) (Nat.le_max_right _ _) depth⟩
  obtain ⟨-, ⟨-, S₁, l₁, r₁, left, -⟩ | ⟨hc, -⟩⟩ := (PairInvariant.unify_ends hS start).error h
  · exact absurd left not_shallow_zero
  · exact hc

end QuantumStatics
