/-
  The types within a type.

  `Ty.subterms` lists a type and the types that it is built from, at any depth.  What is to hold
  throughout a type is said of the members of this list; the fields of declarations are not among
  them.
-/
import QuantumStatics.Proofs.Ty.Instantiation
import QuantumStatics.Proofs.Unification.Runs
import QuantumStatics.Specialization.Key

namespace QuantumStatics

mutual

/-- A type and the types that it is built from, at any depth. -/
def Ty.subterms : Ty → List Ty
  | .prim name cls => [.prim name cls]
  | .var p => [.var p]
  | .undet stamp => [.undet stamp]
  | .tuple elems => .tuple elems :: Ty.subtermsAll elems
  | .array elem length => .array elem length :: elem.subterms
  | .struct decl typeArgs natArgs => .struct decl typeArgs natArgs :: Ty.subtermsAll typeArgs
  | .fn params result generics =>
    .fn params result generics :: (Ty.subtermsParams params ++ result.subterms)
  | .option inner => .option inner :: inner.subterms

/-- The same for some types. -/
def Ty.subtermsAll : List Ty → List Ty
  | [] => []
  | t :: ts => t.subterms ++ Ty.subtermsAll ts

/-- The same for the parameters of a function type. -/
def Ty.subtermsParams : List ParamType → List Ty
  | [] => []
  | ⟨t, _⟩ :: ps => t.subterms ++ Ty.subtermsParams ps

end

namespace Ty

theorem subtermsAll_eq (ts : List Ty) : subtermsAll ts = ts.flatMap subterms :=
  companion_eq_flatMap rfl (fun _ _ => rfl) ts

theorem subtermsParams_eq (ps : List ParamType) :
    subtermsParams ps = ps.flatMap fun p => p.type.subterms := by
  refine companion_eq_flatMap rfl ?_ ps
  rintro ⟨t, ownership⟩ ps
  rfl

theorem subterms_eq (t : Ty) : t.subterms = t :: t.components.flatMap subterms := by
  cases t <;>
    simp [subterms, components, subtermsAll_eq, subtermsParams_eq, List.flatMap_map]

variable {t u c : Ty} {P : Ty → Prop} {v : Var}

theorem mem_subterms : u ∈ t.subterms ↔ u = t ∨ ∃ c ∈ t.components, u ∈ c.subterms := by
  rw [subterms_eq, List.mem_cons, List.mem_flatMap]

theorem mem_subterms_self (t : Ty) : t ∈ t.subterms := mem_subterms.mpr (.inl rfl)

theorem mem_subterms_of_component (hc : c ∈ t.components) (hu : u ∈ c.subterms) :
    u ∈ t.subterms := mem_subterms.mpr (.inr ⟨c, hc, hu⟩)

theorem forall_mem_subterms :
    (∀ u ∈ t.subterms, P u) ↔ P t ∧ ∀ c ∈ t.components, ∀ u ∈ c.subterms, P u := by
  rw [subterms_eq, List.forall_mem_cons]
  simp only [List.mem_flatMap]
  exact and_congr_right' ⟨fun h c hc u hu => h u ⟨c, hc, hu⟩, fun h u ⟨c, hc, hu⟩ => h c hc u hu⟩

theorem componentInduction (step : ∀ t, (∀ c ∈ t.components, P c) → P t) (t : Ty) : P t := by
  induction t with
  | prim | var | undet => exact step _ nofun
  | tuple elems ih => exact step _ ih
  | array elem length ih => exact step _ (List.forall_mem_singleton.mpr ih)
  | struct decl typeArgs natArgs ih => exact step _ ih
  | fn params result generics ihp ihr =>
    exact step _ (List.forall_mem_append.mpr
      ⟨List.forall_mem_map.mpr ihp, List.forall_mem_singleton.mpr ihr⟩)
  | option inner ih => exact step _ (List.forall_mem_singleton.mpr ih)

theorem mem_subterms_trans {v : Ty} (hu : u ∈ t.subterms) (hv : v ∈ u.subterms) :
    v ∈ t.subterms := by
  induction t using componentInduction with
  | step t ih =>
    rcases mem_subterms.mp hu with rfl | ⟨c, hc, hu⟩
    · exact hv
    · exact mem_subterms_of_component hc (ih c hc hu)

/-! ## Variables -/

/-- The variables that a type mentions at its outermost form. -/
def ownVars : Ty → List Var
  | .var p => [.type p.name]
  | .undet stamp => [.undetType stamp]
  | .array _ length => length.vars
  | .struct _ _ natArgs => natArgs.flatMap NatTerm.vars
  | .prim _ _ | .tuple _ | .fn _ _ _ | .option _ => []

/-- The nats that stand at the outermost form of a type. -/
def ownNats : Ty → List NatTerm
  | .array _ length => [length]
  | .struct _ _ natArgs => natArgs
  | .prim _ _ | .var _ | .undet _ | .tuple _ | .fn _ _ _ | .option _ => []

theorem mem_ownVars_of_ownNats {n : NatTerm} (hn : n ∈ t.ownNats) (hv : v ∈ n.vars) :
    v ∈ t.ownVars := by
  cases t with
  | array elem length =>
    cases List.mem_singleton.mp hn
    exact hv
  | struct decl typeArgs natArgs => exact List.mem_flatMap.mpr ⟨n, hn, hv⟩
  | _ => cases hn

/-- The generic parameters that a type binds at its outermost form. -/
def binder : Ty → Generics
  | .fn _ _ generics => generics
  | _ => {}

theorem mem_vars :
    v ∈ t.vars ↔ v.boundBy t.binder = false ∧ (v ∈ t.ownVars ∨ ∃ c ∈ t.components, v ∈ c.vars) := by
  have free : v.boundBy {} = false := by cases v <;> rfl
  cases t with
  | fn params result generics =>
    simp only [vars, varsParams_eq, List.mem_filter, List.mem_append, List.mem_flatMap, binder,
      ownVars, List.not_mem_nil, false_or, components, List.mem_map, List.mem_singleton]
    grind
  | _ => simp [vars, varsAll_eq, binder, ownVars, components, free, or_comm]

theorem exists_of_mem_vars (h : v ∈ t.vars) : ∃ u ∈ t.subterms, v ∈ u.ownVars := by
  induction t using componentInduction with
  | step t ih =>
    rcases (mem_vars.mp h).2 with own | ⟨c, hc, h⟩
    · exact ⟨t, mem_subterms_self t, own⟩
    · obtain ⟨u, hu, own⟩ := ih c hc h
      exact ⟨u, mem_subterms_of_component hc hu, own⟩

theorem closed_of_component (h : t.closed) (hb : t.binder = {}) (hc : c ∈ t.components) :
    c.closed := by
  rw [closed_iff, List.eq_nil_iff_forall_not_mem] at h ⊢
  intro v hv
  exact h v (mem_vars.mpr ⟨by rw [hb]; cases v <;> rfl, .inr ⟨c, hc, hv⟩⟩)

theorem ownVars_of_closed (h : t.closed) : t.ownVars = [] := by
  rw [closed_iff, List.eq_nil_iff_forall_not_mem] at h
  refine List.eq_nil_iff_forall_not_mem.mpr fun v hv => h v (mem_vars.mpr ⟨?_, .inl hv⟩)
  -- What a function type binds is not mentioned at its outermost form.
  cases t with
  | fn params result generics => cases hv
  | _ => cases v <;> rfl

/-- No function type in a type has parameters of its own. -/
def Simple (t : Ty) : Prop := ∀ u ∈ t.subterms, u.binder = {}

theorem Simple.component (h : t.Simple) (hc : c ∈ t.components) : c.Simple :=
  fun u hu => h u (mem_subterms_of_component hc hu)

theorem Simple.closed (h : t.Simple) (ct : t.closed) (hc : c ∈ t.components) : c.closed :=
  closed_of_component ct (h t (mem_subterms_self t)) hc

/-! ## Putting in -/

theorem components_subst {S : Substitution} (ht : ∀ k, t ≠ .undet k) :
    (t.subst S).components = t.components.map (subst S) := by
  cases t with
  | undet k => exact absurd rfl (ht k)
  | _ => simp [components, ParamType.subst, Function.comp_def]

/-- **What holds throughout a type with what has been found out put in**: it has to hold
    throughout the images, and of what becomes of each type within. -/
theorem forall_subterms_subst {S : Substitution}
    (images : ∀ {k u}, S.types.get? k = some u → ∀ v ∈ u.subterms, P v)
    (h : ∀ u ∈ t.subterms, (∀ k, u = .undet k → S.types.get? k = Option.none) → P (u.subst S)) :
    ∀ u ∈ (t.subst S).subterms, P u := by
  induction t using componentInduction with
  | step t ih =>
    by_cases bound : ∃ k v, t = .undet k ∧ S.types.get? k = some v
    · obtain ⟨k, v, rfl, hk⟩ := bound
      rw [subst_undet, hk]
      exact images hk
    · have unbound : ∀ k, t = .undet k → S.types.get? k = Option.none := fun k hk =>
        Option.eq_none_iff_forall_ne_some.mpr fun v hv => bound ⟨k, v, hk, hv⟩
      refine forall_mem_subterms.mpr ⟨h t (mem_subterms_self t) unbound, ?_⟩
      cases t with
      | undet k =>
        rw [subst_undet, unbound k rfl]
        exact nofun
      | _ =>
        rw [components_subst (by simp), List.forall_mem_map]
        exact fun c hc => ih c hc fun u hu => h u (mem_subterms_of_component hc hu)

end Ty

namespace Instantiation

/-- Every argument of the first instantiation is one of the second. -/
structure Within (J I : Instantiation) : Prop where
  types {n u} : J.types.get? n = some u → I.types.get? n = some u
  nats {n m} : J.nats.get? n = some m → I.nats.get? n = some m

theorem Within.refl (I : Instantiation) : I.Within I := ⟨id, id⟩

theorem Within.trans {I J K : Instantiation} (h : K.Within J) (h' : J.Within I) : K.Within I :=
  ⟨h'.types ∘ h.types, h'.nats ∘ h.nats⟩

theorem within_without (I : Instantiation) (g : Generics) : (I.without g).Within I where
  types h := by
    rw [types_without] at h
    split at h
    · cases h
    · exact h
  nats h := by
    rw [nats_without] at h
    split at h
    · cases h
    · exact h

/-- What is put into the components of a type: a function type hides its own parameters. -/
def under (I : Instantiation) : Ty → Instantiation
  | .fn _ _ generics => I.without generics
  | _ => I

theorem within_under (I : Instantiation) (t : Ty) : (I.under t).Within I := by
  cases t with
  | fn params result generics => exact within_without I generics
  | _ => exact .refl I

theorem types_under {I : Instantiation} {t : Ty} {n : String}
    (h : (Var.type n).boundBy t.binder = false) :
    (I.under t).types.get? n = I.types.get? n := by
  cases t with
  | fn params result generics =>
    rw [under, types_without, if_neg]
    simpa [Var.boundBy, Ty.binder] using h
  | _ => rfl

theorem nats_under {I : Instantiation} {t : Ty} {n : String}
    (h : (Var.nat n).boundBy t.binder = false) :
    (I.under t).nats.get? n = I.nats.get? n := by
  cases t with
  | fn params result generics =>
    rw [under, nats_without, if_neg]
    simpa [Var.boundBy, Ty.binder] using h
  | _ => rfl

/-- A variable is not replaced. -/
def Leaves (I : Instantiation) : Var → Prop
  | .type n => I.types.get? n = none
  | .nat n => I.nats.get? n = none
  | .undetType _ | .undetNat _ => True

end Instantiation

namespace Ty

variable {I : Instantiation} {t : Ty}

theorem components_inst (ht : ∀ p, t ≠ .var p) :
    (t.inst I).components = t.components.map (inst (I.under t)) := by
  cases t with
  | var p => exact absurd rfl (ht p)
  | _ => simp [components, Instantiation.under, ParamType.inst, Function.comp_def]

theorem binder_inst (free : ∀ p, t = .var p → I.types.get? p.name = Option.none) :
    (t.inst I).binder = t.binder := by
  cases t with
  | var p => rw [inst_var, free p rfl, Option.getD_none]
  | _ => simp [binder]

/-- **What holds throughout an instance of a type**: it has to hold throughout the arguments, and of
    what becomes of each type within. -/
theorem forall_subterms_inst {P : Ty → Prop}
    (images : ∀ {n u}, I.types.get? n = some u → ∀ v ∈ u.subterms, P v)
    (h : ∀ u ∈ t.subterms, ∀ J : Instantiation, J.Within I →
      (∀ p, u = .var p → J.types.get? p.name = Option.none) → P (u.inst J)) :
    ∀ u ∈ (t.inst I).subterms, P u := by
  induction t using componentInduction generalizing I with
  | step t ih =>
    by_cases given : ∃ p v, t = .var p ∧ I.types.get? p.name = some v
    · obtain ⟨p, v, rfl, hp⟩ := given
      rw [inst_var, hp]
      exact images hp
    · have free : ∀ p, t = .var p → I.types.get? p.name = Option.none := fun p hp =>
        Option.eq_none_iff_forall_ne_some.mpr fun v hv => given ⟨p, v, hp, hv⟩
      have within := I.within_under t
      refine forall_mem_subterms.mpr ⟨h t (mem_subterms_self t) I (.refl I) free, ?_⟩
      cases t with
      | var p =>
        rw [inst_var, free p rfl]
        exact nofun
      | _ =>
        rw [components_inst (by simp), List.forall_mem_map]
        intro c hc
        exact ih c hc (fun hu => images (within.types hu)) fun u hu J hJ =>
          h u (mem_subterms_of_component hc hu) J (hJ.trans within)

/-! ## Struct types -/

theorem structKeysAll_eq (ts : List Ty) : structKeysAll ts = ts.flatMap structKeys :=
  companion_eq_flatMap rfl (fun _ _ => rfl) ts

theorem structKeysParams_eq (ps : List ParamType) :
    structKeysParams ps = ps.flatMap fun p => p.type.structKeys := by
  refine companion_eq_flatMap rfl ?_ ps
  rintro ⟨t, ownership⟩ ps
  rfl

/-- The key of a struct type. -/
def structKey? : Ty → Option Key
  | .struct decl typeArgs natArgs => some ⟨decl.name, typeArgs, natArgs⟩
  | _ => Option.none

theorem structKeys_eq (t : Ty) :
    t.structKeys = t.structKey?.toList ++ t.components.flatMap structKeys := by
  cases t <;>
    simp [structKeys, structKey?, structKeysAll_eq, structKeysParams_eq, components,
      List.flatMap_map]

/-- **The struct types that a type mentions** are the struct types within it. -/
theorem mem_structKeys {key : Key} :
    key ∈ t.structKeys ↔ ∃ u ∈ t.subterms, u.structKey? = some key := by
  induction t using componentInduction with
  | step t ih =>
    rw [structKeys_eq, List.mem_append, Option.mem_toList, List.mem_flatMap]
    constructor
    · rintro (h | ⟨c, hc, h⟩)
      · exact ⟨t, mem_subterms_self t, h⟩
      · obtain ⟨u, hu, h⟩ := (ih c hc).mp h
        exact ⟨u, mem_subterms_of_component hc hu, h⟩
    · rintro ⟨u, hu, h⟩
      rcases mem_subterms.mp hu with rfl | ⟨c, hc, hu⟩
      · exact .inl h
      · exact .inr ⟨c, hc, (ih c hc).mpr ⟨u, hu, h⟩⟩

end Ty

end QuantumStatics
