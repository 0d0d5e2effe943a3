/-
  Types that inference settles.

  A type is ground if it mentions nothing that is to be inferred; it may mention generic
  parameters.  What the types of a body become is decided at its end, so a type is looked at under
  the substitution that is found in the end (`Ty.GroundIn`).

  That substitution need not make every type ground.  `Ty.LooseIn` says where something may be left
  to be inferred: a whole type may be, or an element of a tuple or an array, but no argument of a
  struct, no part of a function type and no length.
-/
import QuantumStatics.Proofs.Ty.Determined
import QuantumStatics.Proofs.Unification.Depth

namespace QuantumStatics

open Substitution

/-! ## Ground types -/

/-- A nat mentions nothing that is to be inferred. -/
def NatTerm.Ground (n : NatTerm) : Prop := ∀ v ∈ n.vars, ¬ v.isUndetermined

/-- A type mentions nothing that is to be inferred. -/
def Ty.Ground (t : Ty) : Prop := ∀ v ∈ t.vars, ¬ v.isUndetermined

/-- A nat is ground, with what has been found out put in. -/
def NatTerm.GroundIn (S : Substitution) (n : NatTerm) : Prop := (n.subst S).Ground

/-- A type is ground, with what has been found out put in. -/
def Ty.GroundIn (S : Substitution) (t : Ty) : Prop := (t.subst S).Ground

namespace NatTerm

variable {S S' : Substitution} {n : NatTerm}

theorem ground_iff : n.Ground ↔ n.isUndet = false := by
  cases n <;> simp [Ground, vars, isUndet, Var.isUndetermined]

theorem Ground.groundIn (h : n.Ground) : n.GroundIn S := by
  cases n with
  | const | var => exact h
  | undet => exact absurd rfl (h _ (List.mem_singleton_self _))

theorem groundIn_subst (h : S'.Refines S) : (n.subst S').GroundIn S ↔ n.GroundIn S := by
  rw [GroundIn, h.subst_nat, GroundIn]

end NatTerm

namespace Ty

variable {S S' : Substitution} {t u : Ty} {ts : List Ty} {n : NatTerm}

theorem ground_iff : t.Ground ↔ t.hasUndetermined = false := by
  rw [← Bool.not_eq_true, hasUndetermined_iff]
  simp [Ground]

theorem determined_iff : t.determined ↔ t.Ground ∧ t.declared := by
  rw [ground_iff, determined, Bool.and_eq_true, Bool.not_eq_true']

@[simp] theorem ground_prim {name : String} {cls : OwnershipClass} : (prim name cls).Ground := nofun

@[simp] theorem ground_var {p : TypeParam} : (var p).Ground := by
  simp [Ground, vars, Var.isUndetermined]

@[simp] theorem not_ground_undet {k : Stamp} : ¬ (undet k).Ground := by
  simp [Ground, vars, Var.isUndetermined]

@[simp] theorem ground_tuple : (tuple ts).Ground ↔ ∀ t ∈ ts, t.Ground := by
  simp only [Ground, vars, varsAll_eq, List.mem_flatMap]
  exact ⟨fun h t ht v hv => h v ⟨t, ht, hv⟩, fun h v ⟨t, ht, hv⟩ => h t ht v hv⟩

@[simp] theorem ground_array : (array t n).Ground ↔ t.Ground ∧ n.Ground := by
  simp only [Ground, vars, NatTerm.Ground, List.forall_mem_append]

@[simp] theorem ground_struct {d : StructDecl} {ns : List NatTerm} :
    (struct d ts ns).Ground ↔ (∀ t ∈ ts, t.Ground) ∧ ∀ n ∈ ns, n.Ground := by
  simp only [Ground, vars, NatTerm.Ground, List.forall_mem_append, varsAll_eq, List.mem_flatMap]
  refine and_congr ?_ ?_
  · exact ⟨fun h t ht v hv => h v ⟨t, ht, hv⟩, fun h v ⟨t, ht, hv⟩ => h t ht v hv⟩
  · exact ⟨fun h n hn v hv => h v ⟨n, hn, hv⟩, fun h v ⟨n, hn, hv⟩ => h n hn v hv⟩

@[simp] theorem ground_fn {ps : List ParamType} {g : Generics} :
    (fn ps t g).Ground ↔ (∀ p ∈ ps, p.type.Ground) ∧ t.Ground := by
  have free : ∀ {v : Var}, v.isUndetermined → v.boundBy g = false := by
    intro v
    cases v <;> simp [Var.isUndetermined, Var.boundBy]
  simp only [Ground, vars, varsParams_eq, List.mem_filter, List.mem_append, List.mem_flatMap]
  constructor
  · intro h
    exact ⟨fun p hp v hv hu => h v ⟨.inl ⟨p, hp, hv⟩, by simp [free hu]⟩ hu,
      fun v hv hu => h v ⟨.inr hv, by simp [free hu]⟩ hu⟩
  · rintro ⟨params, result⟩ v ⟨⟨p, hp, hv⟩ | hv, -⟩
    · exact params p hp v hv
    · exact result v hv

@[simp] theorem ground_option : (option t).Ground ↔ t.Ground := Iff.rfl

theorem Ground.component (h : t.Ground) (hu : u ∈ t.components) : u.Ground := by
  cases t with
  | prim | var | undet => cases hu
  | tuple elems => exact ground_tuple.mp h u hu
  | array elem length =>
    cases List.mem_singleton.mp hu
    exact (ground_array.mp h).1
  | struct decl typeArgs natArgs => exact (ground_struct.mp h).1 u hu
  | fn params result generics =>
    rcases List.mem_append.mp hu with hu | hu
    · obtain ⟨p, hp, rfl⟩ := List.mem_map.mp hu
      exact (ground_fn.mp h).1 p hp
    · cases List.mem_singleton.mp hu
      exact (ground_fn.mp h).2
  | option inner =>
    cases List.mem_singleton.mp hu
    exact h

theorem vars_skeleton (t : Ty) : t.skeleton.vars = t.vars := by
  induction t with
  | prim | var | undet => rfl
  | tuple elems ih =>
    have elemVars : elems.map (vars ∘ skeleton) = elems.map vars := List.map_congr_left ih
    simp only [skeleton, vars, skeletonAll_eq_map, varsAll_eq, List.flatMap_def, List.map_map,
      elemVars]
  | array elem length ih => rw [skeleton, vars, vars, ih]
  | struct decl typeArgs natArgs ih =>
    have argVars : typeArgs.map (vars ∘ skeleton) = typeArgs.map vars := List.map_congr_left ih
    simp only [skeleton, vars, skeletonAll_eq_map, varsAll_eq, List.flatMap_def, List.map_map,
      argVars]
  | fn params result generics ihp ihr =>
    have paramVars : params.map ((fun p => p.type.vars) ∘ skeletonParam) =
        params.map fun p => p.type.vars := List.map_congr_left ihp
    simp only [skeleton, vars, ihr, skeletonParams_eq_map, varsParams_eq, List.flatMap_def,
      List.map_map, paramVars]
  | option inner ih => rw [skeleton, vars, vars, ih]

theorem Ground.equal (h : t.Ground) (he : t.equal u) : u.Ground := by
  rw [Ground, ← vars_skeleton, ← (equal_iff t u).mp he, vars_skeleton]
  exact h

/-! ## Types that become ground -/

theorem Ground.groundIn (h : t.Ground) : t.GroundIn S := by
  rw [GroundIn, subst_eq_self]
  · exact h
  · intro v hv hb
    refine h v hv ?_
    cases v with
    | undetType | undetNat => rfl
    | type | nat => cases hb

theorem groundIn_empty : t.GroundIn {} ↔ t.Ground := by
  rw [GroundIn, subst_eq_self]
  intro v _ hb
  cases v <;> simp [Substitution.Binds] at hb

theorem groundIn_subst (h : S'.Refines S) : (t.subst S').GroundIn S ↔ t.GroundIn S := by
  rw [GroundIn, h.subst, GroundIn]

theorem GroundIn.equal (h : t.GroundIn S) (he : (t.subst S).equal (u.subst S)) : u.GroundIn S :=
  Ground.equal h he

theorem groundIn_tuple : (tuple ts).GroundIn S ↔ ∀ t ∈ ts, t.GroundIn S := by
  simp [GroundIn]

theorem groundIn_array : (array t n).GroundIn S ↔ t.GroundIn S ∧ n.GroundIn S := by
  simp [GroundIn, NatTerm.GroundIn]

theorem GroundIn.component (h : t.GroundIn S) (hu : u ∈ t.components) : u.GroundIn S :=
  Ground.component h (mem_components_subst S hu)

end Ty

theorem NatTerm.groundIn_inst {S : Substitution} {I : Instantiation}
    (hI : ∀ {m u}, I.nats.get? m = some u → u.GroundIn S) {n : NatTerm} (hn : n.Ground) :
    (n.inst I).GroundIn S := by
  cases n with
  | const => exact hn
  | undet => exact absurd rfl (hn _ (List.mem_singleton_self _))
  | var name =>
    have image : (var name).inst I = (I.nats.get? name).getD (var name) := rfl
    rw [image]
    cases hm : I.nats.get? name with
    | none => exact hn
    | some u => exact hI hm

namespace Ty

theorem groundIn_inst {S : Substitution} {I : Instantiation}
    (types : ∀ {m u}, I.types.get? m = some u → u.GroundIn S)
    (nats : ∀ {m u}, I.nats.get? m = some u → u.GroundIn S) {t : Ty} (ht : t.Ground) :
    (t.inst I).GroundIn S := by
  induction t generalizing I with
  | prim => simp [GroundIn]
  | undet => exact absurd ht not_ground_undet
  | var p =>
    rw [inst_var]
    cases hp : I.types.get? p.name with
    | none => simp [GroundIn]
    | some u => exact types hp
  | tuple elems ih =>
    rw [inst_tuple, groundIn_tuple]
    exact List.forall_mem_map.mpr fun t hm => ih t hm types nats (ground_tuple.mp ht t hm)
  | array elem length ih =>
    obtain ⟨elem, length⟩ := ground_array.mp ht
    rw [inst_array, groundIn_array]
    exact ⟨ih types nats elem, NatTerm.groundIn_inst nats length⟩
  | struct decl typeArgs natArgs ih =>
    obtain ⟨args, lengths⟩ := ground_struct.mp ht
    rw [GroundIn, inst_struct, subst_struct, ground_struct]
    constructor
    · exact List.forall_mem_map.mpr (List.forall_mem_map.mpr fun t hm =>
        ih t hm types nats (args t hm))
    · exact List.forall_mem_map.mpr (List.forall_mem_map.mpr fun n hm =>
        NatTerm.groundIn_inst nats (lengths n hm))
  | fn params result generics ihp ihr =>
    obtain ⟨params, result⟩ := ground_fn.mp ht
    have types' : ∀ {m u}, (I.without generics).types.get? m = some u → u.GroundIn S := by
      intro m u hu
      rw [Instantiation.types_without] at hu
      split at hu
      · cases hu
      · exact types hu
    have nats' : ∀ {m u}, (I.without generics).nats.get? m = some u → u.GroundIn S := by
      intro m u hu
      rw [Instantiation.nats_without] at hu
      split at hu
      · cases hu
      · exact nats hu
    rw [GroundIn, inst_fn, subst_fn, ground_fn]
    constructor
    · exact List.forall_mem_map.mpr (List.forall_mem_map.mpr fun p hp =>
        ihp p hp types' nats' (params p hp))
    · exact ihr types' nats' result
  | option inner ih =>
    rw [GroundIn, inst_option, subst_option, ground_option]
    exact ih types nats ht

end Ty

theorem StructDecl.groundIn_of_instantiateFields {S : Substitution} {d : StructDecl}
    {types : List Ty} {nats : List NatTerm} {fields : List Field}
    (hd : ∀ f ∈ d.fields, f.type.Ground) (ht : (Ty.struct d types nats).GroundIn S)
    (h : d.instantiateFields types nats = .ok fields) : ∀ f ∈ fields, f.type.GroundIn S := by
  rw [Ty.GroundIn, Ty.subst_struct, Ty.ground_struct, List.forall_mem_map,
    List.forall_mem_map] at ht
  unfold instantiateFields at h
  split at h
  · cases h
    refine List.forall_mem_map.mpr fun f hf => ?_
    rw [Instantiation.apply_eq]
    refine Ty.groundIn_inst (fun {m u} hu => ?_) (fun {m n} hn => ?_) (hd f hf)
    · rw [Instantiation.pair, Dict.get?_ofListFirst] at hu
      obtain ⟨before, after, split, -⟩ := List.lookup_eq_some_iff.mp hu
      have mem : (m, u) ∈ d.params.typeNames.zip types := by simp [split]
      exact ht.1 u (List.of_mem_zip mem).2
    · rw [Instantiation.pair, Dict.get?_ofListFirst] at hn
      obtain ⟨before, after, split, -⟩ := List.lookup_eq_some_iff.mp hn
      have mem : (m, n) ∈ d.params.nats.zip nats := by simp [split]
      exact ht.2 n (List.of_mem_zip mem).2
  · cases h

namespace Ty

/-! ## Types that may stay open -/

/-- Once the substitution is put in, nothing is left to be inferred but a whole type, or elements
    of tuples and arrays. -/
inductive LooseIn (S : Substitution) : Ty → Prop
  | ground {t : Ty} : t.GroundIn S → LooseIn S t
  | undet (k : Stamp) : LooseIn S (.undet k)
  | tuple {ts : List Ty} : (∀ t ∈ ts, LooseIn S t) → LooseIn S (.tuple ts)
  | array {t : Ty} {n : NatTerm} : LooseIn S t → n.GroundIn S → LooseIn S (.array t n)

namespace LooseIn

variable {S S' : Substitution} {t u : Ty}

theorem component (h : t.LooseIn S) (hu : u ∈ t.components) : u.LooseIn S := by
  cases h with
  | ground h => exact .ground (h.component hu)
  | undet => cases hu
  | tuple h => exact h u hu
  | array h _ =>
    cases List.mem_singleton.mp hu
    exact h

theorem struct {d : StructDecl} {ts : List Ty} {ns : List NatTerm}
    (h : (Ty.struct d ts ns).LooseIn S) : (Ty.struct d ts ns).GroundIn S := by
  cases h with
  | ground h => exact h

theorem length {n : NatTerm} (h : (Ty.array t n).LooseIn S) : n.GroundIn S := by
  cases h with
  | ground h => exact (groundIn_array.mp h).2
  | array _ h => exact h

/-- **What has been found out may be put in**, if it leaves no more to be inferred. -/
theorem subst (hr : S'.Refines S) (hS : ∀ {k u}, S'.types.get? k = some u → u.LooseIn S)
    (h : t.LooseIn S) : (t.subst S').LooseIn S := by
  induction h with
  | ground h => exact .ground ((groundIn_subst hr).mpr h)
  | undet k =>
    rw [subst_undet]
    cases hk : S'.types.get? k with
    | none => exact .undet k
    | some u => exact hS hk
  | tuple _ ih =>
    rw [subst_tuple]
    exact .tuple (List.forall_mem_map.mpr ih)
  | array _ hn ih =>
    rw [subst_array]
    exact .array ih ((NatTerm.groundIn_subst hr).mpr hn)

end LooseIn

end Ty

end QuantumStatics
