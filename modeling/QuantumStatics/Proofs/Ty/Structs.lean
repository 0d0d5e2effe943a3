/-
  The struct types that a type leads to.

  A struct type carries its declaration, so a type leads to the struct types in it, to those in the
  fields of their declarations, and so on.  `Ty.eachStruct Q` says that all of them satisfy `Q`,
  which looks at the declaration and at the numbers of the arguments.
-/
import QuantumStatics.Proofs.Ty.Instantiation
import QuantumStatics.Proofs.Unification.Runs

namespace QuantumStatics

mutual

/-- Whether every struct type that a type leads to satisfies `Q`. -/
def Ty.eachStruct (Q : StructDecl → Nat → Nat → Bool) : Ty → Bool
  | .prim _ _ | .var _ | .undet _ => true
  | .tuple elems => Ty.eachStructAll Q elems
  | .array elem _ => elem.eachStruct Q
  | .struct decl typeArgs natArgs =>
    Q decl typeArgs.length natArgs.length && decl.eachStruct Q && Ty.eachStructAll Q typeArgs
  | .fn params result _ => Ty.eachStructParams Q params && result.eachStruct Q
  | .option inner => inner.eachStruct Q

/-- The same for some types. -/
def Ty.eachStructAll (Q : StructDecl → Nat → Nat → Bool) : List Ty → Bool
  | [] => true
  | t :: ts => t.eachStruct Q && Ty.eachStructAll Q ts

/-- The same for the parameters of a function type. -/
def Ty.eachStructParams (Q : StructDecl → Nat → Nat → Bool) : List ParamType → Bool
  | [] => true
  | ⟨t, _⟩ :: ps => t.eachStruct Q && Ty.eachStructParams Q ps

/-- Whether every struct type that a declaration leads to satisfies `Q`. -/
def StructDecl.eachStruct (Q : StructDecl → Nat → Nat → Bool) : StructDecl → Bool
  | ⟨_, _, fields⟩ => Ty.eachStructFields Q fields

/-- The same for fields. -/
def Ty.eachStructFields (Q : StructDecl → Nat → Nat → Bool) : List Field → Bool
  | [] => true
  | ⟨_, t⟩ :: fs => t.eachStruct Q && Ty.eachStructFields Q fs

end

section

variable {Q : StructDecl → Nat → Nat → Bool}

namespace Ty

attribute [local simp] eachStruct eachStructAll eachStructParams

@[simp] theorem eachStructAll_iff {ts : List Ty} :
    eachStructAll Q ts ↔ ∀ t ∈ ts, t.eachStruct Q := by
  induction ts with
  | nil => simp
  | cons t ts ih => simp [ih]

@[simp] theorem eachStructParams_iff {ps : List ParamType} :
    eachStructParams Q ps ↔ ∀ p ∈ ps, p.type.eachStruct Q := by
  induction ps with
  | nil => simp
  | cons p ps ih =>
    obtain ⟨t, ownership⟩ := p
    simp [ih]

theorem eachStruct_struct {d : StructDecl} {ts : List Ty} {ns : List NatTerm} :
    (struct d ts ns).eachStruct Q ↔
      Q d ts.length ns.length ∧ d.eachStruct Q ∧ ∀ t ∈ ts, t.eachStruct Q := by
  rw [eachStruct, Bool.and_eq_true, Bool.and_eq_true, eachStructAll_iff, and_assoc]

end Ty

theorem StructDecl.eachStruct_iff {d : StructDecl} :
    d.eachStruct Q ↔ ∀ f ∈ d.fields, f.type.eachStruct Q := by
  obtain ⟨name, params, fields⟩ := d
  rw [eachStruct]
  induction fields with
  | nil => simp [Ty.eachStructFields]
  | cons f fs ih =>
    obtain ⟨name, t⟩ := f
    rw [Ty.eachStructFields, Bool.and_eq_true, ih, List.forall_mem_cons]

namespace Ty

theorem eachStruct_of_mem_components {t u : Ty} (h : t.eachStruct Q) (hu : u ∈ t.components) :
    u.eachStruct Q := by
  cases t with
  | prim | var | undet => cases hu
  | tuple elems => exact eachStructAll_iff.mp h u hu
  | array elem length =>
    cases List.mem_singleton.mp hu
    exact h
  | struct decl typeArgs natArgs => exact (eachStruct_struct.mp h).2.2 u hu
  | fn params result generics =>
    obtain ⟨hp, hr⟩ := Bool.and_eq_true_iff.mp h
    rcases List.mem_append.mp hu with hu | hu
    · obtain ⟨p, hm, rfl⟩ := List.mem_map.mp hu
      exact eachStructParams_iff.mp hp p hm
    · cases List.mem_singleton.mp hu
      exact hr
  | option inner =>
    cases List.mem_singleton.mp hu
    exact h

/-- **Replacing what has been found out** leads to no struct types but those of the images. -/
theorem eachStruct_subst {S : Substitution}
    (hS : ∀ {k u}, S.types.get? k = some u → u.eachStruct Q) {t : Ty} (h : t.eachStruct Q) :
    (t.subst S).eachStruct Q := by
  induction t with
  | prim name cls => rwa [subst_prim]
  | var p => rwa [subst_var]
  | undet stamp =>
    rw [subst_undet]
    cases hk : S.types.get? stamp with
    | none => rfl
    | some u => exact hS hk
  | tuple elems ih => simp_all [eachStruct]
  | array elem length ih => simp_all [eachStruct]
  | struct decl typeArgs natArgs ih => simp_all [eachStruct_struct]
  | fn params result generics ihp ihr => simp_all [eachStruct, ParamType.subst]
  | option inner ih => simp_all [eachStruct]

/-- **Instantiating** leads to no struct types but those of the arguments. -/
theorem eachStruct_inst {I : Instantiation}
    (hI : ∀ {n u}, I.types.get? n = some u → u.eachStruct Q) {t : Ty} (h : t.eachStruct Q) :
    (t.inst I).eachStruct Q := by
  induction t generalizing I with
  | prim name cls => rwa [inst_prim]
  | undet stamp => rwa [inst_undet]
  | var p =>
    rw [inst_var]
    cases hp : I.types.get? p.name with
    | none => rfl
    | some u => exact hI hp
  | tuple elems ih =>
    simp only [inst_tuple, eachStruct, eachStructAll_iff, List.forall_mem_map] at h ⊢
    exact fun t ht => ih t ht hI (h t ht)
  | array elem length ih =>
    rw [inst_array]
    exact ih hI h
  | struct decl typeArgs natArgs ih =>
    simp only [inst_struct, eachStruct_struct, List.length_map, List.forall_mem_map] at h ⊢
    exact ⟨h.1, h.2.1, fun t ht => ih t ht hI (h.2.2 t ht)⟩
  | fn params result generics ihp ihr =>
    have outside : ∀ {n u}, (I.without generics).types.get? n = some u → u.eachStruct Q := by
      intro n u hu
      rw [Instantiation.types_without] at hu
      split at hu
      · cases hu
      · exact hI hu
    simp only [inst_fn, eachStruct, Bool.and_eq_true, eachStructParams_iff,
      List.forall_mem_map] at h ⊢
    exact ⟨fun p hp => ihp p hp outside (h.1 p hp), ihr outside h.2⟩
  | option inner ih =>
    rw [inst_option]
    exact ih hI h

end Ty

/-- **The fields of a struct type** lead to struct types that the type leads to, with arguments
    put in. -/
theorem StructDecl.eachStruct_of_instantiateFields {d : StructDecl} {types : List Ty}
    {nats : List NatTerm} {fields : List Field} (hd : (Ty.struct d types nats).eachStruct Q)
    (h : d.instantiateFields types nats = .ok fields) : ∀ f ∈ fields, f.type.eachStruct Q := by
  obtain ⟨-, declaration, args⟩ := Ty.eachStruct_struct.mp hd
  unfold instantiateFields at h
  split at h
  · cases h
    refine List.forall_mem_map.mpr fun f hf => ?_
    rw [Instantiation.apply_eq]
    refine Ty.eachStruct_inst (fun {n u} hu => ?_) (StructDecl.eachStruct_iff.mp declaration f hf)
    rw [Instantiation.pair, Dict.get?_ofListFirst] at hu
    obtain ⟨before, after, split, -⟩ := List.lookup_eq_some_iff.mp hu
    have mem : (n, u) ∈ d.params.typeNames.zip types := by simp [split]
    exact args u (List.of_mem_zip mem).2
  · cases h

end

/-! ## Numbers of arguments -/

/-- Whether every struct is applied to as many arguments as it takes. -/
def Ty.applied (t : Ty) : Bool :=
  t.eachStruct fun d types nats => types = d.params.types.length ∧ nats = d.params.nats.length

theorem StructDecl.exists_instantiateFields {d : StructDecl} {types : List Ty}
    {nats : List NatTerm} (h : (Ty.struct d types nats).applied) :
    ∃ fields, d.instantiateFields types nats = .ok fields := by
  have count := of_decide_eq_true (Ty.eachStruct_struct.mp h).1
  rw [instantiateFields, if_pos count]
  exact ⟨_, rfl⟩

end QuantumStatics
