/-
  Types that leave nothing to be inferred.

  A struct type carries its declaration, and what the types of the fields mention is not among the
  variables of the type.  A type is determined if neither it nor a declaration that it leads to, at
  any depth, mentions an undetermined type or nat.
-/
import QuantumStatics.Proofs.Ty.Structs

namespace QuantumStatics

mutual

/-- Whether the declarations that a type leads to mention nothing that is to be inferred. -/
def Ty.declared : Ty → Bool
  | .prim _ _ | .var _ | .undet _ => true
  | .tuple elems => Ty.declaredAll elems
  | .array elem _ => elem.declared
  | .struct decl typeArgs _ => decl.determined && Ty.declaredAll typeArgs
  | .fn params result _ => Ty.declaredParams params && result.declared
  | .option inner => inner.declared

/-- The same for some types. -/
def Ty.declaredAll : List Ty → Bool
  | [] => true
  | t :: ts => t.declared && Ty.declaredAll ts

/-- Whether the declarations that the parameters of a function type lead to mention nothing that
    is to be inferred. -/
def Ty.declaredParams : List ParamType → Bool
  | [] => true
  | ⟨t, _⟩ :: ps => t.declared && Ty.declaredParams ps

/-- Whether a declaration mentions nothing that is to be inferred, at any depth. -/
def StructDecl.determined : StructDecl → Bool
  | ⟨_, _, fields⟩ => Ty.determinedFields fields

/-- Whether some fields mention nothing that is to be inferred, at any depth. -/
def Ty.determinedFields : List Field → Bool
  | [] => true
  | ⟨_, t⟩ :: fs => !t.hasUndetermined && t.declared && Ty.determinedFields fs

end

/-- Whether neither a type nor a declaration that it leads to mentions something that is to be
    inferred. -/
def Ty.determined (t : Ty) : Bool := !t.hasUndetermined && t.declared

/-- Whether the fields of a struct mention nothing that is to be inferred. -/
def StructDecl.plain (d : StructDecl) : Bool := d.fields.all fun f => !f.type.hasUndetermined

theorem StructDecl.determined_iff {d : StructDecl} :
    d.determined ↔ ∀ f ∈ d.fields, f.type.determined := by
  obtain ⟨name, params, fields⟩ := d
  rw [determined]
  induction fields with
  | nil => simp [Ty.determinedFields]
  | cons f fs ih =>
    obtain ⟨name, t⟩ := f
    rw [Ty.determinedFields, Bool.and_eq_true, ih, List.forall_mem_cons, Ty.determined]

namespace Ty

theorem not_isUndetermined_of_determined {t : Ty} (h : t.determined) :
    ∀ v ∈ t.vars, ¬ v.isUndetermined := by
  intro v hv hu
  have : t.hasUndetermined := hasUndetermined_iff.mpr ⟨v, hv, hu⟩
  simp [determined, this] at h

theorem declared_of_determined {t : Ty} (h : t.determined) : t.declared :=
  (Bool.and_eq_true_iff.mp h).2

@[simp] theorem declaredAll_iff {ts : List Ty} : declaredAll ts ↔ ∀ t ∈ ts, t.declared := by
  induction ts with
  | nil => simp [declaredAll]
  | cons t ts ih => simp [declaredAll, ih]

@[simp] theorem declaredParams_iff {ps : List ParamType} :
    declaredParams ps ↔ ∀ p ∈ ps, p.type.declared := by
  induction ps with
  | nil => simp [declaredParams]
  | cons p ps ih =>
    obtain ⟨t, ownership⟩ := p
    simp [declaredParams, ih]

end Ty

mutual

theorem Ty.declared_eq : ∀ t : Ty, t.declared = t.eachStruct fun d _ _ => d.plain
  | .prim _ _ | .var _ | .undet _ => rfl
  | .tuple elems => Ty.declaredAll_eq elems
  | .array elem _ => elem.declared_eq
  | .struct decl typeArgs natArgs => by
    rw [Ty.declared, Ty.eachStruct, decl.determined_eq, Ty.declaredAll_eq typeArgs]
  | .fn params result _ => by
    rw [Ty.declared, Ty.eachStruct, Ty.declaredParams_eq params, result.declared_eq]
  | .option inner => inner.declared_eq

theorem Ty.declaredAll_eq : ∀ ts : List Ty,
    Ty.declaredAll ts = Ty.eachStructAll (fun d _ _ => d.plain) ts
  | [] => rfl
  | t :: ts => by rw [Ty.declaredAll, Ty.eachStructAll, t.declared_eq, Ty.declaredAll_eq ts]

theorem Ty.declaredParams_eq : ∀ ps : List ParamType,
    Ty.declaredParams ps = Ty.eachStructParams (fun d _ _ => d.plain) ps
  | [] => rfl
  | ⟨t, _⟩ :: ps => by
    rw [Ty.declaredParams, Ty.eachStructParams, t.declared_eq, Ty.declaredParams_eq ps]

theorem StructDecl.determined_eq : ∀ d : StructDecl,
    d.determined = (d.plain && d.eachStruct fun d _ _ => d.plain)
  | ⟨_, _, fields⟩ => Ty.determinedFields_eq fields

theorem Ty.determinedFields_eq : ∀ fs : List Field, Ty.determinedFields fs =
    ((fs.all fun f => !f.type.hasUndetermined) && Ty.eachStructFields (fun d _ _ => d.plain) fs)
  | [] => rfl
  | ⟨_, t⟩ :: fs => by
    rw [Ty.determinedFields, Ty.eachStructFields, t.declared_eq, Ty.determinedFields_eq fs]
    simp only [List.all_cons, Bool.and_assoc, Bool.and_left_comm]

end

namespace Ty

theorem declared_of_mem_components {t u : Ty} (h : t.declared) (hu : u ∈ t.components) :
    u.declared := by
  rw [declared_eq] at h ⊢
  exact eachStruct_of_mem_components h hu

/-- **Replacing what has been found out** adds no declarations but those of the images. -/
theorem declared_subst {S : Substitution} (hS : ∀ {k u}, S.types.get? k = some u → u.declared)
    {t : Ty} (h : t.declared) : (t.subst S).declared := by
  simp only [declared_eq] at hS h ⊢
  exact eachStruct_subst hS h

/-- **Instantiating** adds no declarations but those of the arguments. -/
theorem declared_inst {I : Instantiation} (hI : ∀ {n u}, I.types.get? n = some u → u.declared)
    {t : Ty} (h : t.declared) : (t.inst I).declared := by
  simp only [declared_eq] at hI h ⊢
  exact eachStruct_inst hI h

end Ty

theorem StructDecl.declared_of_instantiateFields {d : StructDecl} {types : List Ty}
    {nats : List NatTerm} {fields : List Field} (hd : (Ty.struct d types nats).declared)
    (h : d.instantiateFields types nats = .ok fields) : ∀ f ∈ fields, f.type.declared := by
  simp only [Ty.declared_eq] at hd ⊢
  exact StructDecl.eachStruct_of_instantiateFields hd h

end QuantumStatics
