/-
  Types with other declarations.

  A struct type carries its declaration.  `Ty.relink` puts other declarations in the place of those
  that a type carries, and `SignatureTable.relinked` those that a table has registered, in the fields
  of these again, and so on down to a given depth.
-/
import QuantumStatics.Proofs.Ty.Structs
import QuantumStatics.Proofs.Ty.Subterms
import QuantumStatics.Signature.Table

namespace QuantumStatics

mutual

/-- A type with other declarations in the place of those that it carries. -/
def Ty.relink (D : StructDecl → StructDecl) : Ty → Ty
  | .prim name cls => .prim name cls
  | .var p => .var p
  | .undet stamp => .undet stamp
  | .tuple elems => .tuple (Ty.relinkAll D elems)
  | .array elem length => .array (elem.relink D) length
  | .struct decl typeArgs natArgs => .struct (D decl) (Ty.relinkAll D typeArgs) natArgs
  | .fn params result generics => .fn (Ty.relinkParams D params) (result.relink D) generics
  | .option inner => .option (inner.relink D)

/-- The same for some types. -/
def Ty.relinkAll (D : StructDecl → StructDecl) : List Ty → List Ty
  | [] => []
  | t :: ts => t.relink D :: Ty.relinkAll D ts

/-- The same for the parameters of a function type. -/
def Ty.relinkParams (D : StructDecl → StructDecl) : List ParamType → List ParamType
  | [] => []
  | ⟨t, ownership⟩ :: ps => ⟨t.relink D, ownership⟩ :: Ty.relinkParams D ps

end

/-- The declaration that a table has registered under the name of a declaration.  If a depth is
    left, its fields have registered declarations, too. -/
def SignatureTable.relinked (T : SignatureTable) : Nat → StructDecl → StructDecl
  | 0, d => (T.findStruct? d.name).getD d
  | depth + 1, d =>
    let registered := (T.findStruct? d.name).getD d
    { registered with
      fields := registered.fields.map fun f => ⟨f.name, f.type.relink (T.relinked depth)⟩ }

namespace Ty

variable {D : StructDecl → StructDecl}

theorem relinkAll_eq_map (ts : List Ty) : relinkAll D ts = ts.map (relink D) :=
  companion_eq_map rfl (fun _ _ => rfl) ts

theorem relinkParams_eq_map (ps : List ParamType) :
    relinkParams D ps = ps.map fun p => ⟨p.type.relink D, p.ownership⟩ := by
  refine companion_eq_map rfl ?_ ps
  rintro ⟨t, ownership⟩ ps
  rfl

theorem components_relink (t : Ty) : (t.relink D).components = t.components.map (relink D) := by
  cases t with
  | prim | var | undet => rfl
  | tuple elems => exact relinkAll_eq_map elems
  | struct decl typeArgs natArgs => exact relinkAll_eq_map typeArgs
  | array | option => rfl
  | fn params result generics =>
    simp [relink, components, relinkParams_eq_map, Function.comp_def]

/-- **What holds throughout a type with other declarations**: it has to hold of what becomes of each
    type within. -/
theorem forall_subterms_relink {P : Ty → Prop} {t : Ty} (h : ∀ u ∈ t.subterms, P (u.relink D)) :
    ∀ u ∈ (t.relink D).subterms, P u := by
  induction t using componentInduction with
  | step t ih =>
    obtain ⟨head, components⟩ := forall_mem_subterms.mp h
    refine forall_mem_subterms.mpr ⟨head, ?_⟩
    rw [components_relink]
    exact List.forall_mem_map.mpr fun c hc => ih c hc (components c hc)

/-- **Equality does not look at declarations** but for their names. -/
theorem skeleton_relink {t : Ty}
    (h : ∀ d ts ns, .struct d ts ns ∈ t.subterms → (D d).name = d.name) :
    (t.relink D).skeleton = t.skeleton := by
  induction t using componentInduction with
  | step t ih =>
    have component : ∀ c ∈ t.components, (c.relink D).skeleton = c.skeleton := fun c hc =>
      ih c hc fun d ts ns hd => h d ts ns (mem_subterms_of_component hc hd)
    cases t with
    | prim | var | undet => rfl
    | tuple elems => simpa [relink, skeleton, relinkAll_eq_map, components] using component
    | array elem length => rw [relink, skeleton, skeleton, component elem List.mem_cons_self]
    | struct decl typeArgs natArgs =>
      have name := h decl typeArgs natArgs (mem_subterms_self _)
      simpa [relink, skeleton, relinkAll_eq_map, components, name] using component
    | fn params result generics =>
      have param : ∀ p ∈ params, (p.type.relink D).skeleton = p.type.skeleton := fun p hp =>
        component p.type (List.mem_append_left _ (List.mem_map_of_mem hp))
      have result' := component result (List.mem_append_right _ List.mem_cons_self)
      simpa [relink, skeleton, relinkParams_eq_map, result', skeletonParam] using param
    | option inner => rw [relink, skeleton, skeleton, component inner List.mem_cons_self]

end Ty

/-! ## Declarations -/

variable {Q : StructDecl → Nat → Nat → Bool} {t : Ty}

theorem Ty.eachStruct_iff_components :
    t.eachStruct Q ↔ (∀ d ts ns, t = .struct d ts ns → Q d ts.length ns.length ∧ d.eachStruct Q) ∧
      ∀ c ∈ t.components, c.eachStruct Q := by
  cases t with
  | struct decl typeArgs natArgs => simp [eachStruct_struct, components, and_assoc]
  | fn params result generics =>
    simp only [eachStruct, components, Bool.and_eq_true, eachStructParams_iff,
      List.forall_mem_append, List.forall_mem_map, List.forall_mem_singleton, reduceCtorEq,
      false_imp_iff, implies_true, true_and]
  | _ => simp [eachStruct, components]

theorem Ty.eachStruct_iff_subterms :
    t.eachStruct Q ↔ ∀ d ts ns, .struct d ts ns ∈ t.subterms →
      Q d ts.length ns.length ∧ d.eachStruct Q := by
  induction t using componentInduction with
  | step t ih =>
    rw [eachStruct_iff_components]
    constructor
    · rintro ⟨own, components⟩ d ts ns hd
      rcases mem_subterms.mp hd with same | ⟨c, hc, hd⟩
      · exact own d ts ns same.symm
      · exact (ih c hc).mp (components c hc) d ts ns hd
    · intro h
      refine ⟨fun d ts ns same => h d ts ns (same ▸ mem_subterms_self t), fun c hc => ?_⟩
      exact (ih c hc).mpr fun d ts ns hd => h d ts ns (mem_subterms_of_component hc hd)

namespace StructDecl

/-- What two declarations of one struct have to agree in about a field. -/
def fieldKey (f : Field) : String × Ty := (f.name, f.type.skeleton)

theorem fieldsAgree_iff {fs fs' : List Field} :
    same.fieldsAgree fs fs' ↔ fs.map fieldKey = fs'.map fieldKey := by
  induction fs generalizing fs' with
  | nil => cases fs' <;> simp [same.fieldsAgree]
  | cons f fs ih =>
    cases fs' with
    | nil => simp [same.fieldsAgree]
    | cons f' fs' => simp [same.fieldsAgree, ih, fieldKey, Ty.equal_iff]

theorem same_iff {d d' : StructDecl} : d.same d' ↔ d.name = d'.name ∧ d.params = d'.params ∧
    d.fields.map fieldKey = d'.fields.map fieldKey := by
  rw [same, Bool.and_eq_true, Bool.and_eq_true, decide_eq_true_iff, decide_eq_true_iff,
    fieldsAgree_iff, and_assoc]

end StructDecl

end QuantumStatics
