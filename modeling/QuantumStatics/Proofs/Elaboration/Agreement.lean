/-
  Declared types mean what the table says.

  Equality compares structs by name, but the class and the fields of a struct type follow the
  declaration that it carries.  The check of declared types compares this declaration with the
  registered one, field by field and up to equality, so it does not see the declarations that the
  fields carry.

  * `Upheld.sound_relink`, `upheld_relinked`: putting in the registered declarations keeps to types
    that pass the check at any depth;
  * `equal_declared_types_agree`: equal types that pass the check have equal fields, and they have
    the class that they have with the registered declarations if the check is passed at any depth;
  * `carried_declarations_tell_apart`: otherwise they may have different classes.
-/
import QuantumStatics.Proofs.Classification.Bounds
import QuantumStatics.Proofs.Elaboration.Vocabulary
import QuantumStatics.Proofs.Program.Headers
import QuantumStatics.Proofs.Ty.Relinking

namespace QuantumStatics

namespace Ty

/-! ## Types of one class -/

/-- Two types have a class, and the same one. -/
def SameClass (t u : Ty) : Prop := ∃ c, t.classify = .ok c ∧ u.classify = .ok c

theorem sameClass_prim (name name' : String) (cls : OwnershipClass) :
    (prim name cls).SameClass (prim name' cls) := by
  refine ⟨cls, ?_, ?_⟩ <;> rw [classify_of_parts rfl, classifyAll]

variable {α : Type} {t u : Ty} {c : OwnershipClass} {ns ns' : List NatTerm}

theorem classifyAll_map_eq_ok {f f' : α → Ty} {l : List α} (h : ∀ a ∈ l, (f a).SameClass (f' a))
    (c₀ : OwnershipClass) :
    ∃ c, classifyAll c₀ (l.map f) = .ok c ∧ classifyAll c₀ (l.map f') = .ok c := by
  induction l generalizing c₀ with
  | nil =>
    rw [List.map_nil, List.map_nil, classifyAll]
    exact ⟨c₀, rfl, rfl⟩
  | cons a l ih =>
    obtain ⟨⟨c, ha, ha'⟩, hl⟩ := List.forall_mem_cons.mp h
    obtain ⟨c₁, rest, rest'⟩ := ih hl (c₀.join c)
    rw [List.map_cons, List.map_cons, classifyAll, classifyAll]
    exact ⟨c₁, except_bind_eq_ok.mpr ⟨c, ha, rest⟩, except_bind_eq_ok.mpr ⟨c, ha', rest'⟩⟩

theorem sameClass_of_parts {f f' : α → Ty} {l : List α} (ht : t.parts = .ok (c, l.map f))
    (hu : u.parts = .ok (c, l.map f')) (h : ∀ a ∈ l, (f a).SameClass (f' a)) : t.SameClass u := by
  obtain ⟨c', all, all'⟩ := classifyAll_map_eq_ok h c
  exact ⟨c', (classify_of_parts ht).trans all, (classify_of_parts hu).trans all'⟩

theorem sameClass_of_part {v w : Ty} (ht : t.parts = .ok (c, [v])) (hu : u.parts = .ok (c, [w]))
    (h : v.SameClass w) : t.SameClass u :=
  @sameClass_of_parts (Ty × Ty) t u c Prod.fst Prod.snd [(v, w)] ht hu
    (List.forall_mem_singleton.mpr h)

theorem sameClass_struct {d d' : StructDecl} {ts ts' : List Ty}
    (count : ts.length = d.params.types.length ∧ ns.length = d.params.nats.length)
    (count' : ts'.length = d'.params.types.length ∧ ns'.length = d'.params.nats.length)
    {l : List (Field × Field)} (hl : d.fields = l.map Prod.fst) (hl' : d'.fields = l.map Prod.snd)
    (h : ∀ x ∈ l, (x.1.type.inst (.pair d.params ts ns)).SameClass
      (x.2.type.inst (.pair d'.params ts' ns'))) :
    (struct d ts ns).SameClass (struct d' ts' ns') := by
  have parts := parts_struct count
  have parts' := parts_struct count'
  rw [hl, List.map_map] at parts
  rw [hl', List.map_map] at parts'
  exact sameClass_of_parts parts parts' h

theorem sameClass_varIn_pair {g : Generics} {args : List α} {f f' : α → Ty}
    (count : args.length = g.types.length) (h : ∀ a ∈ args, (f a).SameClass (f' a))
    {p q : TypeParam} (name : p.name = q.name) (known : p.name ∈ g.typeNames) :
    (varIn (.pair g (args.map f) ns) p).SameClass (varIn (.pair g (args.map f') ns') q) := by
  have length : args.length = g.typeNames.length := by simp [Generics.typeNames, count]
  obtain ⟨a, ha⟩ := Option.isSome_iff_exists.mp ((isSome_lookup_zip length).mpr known)
  simp only [varIn, Instantiation.pair, Dict.get?_ofListFirst, lookup_zip_map, ← name, ha,
    Option.map_some, Option.getD_some]
  exact h a (List.of_mem_zip (Instantiation.mem_of_lookup ha)).2

/-- Whether the leaf types within a type have the classes of their names. -/
def leavesBy (leaf : String → OwnershipClass) (t : Ty) : Bool :=
  t.subterms.all fun
    | .prim name cls => cls = leaf name
    | _ => true

/-- The type variables that the class of a type depends on have the bounds of the generic parameters
    of their names. -/
def CarriesBounds (g : Generics) (t : Ty) : Prop :=
  ∀ p ∈ t.boundedVars, ∀ q, g.findType p.name = some q → p.boundClass = q.boundClass

theorem boundedVars_relink (D : StructDecl → StructDecl) (t : Ty) :
    (t.relink D).boundedVars = t.boundedVars := by
  induction t with
  | prim | var | undet | fn => rfl
  | array elem length ih => exact ih
  | option inner ih => exact ih
  | tuple elems ih =>
    rw [relink, boundedVars, boundedVars, relinkAll_eq_map, boundedVarsAll_eq, boundedVarsAll_eq,
      List.flatMap_map]
    exact List.flatMap_congr ih
  | struct decl typeArgs natArgs ih =>
    rw [relink, boundedVars, boundedVars, relinkAll_eq_map, boundedVarsAll_eq, boundedVarsAll_eq,
      List.flatMap_map]
    exact List.flatMap_congr ih

end Ty

namespace Elaboration

variable {T : SignatureTable} {location : Location} {leaf : String → OwnershipClass}
  {d d' : StructDecl} {g : Generics} {t : Ty} {ts ts' : List Ty} {ns ns' : List NatTerm}

/-! ## Types that pass the check at any depth -/

/-- Whether the types of the fields of a declaration pass the check of declared types, and their
    leaves have the classes of their names. -/
def upright (T : SignatureTable) (location : Location) (leaf : String → OwnershipClass)
    (d : StructDecl) : Bool :=
  d.fields.all fun f => (checkType T d.params location f.type).isOk && f.type.leavesBy leaf

/-- The leaves of a type have the classes of their names, and every struct that it leads to has
    fields that pass the check. -/
structure Thorough (T : SignatureTable) (location : Location) (leaf : String → OwnershipClass)
    (t : Ty) : Prop where
  leaves : t.leavesBy leaf
  structs : t.eachStruct fun d _ _ => upright T location leaf d

theorem upright_iff : upright T location leaf d ↔ ∀ f ∈ d.fields,
    (∀ u ∈ f.type.subterms, Declarable T d.params u) ∧ f.type.leavesBy leaf := by
  have passes : ∀ {t : Ty}, (checkType T d.params location t).isOk ↔
      ∀ u ∈ t.subterms, Declarable T d.params u := by
    intro t
    rw [isOk_iff, checkType_eq_ok_iff]
  simp only [upright, List.all_eq_true, Bool.and_eq_true, passes]

namespace Thorough

variable {t c : Ty}

theorem component (h : Thorough T location leaf t) (hc : c ∈ t.components) :
    Thorough T location leaf c where
  leaves := List.all_eq_true.mpr fun u hu =>
    List.all_eq_true.mp h.leaves u (Ty.mem_subterms_of_component hc hu)
  structs := Ty.eachStruct_of_mem_components h.structs hc

theorem prim {name : String} {cls : OwnershipClass}
    (h : Thorough T location leaf (.prim name cls)) : cls = leaf name := by
  simpa [Ty.leavesBy, Ty.subterms] using h.leaves

theorem fields {d : StructDecl} {ts : List Ty} {ns : List NatTerm}
    (h : Thorough T location leaf (.struct d ts ns)) : ∀ f ∈ d.fields,
      (∀ u ∈ f.type.subterms, Declarable T d.params u) ∧ Thorough T location leaf f.type := by
  obtain ⟨own, declared, -⟩ := Ty.eachStruct_struct.mp h.structs
  intro f hf
  obtain ⟨passes, leaves⟩ := upright_iff.mp own f hf
  exact ⟨passes, leaves, StructDecl.eachStruct_iff.mp declared f hf⟩

end Thorough

/-- A type passes the check of declared types at any depth. -/
structure Sound (T : SignatureTable) (location : Location) (leaf : String → OwnershipClass)
    (g : Generics) (t : Ty) : Prop where
  passes : ∀ u ∈ t.subterms, Declarable T g u
  thorough : Thorough T location leaf t

theorem Sound.component {c : Ty} (h : Sound T location leaf g t) (hc : c ∈ t.components) :
    Sound T location leaf g c :=
  ⟨fun u hu => h.passes u (Ty.mem_subterms_of_component hc hu), h.thorough.component hc⟩

theorem Sound.head (h : Sound T location leaf g t) : Declarable T g t :=
  h.passes t (Ty.mem_subterms_self t)

/-- Declarations that are both the same as the registered one have the same parameters, and fields
    with the same names and equal types. -/
theorem fieldKeys_eq_of_declarable {g' : Generics} (h : Declarable T g (.struct d ts ns))
    (h' : Declarable T g' (.struct d' ts' ns')) (name : d.name = d'.name) :
    d.params = d'.params ∧ d.fields.map StructDecl.fieldKey = d'.fields.map StructDecl.fieldKey := by
  obtain ⟨⟨r, found, same⟩, -⟩ := h
  obtain ⟨⟨r', found', same'⟩, -⟩ := h'
  rw [← name, found] at found'
  cases found'
  obtain ⟨-, params, fields⟩ := StructDecl.same_iff.mp same
  obtain ⟨-, params', fields'⟩ := StructDecl.same_iff.mp same'
  exact ⟨params.symm.trans params', fields.symm.trans fields'⟩

open Ty in
theorem sameClass_inst {g : Generics} {J J' : Instantiation} : (t u : Ty) →
    t.skeleton = u.skeleton → Sound T location leaf g t → Sound T location leaf g u →
    (∀ p ∈ t.boundedVars, ∀ q ∈ u.boundedVars, p.name = q.name →
      (varIn J p).SameClass (varIn J' q)) →
    (t.inst J).SameClass (u.inst J')
  | .prim name cls, u, same, ht, hu, _ => by
    cases u with
    | prim name' cls' =>
      obtain ⟨rfl, -⟩ := Ty.prim.inj same
      rw [inst_prim, inst_prim, ht.thorough.prim, hu.thorough.prim]
      exact sameClass_prim _ _ _
    | _ => simp [skeleton] at same
  | .var p, u, same, _, _, vars => by
    cases u with
    | var q =>
      have name : p.name = q.name := by simpa [skeleton] using same
      rw [inst_var, inst_var]
      exact vars p (List.mem_singleton_self p) q (List.mem_singleton_self q) name
    | _ => simp [skeleton] at same
  | .undet _, _, _, ht, _, _ => ht.head.elim
  | .tuple elems, u, same, ht, hu, vars => by
    cases u with
    | tuple elems' =>
      rw [skeleton, skeleton, skeletonAll_eq_map, skeletonAll_eq_map, Ty.tuple.injEq] at same
      obtain ⟨l, hl, rfl, alike⟩ := exists_pairs_of_map_eq same
      rw [inst_tuple, inst_tuple, hl, List.map_map, List.map_map]
      refine sameClass_of_parts rfl rfl fun x hx => ?_
      have mem : x.1 ∈ elems := hl ▸ List.mem_map_of_mem hx
      have mem' : x.2 ∈ l.map Prod.snd := List.mem_map_of_mem hx
      exact sameClass_inst x.1 x.2 (alike x hx) (ht.component mem) (hu.component mem')
        fun p hp q hq => vars p (mem_boundedVarsAll.mpr ⟨_, mem, hp⟩) q
          (mem_boundedVarsAll.mpr ⟨_, mem', hq⟩)
    | _ => simp [skeleton] at same
  | .array elem length, u, same, ht, hu, vars => by
    cases u with
    | array elem' length' =>
      have alike : elem.skeleton = elem'.skeleton := (Ty.array.inj same).1
      rw [inst_array, inst_array]
      exact sameClass_of_part rfl rfl (sameClass_inst elem elem' alike
        (ht.component List.mem_cons_self) (hu.component List.mem_cons_self) vars)
    | _ => simp [skeleton] at same
  | .option inner, u, same, ht, hu, vars => by
    cases u with
    | option inner' =>
      have alike : inner.skeleton = inner'.skeleton := Ty.option.inj same
      rw [inst_option, inst_option]
      exact sameClass_of_part rfl rfl (sameClass_inst inner inner' alike
        (ht.component List.mem_cons_self) (hu.component List.mem_cons_self) vars)
    | _ => simp [skeleton] at same
  | .fn _ _ _, u, same, _, _, _ => by
    cases u with
    | fn =>
      rw [inst_fn, inst_fn]
      refine ⟨.copyable, ?_, ?_⟩ <;> rw [classify_of_parts rfl, classifyAll]
    | _ => simp [skeleton] at same
  | .struct d ts ns, u, same, ht, hu, vars => by
    cases u with
    | struct d' ts' ns' =>
      rw [skeleton, skeleton, skeletonAll_eq_map, skeletonAll_eq_map, Ty.struct.injEq,
        StructDecl.mk.injEq] at same
      obtain ⟨⟨name, -⟩, types, -⟩ := same
      obtain ⟨params, fields⟩ := fieldKeys_eq_of_declarable ht.head hu.head name
      obtain ⟨-, count, -⟩ := ht.head
      obtain ⟨-, count', -⟩ := hu.head
      obtain ⟨args, hargs, hargs', alike⟩ := exists_pairs_of_map_eq types
      obtain ⟨l, hl, hl', keys⟩ := exists_pairs_of_map_eq fields
      have sameArgs : ∀ x ∈ args, (x.1.inst J).SameClass (x.2.inst J') := by
        intro x hx
        have mem : x.1 ∈ ts := hargs ▸ List.mem_map_of_mem hx
        have mem' : x.2 ∈ ts' := hargs' ▸ List.mem_map_of_mem hx
        exact sameClass_inst x.1 x.2 (alike x hx) (ht.component mem) (hu.component mem')
          fun p hp q hq => vars p (mem_boundedVarsAll.mpr ⟨_, mem, hp⟩) q
            (mem_boundedVarsAll.mpr ⟨_, mem', hq⟩)
      rw [inst_struct, inst_struct]
      refine sameClass_struct (by simpa using count) (by simpa using count') hl hl' fun x hx => ?_
      -- The fields are compared where the parameters of the struct are in scope.
      have mem : x.1 ∈ d.fields := hl ▸ List.mem_map_of_mem hx
      have mem' : x.2 ∈ d'.fields := hl' ▸ List.mem_map_of_mem hx
      obtain ⟨passes, thorough⟩ := ht.thorough.fields x.1 mem
      obtain ⟨passes', thorough'⟩ := hu.thorough.fields x.2 mem'
      rw [← params] at passes' ⊢
      rw [hargs, hargs', List.map_map, List.map_map]
      refine sameClass_inst x.1.type x.2.type (Prod.mk.inj (keys x hx)).2 ⟨passes, thorough⟩
        ⟨passes', thorough'⟩ fun p hp q _ name => ?_
      refine sameClass_varIn_pair ?_ sameArgs name (passes _ (mem_subterms_of_boundedVars hp))
      rw [← count.1, hargs, List.length_map]
    | _ => simp [skeleton] at same
termination_by t => sizeOf t
decreasing_by
  · have := List.sizeOf_lt_of_mem mem
    simp_wf
    omega
  · simp_wf
    omega
  · simp_wf
  · have := List.sizeOf_lt_of_mem mem
    simp_wf
    omega
  · have := StructDecl.sizeOf_type_lt mem
    simp_wf
    omega

/-- **Equal types have one class**, if they pass the check at any depth and their variables have the
    bounds of the generic parameters. -/
theorem sameClass_of_skeleton_eq {u : Ty} (same : t.skeleton = u.skeleton)
    (ht : Sound T location leaf g t) (hu : Sound T location leaf g u) (bounds : t.CarriesBounds g)
    (bounds' : u.CarriesBounds g) : t.SameClass u := by
  have nothing : ∀ t : Ty, t.inst {} = t := Ty.inst_eq_self (fun _ => rfl) fun _ => rfl
  rw [← nothing t, ← nothing u]
  refine sameClass_inst t u same ht hu fun p hp q hq name => ?_
  have known : p.name ∈ g.typeNames := ht.passes _ (Ty.mem_subterms_of_boundedVars hp)
  obtain ⟨r, hr, rname⟩ := List.mem_map.mp known
  obtain ⟨s, hs⟩ := Option.isSome_iff_exists.mp
    (List.find?_isSome.mpr ⟨r, hr, decide_eq_true rname⟩ : (g.findType p.name).isSome)
  refine ⟨s.boundClass, ?_, ?_⟩
  · rw [← bounds p hp s hs]
    exact Ty.classify_var p
  · rw [← bounds' q hq s (name ▸ hs)]
    exact Ty.classify_var q

/-! ## Registered declarations -/

/-- Declarations in the place of others are the same as the registered ones, and lead to fields that
    pass the check. -/
def Upheld (T : SignatureTable) (location : Location) (leaf : String → OwnershipClass)
    (D : StructDecl → StructDecl) : Prop :=
  ∀ d r, T.findStruct? d.name = some r → r.same d →
    r.same (D d) ∧ upright T location leaf (D d) ∧
      (D d).eachStruct fun d _ _ => upright T location leaf d

namespace Upheld

variable {D : StructDecl → StructDecl} {g : Generics}

theorem name_eq (hD : Upheld T location leaf D) {d : StructDecl} {ts : List Ty} {ns : List NatTerm}
    (h : Declarable T g (.struct d ts ns)) : (D d).name = d.name := by
  obtain ⟨⟨r, found, same⟩, -⟩ := h
  obtain ⟨name, -⟩ := StructDecl.same_iff.mp same
  obtain ⟨name', -⟩ := StructDecl.same_iff.mp (hD d r found same).1
  exact name'.symm.trans name

theorem sound_relink (hD : Upheld T location leaf D) {t : Ty} (h : Sound T location leaf g t) :
    Sound T location leaf g (t.relink D) where
  passes := by
    refine Ty.forall_subterms_relink fun u hu => ?_
    have head := h.passes u hu
    cases u with
    | prim | tuple | fn | option => trivial
    | var | undet | array => exact head
    | struct d ts ns =>
      have name := hD.name_eq head
      obtain ⟨⟨r, found, same⟩, count, nats⟩ := head
      have same' := (hD d r found same).1
      have params : (D d).params = d.params :=
        (StructDecl.same_iff.mp same').2.1.symm.trans (StructDecl.same_iff.mp same).2.1
      refine ⟨⟨r, name ▸ found, same'⟩, ?_, nats⟩
      rwa [params, Ty.relinkAll_eq_map, List.length_map]
  thorough := by
    constructor
    · refine List.all_eq_true.mpr (Ty.forall_subterms_relink fun u hu => ?_)
      have leaf := List.all_eq_true.mp h.thorough.leaves u hu
      cases u with
      | prim => exact leaf
      | _ => rfl
    · refine Ty.eachStruct_iff_subterms.mpr fun d' ts' ns' hd' => ?_
      refine Ty.forall_subterms_relink (P := fun u => ∀ d' ts' ns', u = .struct d' ts' ns' →
        upright T location leaf d' ∧ d'.eachStruct fun d _ _ => upright T location leaf d)
        (fun u hu d' ts' ns' same => ?_) _ hd' d' ts' ns' rfl
      cases u with
      | struct d ts ns =>
        obtain ⟨⟨r, found, same'⟩, -⟩ := h.passes _ hu
        cases same
        exact (hD d r found same').2
      | _ => cases same

end Upheld

/-- **The registered declarations lead to fields that pass the check**, down to any depth. -/
theorem upheld_relinked (registered : ∀ n d, T.findStruct? n = some d → ∀ f ∈ d.fields,
    Sound T location leaf d.params f.type) (depth : Nat) :
    Upheld T location leaf (T.relinked depth) := by
  induction depth with
  | zero =>
    intro d r found same
    rw [SignatureTable.relinked, found, Option.getD_some]
    refine ⟨StructDecl.same_iff.mpr ⟨rfl, rfl, rfl⟩, upright_iff.mpr fun f hf => ?_,
      StructDecl.eachStruct_iff.mpr fun f hf => (registered _ r found f hf).thorough.structs⟩
    exact ⟨(registered _ r found f hf).passes, (registered _ r found f hf).thorough.leaves⟩
  | succ depth ih =>
    intro d r found same
    have sound : ∀ f ∈ r.fields,
        Sound T location leaf r.params (f.type.relink (T.relinked depth)) := fun f hf =>
      ih.sound_relink (registered _ r found f hf)
    rw [SignatureTable.relinked, found, Option.getD_some]
    refine ⟨StructDecl.same_iff.mpr ⟨rfl, rfl, ?_⟩, upright_iff.mpr ?_,
      StructDecl.eachStruct_iff.mpr ?_⟩
    · rw [List.map_map]
      refine List.map_congr_left fun f hf => ?_
      have names := Ty.skeleton_relink fun d ts ns hd =>
        ih.name_eq ((registered _ r found f hf).passes _ hd)
      rw [Function.comp_apply, StructDecl.fieldKey, StructDecl.fieldKey, names]
    · exact List.forall_mem_map.mpr fun f hf => ⟨(sound f hf).passes, (sound f hf).thorough.leaves⟩
    · exact List.forall_mem_map.mpr fun f hf => (sound f hf).thorough.structs

/-! ## Fields -/

theorem instantiateFields_of_equal (h : Declarable T g (.struct d ts ns))
    (h' : Declarable T g (.struct d' ts' ns'))
    (same : (Ty.struct d ts ns).skeleton = (Ty.struct d' ts' ns').skeleton) :
    ∃ fs fs', d.instantiateFields ts ns = .ok fs ∧ d'.instantiateFields ts' ns' = .ok fs' ∧
      fs.map (·.name) = fs'.map (·.name) ∧ Ty.equalAll (fs.map (·.type)) (fs'.map (·.type)) := by
  rw [Ty.skeleton, Ty.skeleton, Ty.skeletonAll_eq_map, Ty.skeletonAll_eq_map, Ty.struct.injEq,
    StructDecl.mk.injEq] at same
  obtain ⟨⟨name, -⟩, types, rfl⟩ := same
  obtain ⟨params, fields⟩ := fieldKeys_eq_of_declarable h h' name
  obtain ⟨l, hl, hl', keys⟩ := exists_pairs_of_map_eq fields
  have args := Instantiation.equal_pair d.params ns types
  have types : ∀ x ∈ l, (x.1.type.inst (.pair d.params ts ns)).skeleton =
      (x.2.type.inst (.pair d.params ts' ns)).skeleton := by
    intro x hx
    have alike : x.1.type.skeleton = x.2.type.skeleton := (Prod.mk.inj (keys x hx)).2
    rw [Ty.skeleton_inst_congr args, Ty.skeleton_inst, alike, ← Ty.skeleton_inst]
  obtain ⟨-, count, -⟩ := h
  obtain ⟨-, count', -⟩ := h'
  refine ⟨_, _, if_pos count, if_pos count', ?_, (Ty.equalAll_iff _ _).mpr ?_⟩
  · rw [hl, hl']
    simp only [List.map_map, Function.comp_def]
    exact List.map_congr_left fun x hx => (Prod.mk.inj (keys x hx)).1
  · rw [hl, hl', ← params]
    simp only [List.map_map, Function.comp_def, Instantiation.apply_eq]
    exact List.map_congr_left types

/-- **Equal types that pass the check agree.**  If they are struct types, then they have fields with
    the same names and equal types.  They have a class, and it is the same one, if variables carry
    the bounds of the generic parameters, leaves of one name have one class, and what the check asks
    of fields holds of the fields of every struct that the types lead to.  If this holds of the
    registered structs, too, then the class is the one with the registered declarations in the place
    of those that the type carries, down to any depth. -/
theorem equal_declared_types_agree {g : Generics} {t u : Ty}
    (registered : ∀ n d, T.findStruct? n = some d → ∀ f ∈ d.fields,
      checkType T d.params location f.type = .ok ())
    (ht : checkType T g location t = .ok ()) (hu : checkType T g location u = .ok ())
    (equal : t.equal u) :
    (∀ d ts ns d' ts' ns', t = .struct d ts ns → u = .struct d' ts' ns' →
      ∃ fs fs', d.instantiateFields ts ns = .ok fs ∧ d'.instantiateFields ts' ns' = .ok fs' ∧
        fs.map (·.name) = fs'.map (·.name) ∧ Ty.equalAll (fs.map (·.type)) (fs'.map (·.type))) ∧
    ∀ leaf : String → OwnershipClass, Thorough T location leaf t → t.CarriesBounds g →
      (Thorough T location leaf u → u.CarriesBounds g → t.SameClass u) ∧
      ((∀ n d, T.findStruct? n = some d → ∀ f ∈ d.fields, Thorough T location leaf f.type) →
        ∀ depth, (t.relink (T.relinked depth)).SameClass t) := by
  have same := (Ty.equal_iff t u).mp equal
  have passes := checkType_eq_ok_iff.mp ht
  have passes' := checkType_eq_ok_iff.mp hu
  refine ⟨?_, fun leaf thorough bounds => ⟨fun thorough' bounds' => ?_, fun fields depth => ?_⟩⟩
  · rintro d ts ns d' ts' ns' rfl rfl
    exact instantiateFields_of_equal (passes _ (Ty.mem_subterms_self _))
      (passes' _ (Ty.mem_subterms_self _)) same
  · exact sameClass_of_skeleton_eq same ⟨passes, thorough⟩ ⟨passes', thorough'⟩ bounds bounds'
  · have upheld : Upheld T location leaf (T.relinked depth) := upheld_relinked (fun n d hd f hf =>
      ⟨checkType_eq_ok_iff.mp (registered n d hd f hf), fields n d hd f hf⟩) depth
    have names := Ty.skeleton_relink fun d ts ns hd => upheld.name_eq (passes _ hd)
    refine sameClass_of_skeleton_eq names (upheld.sound_relink ⟨passes, thorough⟩)
      ⟨passes, thorough⟩ ?_ bounds
    rwa [Ty.CarriesBounds, Ty.boundedVars_relink]

/-- A struct with one field, of the given type. -/
def slot (value : Ty) : StructDecl := ⟨"Slot", ⟨[⟨"T", false, false⟩], []⟩, [⟨"v", value⟩]⟩

/-- A struct with an optional slot for a qubit. -/
def tray (d : StructDecl) : StructDecl := ⟨"Tray", {}, [⟨"s", .option (.struct d [.qubit] [])⟩]⟩

/-- A type variable that can stand for values of the given class. -/
def value (copyable : Bool) : Ty := .var ⟨"T", copyable, copyable⟩

/-- The structs `Slot` and `Tray`. -/
def trayTable : SignatureTable :=
  [slot (value false), tray (slot (value false))].foldl (fun T d => T.withStruct d {}) {}

theorem trayTable_registered (n : String) (d : StructDecl) (hd : trayTable.findStruct? n = some d) :
    ∀ f ∈ d.fields, checkType trayTable d.params {} f.type = .ok () := by
  have checked : ∀ d ∈ [slot (value false), tray (slot (value false))], ∀ f ∈ d.fields,
      checkType trayTable d.params {} f.type = .ok () := by
    simp only [List.forall_mem_cons, List.not_mem_nil, false_imp_iff, implies_true, and_true,
      slot, tray]
    constructor <;> cbv
  exact checked d (SignatureTable.mem_of_findStruct?_foldl rfl hd)

/-- The classes of the leaves of a tray. -/
def trayLeaf (name : String) : OwnershipClass := if name = "qubit" then .linear else .copyable

/-- A tray and an array of slots.  The declaration of a slot that these types carry states a bound
    for the type variable in it that may be wrong, but that does not matter. -/
def trayed (copyable : Bool) : Ty :=
  .tuple [.struct (tray (slot (value copyable))) [] [],
    .array (.struct (slot (value copyable)) [value false] []) (.const 2)]

theorem trayTable_thorough (n : String) (d : StructDecl) (hd : trayTable.findStruct? n = some d) :
    ∀ f ∈ d.fields, Thorough trayTable {} trayLeaf f.type := by
  have fields : ∀ d ∈ [slot (value false), tray (slot (value false))], ∀ f ∈ d.fields,
      Thorough trayTable {} trayLeaf f.type := by
    simp only [List.forall_mem_cons, List.not_mem_nil, false_imp_iff, implies_true, and_true,
      slot, tray]
    exact ⟨⟨by cbv, by cbv⟩, ⟨by cbv, by cbv⟩⟩
  exact fields d (SignatureTable.mem_of_findStruct?_foldl rfl hd)

theorem trayed_thorough (copyable : Bool) : Thorough trayTable {} trayLeaf (trayed copyable) := by
  cases copyable <;> exact ⟨by cbv, by cbv⟩

theorem trayed_carriesBounds (copyable : Bool) :
    (trayed copyable).CarriesBounds ⟨[⟨"T", false, false⟩], []⟩ := by
  intro p hp q hq
  have own : p = ⟨"T", false, false⟩ := List.mem_singleton.mp hp
  subst own
  cases hq
  rfl

theorem trayed_agree : (trayed false).SameClass (trayed true) ∧
    ∀ depth, ((trayed false).relink (trayTable.relinked depth)).SameClass (trayed false) := by
  have passes : ∀ copyable,
      checkType trayTable ⟨[⟨"T", false, false⟩], []⟩ {} (trayed copyable) = .ok () := by
    intro copyable
    cases copyable <;> cbv
  obtain ⟨-, classes⟩ := equal_declared_types_agree trayTable_registered (passes false)
    (passes true) (by decide)
  obtain ⟨same, relinked⟩ := classes trayLeaf (trayed_thorough false) (trayed_carriesBounds false)
  exact ⟨same (trayed_thorough true) (trayed_carriesBounds true), relinked trayTable_thorough⟩

/-- **Equal types that pass the check may have different classes.**  Each of these pairs is equal,
    and both of its types pass the check against a table that has been registered and in which all
    fields pass.  The trays carry different declarations of slots, of which only one has a qubit;
    the variables carry different bounds; and the leaves state different classes. -/
theorem carried_declarations_tell_apart :
    (∃ headers, registerHeaders {} [.struct ⟨{}, slot (value false), []⟩,
      .struct ⟨{}, tray (slot (value false)), []⟩] = .ok (headers, trayTable)) ∧
    (∀ n d, trayTable.findStruct? n = some d → ∀ f ∈ d.fields,
      checkType trayTable d.params {} f.type = .ok ()) ∧
    ∀ x ∈ [(.struct (tray (slot (value false))) [] [], .struct (tray (slot .int)) [] []),
        (value false, value true), (.prim "int" .linear, .int)],
      checkType trayTable ⟨[⟨"T", false, false⟩], []⟩ {} x.1 = .ok () ∧
      checkType trayTable ⟨[⟨"T", false, false⟩], []⟩ {} x.2 = .ok () ∧
      x.1.equal x.2 ∧ x.1.classify = .ok .linear ∧ x.2.classify = .ok .copyable := by
  refine ⟨⟨_, registerHeaders_structs [slot (value false), tray (slot (value false))]
    (by decide) (by decide)⟩, trayTable_registered, ?_⟩
  simp only [List.forall_mem_cons, List.not_mem_nil, false_imp_iff, implies_true, and_true]
  refine ⟨⟨?_, ?_, ?_, ?_, ?_⟩, ⟨?_, ?_, ?_, ?_, ?_⟩, ?_, ?_, ?_, ?_, ?_⟩ <;> cbv

end Elaboration

end QuantumStatics
