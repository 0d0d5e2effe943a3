/-
  The vocabulary of checked bodies.

  Types come into a body from its declared types, from the signatures of what it calls, and from the
  fields of structs.  If all of these keep to a vocabulary, so does the body, and the variables in
  its types are its own generic parameters.
-/
import QuantumStatics.Proofs.Elaboration.KeptBodies
import QuantumStatics.Proofs.Ty.Composition
import QuantumStatics.Proofs.Ty.Vocabulary

namespace QuantumStatics

/-- Every type of a signature satisfies `P`. -/
def Signature.EachType (P : Ty → Prop) (s : Signature) : Prop :=
  (∀ p ∈ s.params, P p.type) ∧ P s.result

instance (P : Ty → Prop) [DecidablePred P] (s : Signature) : Decidable (s.EachType P) :=
  inferInstanceAs (Decidable ((∀ p ∈ s.params, P p.type) ∧ P s.result))

theorem Signature.forall_components_functionType {P : Ty → Prop}
    (s : Signature) : (∀ c ∈ s.functionType.components, P c) ↔ s.EachType P := by
  simp only [Signature.EachType, Signature.functionType, Ty.components, List.map_map,
    List.forall_mem_append, List.forall_mem_map, List.forall_mem_singleton, Function.comp_apply]

theorem Signature.generics_eq_of_isGeneric_eq_false (s : Signature) (h : s.isGeneric = false) :
    s.generics = {} := by
  have names : s.generics.types = [] ∧ s.generics.nats = [] := by
    simpa [Signature.isGeneric, Generics.isEmpty] using h
  rw [show s.generics = ⟨s.generics.types, s.generics.nats⟩ from rfl, names.1, names.2]

namespace Elaboration

variable {T : SignatureTable} {g : Generics} {location : Location} {n : NatTerm} {d : StructDecl}
  {types nats : Nat} {ts : List Ty} {ps : List ParamType} {t : Ty}

/-! ## Declared types -/

/-- What the outermost form of a type has to be like in a declaration. -/
def Declarable (T : SignatureTable) (g : Generics) : Ty → Prop
  | .var p => p.name ∈ g.typeNames
  | .undet _ => False
  | .array _ length => length.In g
  | .struct d ts ns => (∃ registered, T.findStruct? d.name = some registered ∧ registered.same d) ∧
    (ts.length = d.params.types.length ∧ ns.length = d.params.nats.length) ∧ ∀ n ∈ ns, n.In g
  | .prim _ _ | .tuple _ | .fn _ _ _ | .option _ => True

theorem checkNat_eq_ok (h : checkNat g location n = .ok ()) : n.In g := by
  cases n with
  | const | undet => trivial
  | var name =>
    by_cases hn : g.hasNat name
    · exact hn
    · simp [checkNat, hn, Failure.reject] at h

theorem checkStruct_eq_ok (h : checkStruct T location d types nats = .ok ()) :
    (∃ registered, T.findStruct? d.name = some registered ∧ registered.same d) ∧
      (types = d.params.types.length ∧ nats = d.params.nats.length) := by
  unfold checkStruct at h
  cases hd : T.findStruct? d.name with
  | none =>
    rw [hd] at h
    cases h
  | some registered =>
    rw [hd] at h
    dsimp only at h
    split at h
    · next same =>
      split at h
      · next count => exact ⟨⟨registered, rfl, same⟩, count⟩
      · cases h
    · cases h

theorem checkTypes_eq_ok (h : checkTypes T g location ts = .ok ()) :
    ∀ t ∈ ts, checkType T g location t = .ok () := by
  induction ts with
  | nil => exact nofun
  | cons t ts ih =>
    rw [checkTypes] at h
    obtain ⟨_, ht, h⟩ := except_bind_eq_ok.mp h
    exact List.forall_mem_cons.mpr ⟨ht, ih h⟩

theorem checkParamTypes_eq_ok (h : checkParamTypes T g location ps = .ok ()) :
    ∀ p ∈ ps, checkType T g location p.type = .ok () := by
  induction ps with
  | nil => exact nofun
  | cons p ps ih =>
    obtain ⟨t, ownership⟩ := p
    rw [checkParamTypes] at h
    obtain ⟨_, ht, h⟩ := except_bind_eq_ok.mp h
    exact List.forall_mem_cons.mpr ⟨ht, ih h⟩

theorem checkType_components (h : checkType T g location t = .ok ()) :
    Declarable T g t ∧ ∀ c ∈ t.components, checkType T g location c = .ok () := by
  cases t with
  | prim => exact ⟨trivial, List.forall_mem_nil _⟩
  | undet =>
    rw [checkType] at h
    cases h
  | var p =>
    rw [checkType] at h
    split at h
    · next found =>
      refine ⟨?_, List.forall_mem_nil _⟩
      obtain ⟨q, hq⟩ := Option.isSome_iff_exists.mp found
      have name : q.name = p.name := by simpa using List.find?_some hq
      exact List.mem_map.mpr ⟨q, List.mem_of_find?_eq_some hq, name⟩
    · cases h
  | tuple elems =>
    rw [checkType] at h
    exact ⟨trivial, checkTypes_eq_ok h⟩
  | array elem length =>
    rw [checkType] at h
    obtain ⟨_, helem, h⟩ := except_bind_eq_ok.mp h
    exact ⟨checkNat_eq_ok h, List.forall_mem_singleton.mpr helem⟩
  | struct decl typeArgs natArgs =>
    rw [checkType] at h
    obtain ⟨_, hdecl, h⟩ := except_bind_eq_ok.mp h
    obtain ⟨_, htypes, h⟩ := except_bind_eq_ok.mp h
    obtain ⟨registered, count⟩ := checkStruct_eq_ok hdecl
    exact ⟨⟨registered, count, fun n hn => checkNat_eq_ok (forM_eq_ok.mp h n hn)⟩,
      checkTypes_eq_ok htypes⟩
  | fn params result generics =>
    rw [checkType] at h
    obtain ⟨_, hparams, h⟩ := except_bind_eq_ok.mp h
    exact ⟨trivial, List.forall_mem_append.mpr
      ⟨List.forall_mem_map.mpr (checkParamTypes_eq_ok hparams), List.forall_mem_singleton.mpr h⟩⟩
  | option inner =>
    rw [checkType] at h
    exact ⟨trivial, List.forall_mem_singleton.mpr h⟩

/-- **A declared type that passes the check** is declarable throughout. -/
theorem checkType_eq_ok (h : checkType T g location t = .ok ()) :
    ∀ u ∈ t.subterms, Declarable T g u := by
  induction t using Ty.componentInduction with
  | step t ih =>
    obtain ⟨head, components⟩ := checkType_components h
    exact Ty.forall_mem_subterms.mpr ⟨head, fun c hc => ih c hc (components c hc)⟩

theorem checkNat_of_in (h : n.In g) : checkNat g location n = .ok () := by
  cases n with
  | const | undet => rfl
  | var name =>
    have known : g.hasNat name := h
    rw [checkNat, if_pos known]
    rfl

theorem checkStruct_of_same {registered : StructDecl}
    (found : T.findStruct? d.name = some registered) (same : registered.same d)
    (count : types = d.params.types.length ∧ nats = d.params.nats.length) :
    checkStruct T location d types nats = .ok () := by
  simp only [checkStruct, found, same, count, and_self, if_true]
  rfl

theorem checkTypes_of_forall (h : ∀ t ∈ ts, checkType T g location t = .ok ()) :
    checkTypes T g location ts = .ok () := by
  induction ts with
  | nil => rfl
  | cons t ts ih =>
    obtain ⟨ht, hts⟩ := List.forall_mem_cons.mp h
    rw [checkTypes, ht]
    exact ih hts

theorem checkParamTypes_of_forall (h : ∀ p ∈ ps, checkType T g location p.type = .ok ()) :
    checkParamTypes T g location ps = .ok () := by
  induction ps with
  | nil => rfl
  | cons p ps ih =>
    obtain ⟨t, ownership⟩ := p
    obtain ⟨ht, hps⟩ := List.forall_mem_cons.mp h
    rw [checkParamTypes, ht]
    exact ih hps

theorem checkType_of_components (head : Declarable T g t)
    (components : ∀ c ∈ t.components, checkType T g location c = .ok ()) :
    checkType T g location t = .ok () := by
  cases t with
  | prim => rfl
  | undet => exact head.elim
  | var p =>
    obtain ⟨q, hq, name⟩ := List.mem_map.mp head
    have found : (g.findType p.name).isSome := List.find?_isSome.mpr ⟨q, hq, by simpa using name⟩
    rw [checkType, if_pos found]
    rfl
  | tuple elems => exact checkTypes_of_forall components
  | array elem length =>
    rw [checkType, components elem List.mem_cons_self]
    exact checkNat_of_in head
  | struct decl typeArgs natArgs =>
    obtain ⟨⟨registered, found, same⟩, count, nats⟩ := head
    rw [checkType, checkStruct_of_same found same count]
    have types : checkTypes T g location typeArgs = .ok () := checkTypes_of_forall components
    refine except_bind_eq_ok.mpr ⟨_, rfl, except_bind_eq_ok.mpr ⟨_, types, ?_⟩⟩
    exact forM_eq_ok.mpr fun n hn => checkNat_of_in (nats n hn)
  | fn params result generics =>
    obtain ⟨hparams, hresult⟩ := List.forall_mem_append.mp components
    rw [checkType, checkParamTypes_of_forall (List.forall_mem_map.mp hparams)]
    exact hresult result List.mem_cons_self
  | option inner => exact components inner List.mem_cons_self

theorem checkType_eq_ok_iff :
    checkType T g location t = .ok () ↔ ∀ u ∈ t.subterms, Declarable T g u := by
  refine ⟨checkType_eq_ok, fun h => ?_⟩
  induction t using Ty.componentInduction with
  | step t ih =>
    obtain ⟨head, components⟩ := Ty.forall_mem_subterms.mp h
    exact checkType_of_components head fun c hc => ih c hc (components c hc)

/-! ## Bodies -/

/-- Signatures and fields keep to the vocabulary. -/
structure Lawful (V : Vocabulary) (T : SignatureTable) : Prop where
  keyed : T.Keyed
  signatures {n : String} {s : Signature} : T.find? n = some s →
    s.EachType (V.Header s.generics)
  fields {d : StructDecl} {types nats : Nat} : V.struct d types nats →
    ∀ f ∈ d.fields, V.Header d.params f.type

namespace Lawful

variable {V : Vocabulary}

theorem allows_of_monomorphic {t : Ty} (h : V.Header {} t) : V.Allows g t := by
  have same : t.inst {} = t := Ty.inst_eq_self (fun _ => rfl) (fun _ => rfl) t
  rw [← same]
  exact h.inst ⟨fun n => by simp [Generics.typeNames], fun n => by simp⟩ nofun nofun

theorem allows_fields (lawful : Lawful V T) {d : StructDecl} {ts : List Ty} {ns : List NatTerm}
    {fs : List Field} (h : V.Allows g (.struct d ts ns)) (hf : d.instantiateFields ts ns = .ok fs) :
    ∀ f ∈ fs, V.Allows g f.type := by
  obtain ⟨⟨known, nats⟩, types⟩ := Vocabulary.allows_struct.mp h
  unfold StructDecl.instantiateFields at hf
  split at hf
  · next count =>
    cases hf
    refine List.forall_mem_map.mpr fun f hf => ?_
    rw [Instantiation.apply_eq]
    exact (lawful.fields known f hf).inst (Instantiation.for_pair count.1 count.2)
      (fun hu => types _ (Instantiation.mem_of_types_pair hu))
      fun hm => nats _ (Instantiation.mem_of_nats_pair hm)
  · cases hf

/-- **Checking a body keeps to the vocabulary** that the signatures of the table keep to.  Of
    declared types, what the check does not tell is given by `stated`; what is remembered about
    classes may be any property that classifying types of the vocabulary keeps. -/
def upkeep (lawful : Lawful V T) (g : Generics) (declared : Ty → Prop) (memo : ClassMemo → Prop)
    (stated : ∀ {t}, declared t → ∀ u ∈ t.subterms, Declarable T g u → V.Head g u)
    (classify : ∀ {t c m m'}, V.Allows g t → memo m → ClassMemo.classify t m = .ok c m' →
      memo m') : Upkeep T g where
  declared := declared
  type := V.Allows g
  nat := NatTerm.In g
  memo := memo
  stated known h u hu := stated known u hu (checkType_eq_ok h u hu)
  prim known := Vocabulary.allows_iff.mpr ⟨V.builtin known, nofun⟩
  undet := Vocabulary.allows_iff.mpr ⟨trivial, nofun⟩
  natUndet := trivial
  const := trivial
  tuple h := Vocabulary.allows_iff.mpr ⟨trivial, h⟩
  array h hn := Vocabulary.allows_iff.mpr ⟨hn, List.forall_mem_singleton.mpr h⟩
  component h hu := h.component hu
  ownNats h hn := h.ownNats hn
  subst types nats h := h.subst types nats
  keyed := lawful.keyed
  fnRef {n s} hs hg := by
    obtain ⟨params, result⟩ := lawful.signatures hs
    have empty : s.generics = {} := s.generics_eq_of_isGeneric_eq_false hg
    rw [empty] at params result
    refine Vocabulary.allows_iff.mpr ⟨?_, s.forall_components_functionType.mpr ⟨?_, ?_⟩⟩
    · rw [Signature.functionType, empty]
      exact V.monomorphic
    · exact fun p hp => allows_of_monomorphic (params p hp)
    · exact allows_of_monomorphic result
  signature hs all types nats := by
    obtain ⟨params, result⟩ := lawful.signatures hs
    simp only [Instantiation.apply_eq]
    exact ⟨fun p hp => (params p hp).inst all types nats, result.inst all types nats⟩
  fields h hf := lawful.allows_fields h hf
  classify := classify

end Lawful

end Elaboration

end QuantumStatics
