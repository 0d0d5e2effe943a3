/-
  Bounds in checked bodies.

  The generic arguments of a call are compared with the bounds of the parameters at the end of the
  statement, by their classes; those of a struct type are never compared with anything.  But struct
  types come from declared types, from signatures and from fields.  If these are within the bounds,
  then all types of a checked body are, as are the generic arguments of its calls.

  The classes are remembered by the text of a type.  So it matters that the text of a closed type
  tells its class, which it does if names are names and if there is one struct of a name.
-/
import QuantumStatics.Proofs.Classification.Bounds
import QuantumStatics.Proofs.Classification.Texts
import QuantumStatics.Proofs.Elaboration.Vocabulary

namespace QuantumStatics

/-- All parameters have names that can be written. -/
def Generics.Named (g : Generics) : Prop := ∀ name ∈ g.names, isName name

instance (g : Generics) : Decidable g.Named :=
  inferInstanceAs (Decidable (∀ name ∈ g.names, isName name))

/-- The vocabulary of the structs of a table and the builtin types, in which a variable is a generic
    parameter with its bound. -/
def registered (T : SignatureTable) : Vocabulary where
  leaf name cls := Ty.builtin? name = some (.prim name cls)
  param g p := p ∈ g.types
  struct d types nats := T.findStruct? d.name = some d ∧
    types = d.params.types.length ∧ nats = d.params.nats.length
  binder := Generics.Named
  builtin h := h
  named h := List.mem_map_of_mem h
  monomorphic := nofun

/-- A type that may be declared where the generic parameters `g` are in scope: its names are names,
    its variables are the parameters, with their bounds, and its struct types are within bounds. -/
structure Ty.Proper (T : SignatureTable) (g : Generics) (t : Ty) : Prop where
  legible : t.Legible
  flagged : ∀ p, .var p ∈ t.subterms → p ∈ g.types
  bounded : t.Bounded T

namespace Elaboration

open Typed (Part)

variable {T : SignatureTable} {g : Generics} {S : Substitution}

/-- A registered struct has a name of its own and distinct parameters, and its fields are within
    bounds. -/
structure OrderlyStruct (T : SignatureTable) (d : StructDecl) : Prop where
  found : T.findStruct? d.name = some d
  named : isName d.name ∧ reserved d.name = false
  distinct : d.params.Distinct
  fields : ∀ f ∈ d.fields, (registered T).Header d.params f.type ∧ f.type.Bounded T

/-- What is asked of a table for bounds to hold in the bodies that are checked against it. -/
structure Orderly (T : SignatureTable) : Prop where
  keyed : T.Keyed
  signatures {n : String} {s : Signature} : T.find? n = some s →
    s.EachType fun t => (registered T).Header s.generics t ∧ t.Bounded T
  structs {n : String} {d : StructDecl} : T.findStruct? n = some d → OrderlyStruct T d

theorem Orderly.lawful (orderly : Orderly T) : Lawful (registered T) T where
  keyed := orderly.keyed
  signatures hs := by
    obtain ⟨params, result⟩ := orderly.signatures hs
    exact ⟨fun p hp => (params p hp).1, result.1⟩
  fields known f hf := ((orderly.structs known.1).fields f hf).1

theorem flagged_of_allows {t : Ty} (h : (registered T).Allows g t) {p : TypeParam}
    (hp : .var p ∈ t.subterms) : p ∈ g.types := h _ hp

/-! ## Texts and classes -/

/-- A type is made of the vocabulary of a table and of parameters with names. -/
def Spelled (T : SignatureTable) (t : Ty) : Prop :=
  ∃ g : Generics, g.Named ∧ (registered T).Allows g t

namespace Spelled

theorem component {t c : Ty} (h : Spelled T t) (hc : c ∈ t.components) : Spelled T c := by
  obtain ⟨g, named, allows⟩ := h
  exact ⟨g, named, allows.component hc⟩

theorem natLegible {n : NatTerm} (named : g.Named) (h : n.In g) : n.Legible := by
  cases n with
  | const | undet => trivial
  | var name => exact named name (List.mem_append_right _ (List.contains_iff_mem.mp h))

theorem legible {t : Ty} (orderly : Orderly T) (h : Spelled T t) : t.Legible := by
  obtain ⟨g, named, allows⟩ := h
  intro u hu
  have head := allows u hu
  cases u with
  | prim => exact head
  | var p => exact named p.name (List.mem_append_left _ (List.mem_map_of_mem head))
  | undet | tuple | option => trivial
  | array elem length => exact natLegible named head
  | struct decl typeArgs natArgs =>
    obtain ⟨name, free⟩ := (orderly.structs head.1.1).named
    exact ⟨name, free, fun n hn => natLegible named (head.2 n hn)⟩
  | fn params result generics => exact head

theorem nominal (orderly : Orderly T) : Nominal (Spelled T) where
  legible h := h.legible orderly
  component h hc := h.component hc
  single {d d' _ _ _ _} h h' name := by
    obtain ⟨_, -, allows⟩ := h
    obtain ⟨_, -, allows'⟩ := h'
    have found : T.findStruct? d.name = some d := allows.head.1.1
    have found' : T.findStruct? d'.name = some d' := allows'.head.1.1
    rw [name, found'] at found
    exact (Option.some.inj found).symm
  fields h hf f hf' := by
    obtain ⟨g, named, allows⟩ := h
    exact ⟨g, named, orderly.lawful.allows_fields allows hf f hf'⟩

end Spelled

/-- **The text of a closed type tells its class**, among types made of the vocabulary of a table. -/
theorem closedTextTells_spelled (orderly : Orderly T) : ClosedTextTells (Spelled T) :=
  (Spelled.nominal orderly).closedTextTells

/-! ## Bodies -/

theorem stated_of_proper {t : Ty} (h : t.Proper T g) :
    ∀ u ∈ t.subterms, Declarable T g u → (registered T).Head g u := by
  intro u hu passed
  have legible := h.legible u hu
  cases u with
  | prim => exact legible
  | var p => exact h.flagged p hu
  | undet | tuple | option => trivial
  | array elem length => exact passed
  | fn params result generics => exact legible
  | struct decl typeArgs natArgs =>
    obtain ⟨-, count, nats⟩ := passed
    exact ⟨⟨(h.bounded decl typeArgs natArgs hu).1, count⟩, nats⟩

namespace Orderly

/-- Checking a body keeps to the vocabulary of the table, and to a memory that is right. -/
def upkeep (orderly : Orderly T) (named : g.Named) : Upkeep T g :=
  orderly.lawful.upkeep g (·.Proper T g) (ClassMemo.Plain (Spelled T)) stated_of_proper
    fun ht hm h => (hm.classify_eq_ok (closedTextTells_spelled orderly) ⟨g, named, ht⟩ h).2

/-- **Checking a body keeps to the bounds in the end.** -/
def prospect (orderly : Orderly T) (named : g.Named) (S : Substitution) :
    Prospect (orderly.upkeep named) S where
  type := Ty.BoundedIn T S
  within p t := t.AtMost (.var p)
  declared h := h.bounded.boundedIn
  prim := Ty.boundedIn_iff.mpr ⟨trivial, nofun⟩
  undet := Ty.boundedIn_iff.mpr ⟨trivial, nofun⟩
  tuple h := Ty.boundedIn_iff.mpr ⟨trivial, h⟩
  array h := Ty.boundedIn_iff.mpr ⟨trivial, List.forall_mem_singleton.mpr h⟩
  component h hu := h.component hu
  subst refines images h := h.subst refines images
  fnRef {n s} hs _ := by
    obtain ⟨params, result⟩ := orderly.signatures hs
    exact Ty.boundedIn_iff.mpr ⟨trivial, s.forall_components_functionType.mpr
      ⟨fun p hp => (params p hp).2.boundedIn, result.2.boundedIn⟩⟩
  signature {n s I} hs _ args bounds _ := by
    obtain ⟨params, result⟩ := orderly.signatures hs
    have inst : ∀ {t}, (registered T).Header s.generics t ∧ t.Bounded T →
        (I.apply t).BoundedIn T S := fun ⟨header, bounded⟩ => by
      rw [Instantiation.apply_eq]
      exact .inst bounded (fun hu => (args hu).2) fun p hp u hu =>
        bounds p (flagged_of_allows header.allows hp) u hu
    exact ⟨fun p hp => inst (params p hp), inst result⟩
  fields {d ts ns fs} _ h hf := by
    obtain ⟨⟨registered, bounds⟩, args⟩ := Ty.boundedIn_iff.mp h
    have struct := orderly.structs registered
    unfold StructDecl.instantiateFields at hf
    split at hf
    · cases hf
      refine List.forall_mem_map.mpr fun f hf => ?_
      rw [Instantiation.apply_eq]
      obtain ⟨header, bounded⟩ := struct.fields f hf
      exact .inst_pair struct.distinct bounded (fun p => flagged_of_allows header.allows) args
        bounds
    · cases hf
  admitted {p t c m m'} ht _ hm h admits := by
    obtain ⟨known, -⟩ := hm.classify_eq_ok (closedTextTells_spelled orderly) ⟨g, named, ht⟩ h
    exact TypeParam.accepts_iff.mp ⟨c, known, admits⟩

end Orderly

/-! ## Functions -/

theorem nodup_of_firstRepeated {seen names : List String} (h : firstRepeated seen names = none) :
    names.Nodup ∧ ∀ n ∈ names, n ∉ seen := by
  induction names generalizing seen with
  | nil => exact ⟨.nil, nofun⟩
  | cons n names ih =>
    rw [firstRepeated] at h
    split at h
    · cases h
    · next new =>
      obtain ⟨nodup, others⟩ := ih h
      have new : n ∉ seen := by simpa using new
      refine ⟨List.nodup_cons.mpr ⟨fun hn => others n hn List.mem_cons_self, nodup⟩, ?_⟩
      exact List.forall_mem_cons.mpr ⟨new, fun m hm hs => others m hm (List.mem_cons_of_mem n hs)⟩

theorem distinct_of_checkGenerics {location : Location} (h : checkGenerics g location = .ok ()) :
    g.Distinct := by
  unfold checkGenerics at h
  split at h
  · cases h
  · next repeated => exact (List.nodup_append.mp (nodup_of_firstRepeated repeated).1).1

/-- The types of a function are within bounds, its variables are its generic parameters, and the
    generic arguments of its calls are within the bounds of the callees. -/
structure FunctionBounds (T : SignatureTable) (f : Typed.Function) : Prop where
  distinct : f.generics.Distinct
  types : ∀ t ∈ f.types, t.Bounded T ∧ ∀ p, .var p ∈ t.subterms → p ∈ f.generics.types
  calls : ∀ l c, .call l c ∈ f.parts → ∀ s, T.find? c.callee = some s →
    ∀ x ∈ s.generics.types.zip c.typeArgs, x.1.Accepts x.2

theorem checkFunction_bounded (orderly : Orderly T) {owner : Option StructDecl}
    {f : Source.FunctionDef} {sig : Signature} {typed : Typed.Function}
    {memory memory' : CheckerMemory} (signature : signatureOf owner f = .ok sig)
    (named : sig.generics.Named) (declared : f.EachType (·.Proper T sig.generics))
    (plain : memory.memo.Plain (Spelled T))
    (h : checkFunction T owner f memory = .ok typed memory') :
    memory'.memo.Plain (Spelled T) ∧ typed.generics = sig.generics ∧ FunctionBounds T typed := by
  obtain ⟨generics, memo, now, S, fixed, later⟩ :=
    checkFunction_keeps signature (orderly.upkeep named) declared plain h
  have inTheEnd := later (orderly.prospect named S)
  obtain ⟨_, _, -, run⟩ := exists_checked signature h
  refine ⟨memo, generics, ?_, fun t ht => ?_, fun l c hc s hs x hx => ?_⟩
  · rw [generics]
    exact distinct_of_checkGenerics run.generics
  · have part := Typed.Function.mem_types.mp ht
    have same : t.subst S = t := Part.type.inj (fixed _ part)
    refine ⟨(inTheEnd _ part).bounded (Ty.subst_eq_self_of_mem_subterms same), fun p hp => ?_⟩
    rw [generics]
    exact flagged_of_allows (now _ part) hp
  · by_cases kind : c.kind = .localValue
    · obtain ⟨types, -⟩ := now _ hc kind
      rw [types, List.zip_nil_right] at hx
      cases hx
    · have within : (x.2.subst S).AtMost (.var x.1) := inTheEnd _ hc s hs kind x hx
      have same : c.typeArgs.map (Ty.subst S) = c.typeArgs :=
        congrArg Typed.CallTarget.typeArgs (Part.call.inj (fixed _ hc)).2
      have arg : x.2.subst S = x.2 :=
        List.map_inj_left.mp (same.trans (List.map_id _).symm) x.2 (List.of_mem_zip hx).2
      rwa [arg, ← TypeParam.accepts_iff] at within

end Elaboration

end QuantumStatics
