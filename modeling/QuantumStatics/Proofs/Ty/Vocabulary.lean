/-
  What types are made of.

  A `Vocabulary` says which leaf types, type variables, structs and generic function types a type
  may be made of.  Which variables it may mention depends on the generic parameters in scope.
  Nothing is asked of types that are still to be inferred.

  A function type hides its own parameters: arguments are not put in for them.  So an instance of a
  type is made of what the arguments are made of only if no function type in it hides a variable
  that it mentions (`Ty.Unhidden`).
-/
import QuantumStatics.Proofs.Ty.Subterms

namespace QuantumStatics

/-- No function type in a type hides a variable that it mentions. -/
def Ty.Unhidden (t : Ty) : Prop :=
  ∀ u ∈ t.subterms, ∀ w ∈ u.subterms, ∀ v ∈ w.ownVars, v.boundBy u.binder = false

instance (t : Ty) : Decidable t.Unhidden :=
  inferInstanceAs (Decidable (∀ u ∈ t.subterms, ∀ w ∈ u.subterms, ∀ v ∈ w.ownVars,
    v.boundBy u.binder = false))

theorem Ty.Unhidden.component {t c : Ty} (h : t.Unhidden) (hc : c ∈ t.components) : c.Unhidden :=
  fun u hu => h u (mem_subterms_of_component hc hu)

/-! ## Vocabularies -/

/-- What types may be made of. -/
structure Vocabulary where
  leaf : String → OwnershipClass → Prop
  param : Generics → TypeParam → Prop
  /-- The structs, applied to given numbers of type and nat arguments. -/
  struct : StructDecl → Nat → Nat → Prop
  /-- The generic parameters of function types. -/
  binder : Generics → Prop
  builtin {name : String} {cls : OwnershipClass} : Ty.builtin? name = some (.prim name cls) →
    leaf name cls
  named {g : Generics} {p : TypeParam} : param g p → p.name ∈ g.typeNames
  monomorphic : binder {}

/-- A nat mentions no other parameters than those of `g`. -/
def NatTerm.In (g : Generics) : NatTerm → Prop
  | .var name => g.hasNat name
  | .const _ | .undet _ => True

namespace NatTerm

variable {g g' : Generics} {n : NatTerm}

theorem In.vars (h : n.In g) : ∀ v ∈ n.vars, v.isUndetermined ∨ v.boundBy g := by
  intro v hv
  cases n with
  | const => cases hv
  | var name =>
    cases List.mem_singleton.mp hv
    exact .inr h
  | undet k =>
    cases List.mem_singleton.mp hv
    exact .inl rfl

theorem in_of_vars (h : ∀ v ∈ n.vars, v.boundBy g) : n.In g := by
  cases n with
  | const | undet => trivial
  | var name => exact h _ (List.mem_singleton_self _)

theorem In.subst {S : Substitution} (h : n.In g)
    (images : ∀ {k m}, S.nats.get? k = some m → m.In g) : (n.subst S).In g := by
  cases n with
  | const | var => exact h
  | undet k =>
    rw [subst_undet]
    cases hk : S.nats.get? k with
    | none => trivial
    | some m => exact images hk

theorem In.inst {I : Instantiation} (h : n.In g)
    (args : ∀ name, .nat name ∈ n.vars → ∃ m, I.nats.get? name = some m ∧ m.In g') :
    (n.inst I).In g' := by
  cases n with
  | const | undet => trivial
  | var name =>
    obtain ⟨m, hm, inside⟩ := args name (List.mem_singleton_self _)
    simpa [inst_eq, hm] using inside

end NatTerm

namespace Vocabulary

variable {V : Vocabulary} {g g' : Generics} {t : Ty} {I : Instantiation}

/-- The outermost form of a type is in the vocabulary. -/
def Head (V : Vocabulary) (g : Generics) : Ty → Prop
  | .prim name cls => V.leaf name cls
  | .var p => V.param g p
  | .array _ length => length.In g
  | .struct decl typeArgs natArgs =>
    V.struct decl typeArgs.length natArgs.length ∧ ∀ n ∈ natArgs, n.In g
  | .fn _ _ generics => V.binder generics
  | .undet _ | .tuple _ | .option _ => True

/-- A type is made of what a vocabulary and the generic parameters in scope offer. -/
def Allows (V : Vocabulary) (g : Generics) (t : Ty) : Prop := ∀ u ∈ t.subterms, V.Head g u

theorem Head.ownVars (h : V.Head g t) : ∀ v ∈ t.ownVars, v.isUndetermined ∨ v.boundBy g := by
  intro v hv
  cases t with
  | var p =>
    cases List.mem_singleton.mp hv
    exact .inr (List.contains_iff_mem.mpr (V.named h))
  | undet k =>
    cases List.mem_singleton.mp hv
    exact .inl rfl
  | array elem length => exact h.vars v hv
  | struct decl typeArgs natArgs =>
    obtain ⟨n, hn, hv⟩ := List.mem_flatMap.mp hv
    exact (h.2 n hn).vars v hv
  | _ => cases hv

theorem allows_iff : V.Allows g t ↔ V.Head g t ∧ ∀ c ∈ t.components, V.Allows g c :=
  Ty.forall_mem_subterms

theorem allows_struct {d : StructDecl} {ts : List Ty} {ns : List NatTerm} :
    V.Allows g (.struct d ts ns) ↔
      (V.struct d ts.length ns.length ∧ ∀ n ∈ ns, n.In g) ∧ ∀ t ∈ ts, V.Allows g t :=
  allows_iff

namespace Allows

theorem head (h : V.Allows g t) : V.Head g t := h t (Ty.mem_subterms_self t)

theorem component {c : Ty} (h : V.Allows g t) (hc : c ∈ t.components) : V.Allows g c :=
  (allows_iff.mp h).2 c hc

theorem ownNats {n : NatTerm} (h : V.Allows g t) (hn : n ∈ t.ownNats) : n.In g := by
  cases t with
  | array elem length =>
    cases List.mem_singleton.mp hn
    exact h.head
  | struct decl typeArgs natArgs => exact h.head.2 n hn
  | _ => cases hn

theorem vars (h : V.Allows g t) : ∀ v ∈ t.vars, v.isUndetermined ∨ v.boundBy g := by
  intro v hv
  obtain ⟨u, hu, own⟩ := Ty.exists_of_mem_vars hv
  exact (h u hu).ownVars v own

/-- **Replacing what has been found out** stays in the vocabulary. -/
theorem subst {S : Substitution} (types : ∀ {k u}, S.types.get? k = some u → V.Allows g u)
    (nats : ∀ {k m}, S.nats.get? k = some m → m.In g) (h : V.Allows g t) :
    V.Allows g (t.subst S) := by
  refine Ty.forall_subterms_subst types fun u hu unbound => ?_
  have head := h u hu
  cases u with
  | prim | var => simpa using head
  | undet k => simp [unbound k rfl, Head]
  | tuple | option => simp [Head]
  | fn params result generics => simpa [Head] using head
  | array elem length =>
    rw [Ty.subst_array]
    exact NatTerm.In.subst head nats
  | struct decl typeArgs natArgs =>
    simp only [Ty.subst_struct, Head, List.length_map, List.forall_mem_map]
    exact ⟨head.1, fun n hn => (head.2 n hn).subst nats⟩

end Allows

/-! ## Headers -/

/-- A type may stand in a header. -/
structure Header (V : Vocabulary) (g : Generics) (t : Ty) : Prop where
  allows : V.Allows g t
  unhidden : t.Unhidden

theorem Head.inst (h : V.Head g t) (ht : ∀ p, t ≠ .var p)
    (nats : ∀ n, .nat n ∈ t.ownVars → ∃ m, I.nats.get? n = some m ∧ m.In g') :
    V.Head g' (t.inst I) := by
  cases t with
  | prim =>
    rw [Ty.inst_prim]
    exact h
  | var p => exact absurd rfl (ht p)
  | undet | tuple | option => simp [Head]
  | fn params result generics =>
    rw [Ty.inst_fn]
    exact h
  | array elem length =>
    rw [Ty.inst_array]
    exact NatTerm.In.inst h nats
  | struct decl typeArgs natArgs =>
    simp only [Ty.inst_struct, Head, List.length_map, List.forall_mem_map]
    exact ⟨h.1, fun n hn => (h.2 n hn).inst fun name hv =>
      nats name (List.mem_flatMap.mpr ⟨n, hn, hv⟩)⟩

theorem Allows.inst (h : V.Allows g t) (unhidden : t.Unhidden)
    (types : ∀ u ∈ t.subterms, ∀ n, .type n ∈ u.ownVars →
      ∃ w, I.types.get? n = some w ∧ V.Allows g' w)
    (nats : ∀ u ∈ t.subterms, ∀ n, .nat n ∈ u.ownVars → ∃ m, I.nats.get? n = some m ∧ m.In g') :
    V.Allows g' (t.inst I) := by
  induction t using Ty.componentInduction generalizing I with
  | step t ih =>
    by_cases ht : ∃ p, t = .var p
    · obtain ⟨p, rfl⟩ := ht
      obtain ⟨w, hw, inside⟩ :=
        types _ (Ty.mem_subterms_self _) p.name (List.mem_singleton_self _)
      rwa [Ty.inst_var, hw]
    · have ht : ∀ p, t ≠ .var p := fun p hp => ht ⟨p, hp⟩
      rw [allows_iff, Ty.components_inst ht, List.forall_mem_map]
      refine ⟨h.head.inst ht (nats t (Ty.mem_subterms_self t)), fun c hc => ?_⟩
      -- Nothing that is mentioned is hidden, so what is put in does not change under `t`.
      have inside : ∀ {u}, u ∈ c.subterms → u ∈ t.subterms := Ty.mem_subterms_of_component hc
      have shown : ∀ u ∈ c.subterms, ∀ v ∈ u.ownVars, v.boundBy t.binder = false :=
        fun u hu => unhidden t (Ty.mem_subterms_self t) u (inside hu)
      refine ih c hc (h.component hc) (unhidden.component hc) (fun u hu n hn => ?_)
        fun u hu n hn => ?_
      · rw [Instantiation.types_under (shown u hu _ hn)]
        exact types u (inside hu) n hn
      · rw [Instantiation.nats_under (shown u hu _ hn)]
        exact nats u (inside hu) n hn

/-- **Putting arguments into a type of a header** stays in the vocabulary of the arguments, if all
    parameters of the header get one. -/
theorem Header.inst (h : V.Header g t) (all : I.For g)
    (types : ∀ {n u}, I.types.get? n = some u → V.Allows g' u)
    (nats : ∀ {n m}, I.nats.get? n = some m → m.In g') : V.Allows g' (t.inst I) := by
  refine h.allows.inst h.unhidden (fun u hu n hn => ?_) fun u hu n hn => ?_
  · have known : n ∈ g.typeNames := by
      simpa [Var.isUndetermined, Var.boundBy] using (h.allows u hu).ownVars _ hn
    obtain ⟨w, hw⟩ := Option.isSome_iff_exists.mp ((all.types n).mpr known)
    exact ⟨w, hw, types hw⟩
  · have known : n ∈ g.nats := by
      simpa [Var.isUndetermined, Var.boundBy] using (h.allows u hu).ownVars _ hn
    obtain ⟨m, hm⟩ := Option.isSome_iff_exists.mp ((all.nats n).mpr known)
    exact ⟨m, hm, nats hm⟩

end Vocabulary

end QuantumStatics
