/-
  Instances are no more restrictive.

  A type variable has the class of its bound.  If every argument has a class that the variables it
  replaces admit, an instance of a type has a class that is no more restrictive than that of the
  type; if every argument has the class of the variables it replaces, the class stays the same.
  Classes of struct types are derived from their fields with the arguments put in, so this is shown
  by recursion through the declarations and not over the type alone.

  * `Ty.classify_inst_eq`: arguments with the classes of the variables keep the class;
  * `class_monotone_under_instantiation`: arguments that the bounds admit lower it at most.
-/
import QuantumStatics.Proofs.Classification.Bounds
import QuantumStatics.Proofs.Evaluation
import QuantumStatics.Proofs.Ty.Structs

namespace QuantumStatics

/-- Whether a type mentions a type that is still to be inferred. -/
def Ty.hasUndeterminedType (t : Ty) : Bool := t.anyVar fun v => v.typeStamp?.isSome

/-- Whether a struct is applied to as many arguments as it takes and mentions no type that is still
    to be inferred. -/
def StructDecl.classifiable (d : StructDecl) (types nats : Nat) : Bool :=
  types = d.params.types.length && nats = d.params.nats.length &&
    d.fields.all fun f => !f.type.hasUndeterminedType

/-- Whether a type mentions no type that is still to be inferred, and leads to no struct types but
    those that are applied to as many arguments as they take and mention no such type either. -/
def Ty.classifiable (t : Ty) : Bool :=
  !t.hasUndeterminedType && t.eachStruct StructDecl.classifiable

namespace Ty

theorem hasUndeterminedType_iff {t : Ty} :
    t.hasUndeterminedType ↔ ∃ k, .undetType k ∈ t.vars := by
  rw [hasUndeterminedType, anyVar_eq, List.any_eq_true]
  constructor
  · rintro ⟨v, hv, undetermined⟩
    cases v with
    | undetType k => exact ⟨k, hv⟩
    | type | nat | undetNat => cases undetermined
  · rintro ⟨k, hk⟩
    exact ⟨_, hk, rfl⟩

theorem classifiable_iff {t : Ty} :
    t.classifiable ↔ (∀ k, .undetType k ∉ t.vars) ∧ t.eachStruct StructDecl.classifiable := by
  rw [classifiable, Bool.and_eq_true, Bool.not_eq_true', ← Bool.not_eq_true,
    hasUndeterminedType_iff, not_exists]

theorem classifiable_of_mem_components {t c : Ty} (h : t.classifiable) (hc : c ∈ t.components) :
    c.classifiable := by
  obtain ⟨known, structs⟩ := classifiable_iff.mp h
  refine classifiable_iff.mpr ⟨fun k hk => ?_, eachStruct_of_mem_components structs hc⟩
  exact known k (mem_vars.mpr ⟨rfl, .inr ⟨c, hc, hk⟩⟩)

theorem classifiable_struct {d : StructDecl} {ts : List Ty} {ns : List NatTerm}
    (h : (struct d ts ns).classifiable) :
    (ts.length = d.params.types.length ∧ ns.length = d.params.nats.length) ∧
      ∀ f ∈ d.fields, f.type.classifiable := by
  obtain ⟨own, fields, -⟩ := eachStruct_struct.mp (classifiable_iff.mp h).2
  simp only [StructDecl.classifiable, Bool.and_eq_true, decide_eq_true_eq, List.all_eq_true] at own
  refine ⟨own.1, fun f hf => ?_⟩
  rw [classifiable, own.2 f hf, StructDecl.eachStruct_iff.mp fields f hf]
  rfl

/-! ## Types with a class -/

theorem exists_classifyAll {ts : List Ty} (h : ∀ t ∈ ts, ∃ c, t.classify = .ok c)
    (c : OwnershipClass) : ∃ c', classifyAll c ts = .ok c' := by
  induction ts generalizing c with
  | nil => exact ⟨c, by rw [classifyAll]⟩
  | cons t ts ih =>
    obtain ⟨⟨first, hfirst⟩, others⟩ := List.forall_mem_cons.mp h
    obtain ⟨c', rest⟩ := ih others (c.join first)
    rw [classifyAll]
    exact ⟨c', except_bind_eq_ok.mpr ⟨first, hfirst, rest⟩⟩

theorem exists_classify_of_parts {t : Ty} {c : OwnershipClass} {ps : List Ty}
    (hp : t.parts = .ok (c, ps)) (h : ∀ u ∈ ps, ∃ c, u.classify = .ok c) :
    ∃ c, t.classify = .ok c := by
  rw [classify_of_parts hp]
  exact exists_classifyAll h c

theorem exists_classify_varIn_pair {g : Generics} {types : List Ty} {nats : List NatTerm}
    (h : ∀ u ∈ types, ∃ c, u.classify = .ok c) (q : TypeParam) :
    ∃ c, (varIn (.pair g types nats) q).classify = .ok c := by
  rw [varIn]
  cases hq : (Instantiation.pair g types nats).types.get? q.name with
  | none => exact ⟨_, classify_var q⟩
  | some u => exact h u (Instantiation.mem_of_types_pair hq)

/-- **A classifiable type has a class**, with any arguments that have one. -/
theorem exists_classify_inst {J : Instantiation} : (t : Ty) → t.classifiable →
    (∀ p ∈ t.boundedVars, ∃ c, (varIn J p).classify = .ok c) → ∃ c, (t.inst J).classify = .ok c
  | .prim _ _, _, _ => by
    rw [inst_prim]
    exact exists_classify_of_parts rfl (by simp)
  | .undet k, known, _ =>
    absurd (List.mem_singleton_self _) ((classifiable_iff.mp known).1 k)
  | .var p, _, h => by
    rw [inst_var]
    exact h p (List.mem_singleton_self _)
  | .tuple elems, known, h => by
    rw [inst_tuple]
    refine exists_classify_of_parts rfl (List.forall_mem_map.mpr fun u hu => ?_)
    exact exists_classify_inst u (classifiable_of_mem_components known hu) fun p hp =>
      h p (mem_boundedVarsAll.mpr ⟨u, hu, hp⟩)
  | .array elem _, known, h => by
    rw [inst_array]
    refine exists_classify_of_parts rfl (List.forall_mem_singleton.mpr ?_)
    exact exists_classify_inst elem (classifiable_of_mem_components known List.mem_cons_self) h
  | .option inner, known, h => by
    rw [inst_option]
    refine exists_classify_of_parts rfl (List.forall_mem_singleton.mpr ?_)
    exact exists_classify_inst inner (classifiable_of_mem_components known List.mem_cons_self) h
  | .fn _ _ _, _, _ => by
    rw [inst_fn]
    exact exists_classify_of_parts rfl (by simp)
  | .struct d typeArgs natArgs, known, h => by
    obtain ⟨count, fields⟩ := classifiable_struct known
    have args : ∀ u ∈ typeArgs.map (inst J), ∃ c, u.classify = .ok c :=
      List.forall_mem_map.mpr fun u hu =>
        exists_classify_inst u (classifiable_of_mem_components known hu) fun p hp =>
          h p (mem_boundedVarsAll.mpr ⟨u, hu, hp⟩)
    rw [inst_struct]
    refine exists_classify_of_parts (parts_struct (by simpa using count))
      (List.forall_mem_map.mpr fun f hf => ?_)
    exact exists_classify_inst f.type (fields f hf) fun q _ => exists_classify_varIn_pair args q
termination_by t => sizeOf t
decreasing_by
  · have := List.sizeOf_lt_of_mem hu
    simp_wf
    omega
  · simp_wf
    omega
  · simp_wf
  · have := List.sizeOf_lt_of_mem hu
    simp_wf
    omega
  · have := StructDecl.sizeOf_type_lt hf
    simp_wf
    omega

theorem exists_classify {t : Ty} (h : t.classifiable) : ∃ c, t.classify = .ok c := by
  rw [← t.inst_empty]
  exact exists_classify_inst t h fun p _ => ⟨_, classify_var p⟩

/-! ## Instances -/

variable {I : Instantiation} {t : Ty}

theorem atMost_inst_of_accepts
    (h : ∀ p ∈ t.boundedVars, ∀ u, I.types.get? p.name = some u → p.Accepts u) :
    (t.inst I).AtMost t := by
  conv => arg 2; rw [← t.inst_empty]
  refine atMost_inst t fun p hp => ?_
  show (varIn I p).AtMost (.var p)
  rw [varIn]
  cases hu : I.types.get? p.name with
  | none => exact .refl _
  | some u => exact TypeParam.accepts_iff.mp (h p hp u hu)

theorem classify_inst_eq
    (h : ∀ p ∈ t.boundedVars, ∀ u, I.types.get? p.name = some u → u.classify = .ok p.boundClass)
    {c : OwnershipClass} (hc : t.classify = .ok c) : (t.inst I).classify = .ok c := by
  have below : (t.inst I).AtMost t := atMost_inst_of_accepts fun p hp u hu =>
    ⟨_, h p hp u hu, decide_eq_true p.boundClass.le_refl⟩
  have above : t.AtMost (t.inst I) := by
    conv => arg 1; rw [← t.inst_empty]
    refine atMost_inst t fun p hp => ?_
    show (Ty.var p).AtMost (varIn I p)
    rw [varIn]
    cases hu : I.types.get? p.name with
    | none => exact .refl _
    | some u =>
      intro c' hc'
      cases (h p hp u hu).symm.trans hc'
      exact ⟨_, classify_var p, p.boundClass.le_refl⟩
  obtain ⟨c', hc', le⟩ := below c hc
  obtain ⟨c'', hc'', ge⟩ := above c' hc'
  cases hc.symm.trans hc''
  rw [hc', OwnershipClass.le_antisymm le ge]

end Ty

/-- **Classes are monotone under instantiation.**  A type without types that are still to be
    inferred, in which every struct is applied to as many arguments as it takes, has a class.  If
    every type variable that its class depends on is replaced, if at all, by a type that it admits
    wherever it stands, the instance has a class as well, and one that is no more restrictive; and
    if the arguments have the classes of the variables, it is the same. -/
theorem class_monotone_under_instantiation {t : Ty} {I : Instantiation} (known : t.classifiable)
    (within : ∀ p ∈ t.boundedVars, ∀ u, I.types.get? p.name = some u → p.Accepts u) :
    ∃ c c', t.classify = .ok c ∧ (I.apply t).classify = .ok c' ∧ c' ≤ c ∧
      ((∀ p ∈ t.boundedVars, ∀ u, I.types.get? p.name = some u →
        u.classify = .ok p.boundClass) → c' = c) := by
  obtain ⟨c, hc⟩ := Ty.exists_classify known
  obtain ⟨c', hc', le⟩ := Ty.atMost_inst_of_accepts within c hc
  rw [Instantiation.apply_eq]
  refine ⟨c, c', hc, hc', le, fun same => ?_⟩
  cases hc'.symm.trans (Ty.classify_inst_eq same hc)
  rfl

/-- A parameter for any type. -/
def TypeParam.any (name : String) : TypeParam := { name, copyable := false, droppable := false }

/-- The declaration `struct Cell[T]: value: T?, tag: int`. -/
def cellDecl : StructDecl where
  name := "Cell"
  params := { types := [.any "T"] }
  fields := [⟨"value", .option (.var (.any "T"))⟩, ⟨"tag", .int⟩]

/-- The declaration `struct Shelf[T; N]: cells: array[Cell[T], N]`. -/
def shelfDecl : StructDecl where
  name := "Shelf"
  params := { types := [.any "T"], nats := ["N"] }
  fields := [⟨"cells", .array (.struct cellDecl [.var (.any "T")] []) (.var "N")⟩]

/-- The type `(Shelf[V; 2], W)`, in which values of `W` may be dropped. -/
def shelfAndSpare : Ty :=
  .tuple [.struct shelfDecl [.var (.any "V")] [.const 2], .var { name := "W", copyable := false }]

/-- Arguments for the parameters of `shelf`. -/
def shelfArgs (v w : Ty) : Instantiation := { types := (Dict.insert ∅ "V" v).insert "W" w }

theorem shelf_classes_monotone :
    shelfAndSpare.classifiable ∧ shelfAndSpare.classify = .ok .linear ∧
      (∃ c', ((shelfArgs .rng .int).apply shelfAndSpare).classify = .ok c' ∧ c' ≤ .linear) ∧
      ((shelfArgs .rng .int).apply shelfAndSpare).classify = .ok .affine ∧
      ((shelfArgs .qubit .rng).apply shelfAndSpare).classify = .ok .linear := by
  have known : shelfAndSpare.classifiable := by decide
  have linear : shelfAndSpare.classify = .ok .linear := by cbv
  have vars : shelfAndSpare.boundedVars = [.any "V", { name := "W", copyable := false }] := rfl
  have spare : ∀ p ∈ shelfAndSpare.boundedVars, ∀ u,
      (shelfArgs .rng .int).types.get? p.name = some u → p.Accepts u := by
    rw [vars, List.forall_mem_cons, List.forall_mem_singleton]
    constructor
    · rintro u ⟨⟩
      exact ⟨.affine, by cbv, by decide⟩
    · rintro u ⟨⟩
      exact ⟨.copyable, by cbv, by decide⟩
  have same : ∀ p ∈ shelfAndSpare.boundedVars, ∀ u,
      (shelfArgs .qubit .rng).types.get? p.name = some u → u.classify = .ok p.boundClass := by
    rw [vars, List.forall_mem_cons, List.forall_mem_singleton]
    constructor
    · rintro u ⟨⟩
      cbv
    · rintro u ⟨⟩
      cbv
  obtain ⟨c, c', hc, hc', le, -⟩ := class_monotone_under_instantiation known spare
  obtain ⟨d, d', hd, hd', -, eq⟩ := class_monotone_under_instantiation known fun p hp u hu =>
    ⟨_, same p hp u hu, decide_eq_true p.boundClass.le_refl⟩
  cases linear.symm.trans hc
  cases linear.symm.trans hd
  exact ⟨known, linear, ⟨c', hc', le⟩, by cbv, hd'.trans (congrArg Except.ok (eq same))⟩

end QuantumStatics
