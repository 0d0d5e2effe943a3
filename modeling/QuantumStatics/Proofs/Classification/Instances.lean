/-
  Classes of instantiated types.

  The class of a type is the most restrictive one of its parts, and a type variable has the class
  of its bound.  So arguments that the bounds admit make no type more restrictive, at any depth of
  nested structs.
-/
import QuantumStatics.Proofs.Classification.Memo
import QuantumStatics.Proofs.Ty.Instantiation
import QuantumStatics.Specialization.Key

namespace QuantumStatics

theorem exists_pairs_of_map_eq {α β γ : Type} {f : α → γ} {g : β → γ} {as : List α} {bs : List β}
    (h : as.map f = bs.map g) :
    ∃ l : List (α × β), as = l.map Prod.fst ∧ bs = l.map Prod.snd ∧ ∀ x ∈ l, f x.1 = g x.2 := by
  induction as generalizing bs with
  | nil =>
    cases bs with
    | nil => exact ⟨[], rfl, rfl, nofun⟩
    | cons => cases h
  | cons a as ih =>
    cases bs with
    | nil => cases h
    | cons b bs =>
      obtain ⟨first, others⟩ := List.cons.inj h
      obtain ⟨l, rfl, rfl, alike⟩ := ih others
      exact ⟨(a, b) :: l, rfl, rfl, List.forall_mem_cons.mpr ⟨first, alike⟩⟩

namespace Ty

/-! ## Classes of parts -/

variable {t : Ty} {c : OwnershipClass} {d : Defect} {ts : List Ty} {α : Type} {ns : List NatTerm}

theorem classify_of_parts {ps : List Ty} (h : t.parts = .ok (c, ps)) :
    t.classify = classifyAll c ps := by
  rw [classify]
  split
  · rename_i h'
    cases h.symm.trans h'
  · rename_i h'
    cases h.symm.trans h'
    rfl

theorem classify_of_defect (h : t.parts = .error d) : t.classify = .error d := by
  rw [classify]
  split
  · rename_i h'
    cases h.symm.trans h'
    rfl
  · rename_i h'
    cases h.symm.trans h'

theorem classify_eq_ok (h : t.classify = .ok c) :
    ∃ c₀ ps, t.parts = .ok (c₀, ps) ∧ classifyAll c₀ ps = .ok c := by
  rw [classify] at h
  split at h
  · cases h
  · rename_i c₀ ps hp
    exact ⟨c₀, ps, hp, h⟩

theorem classifyAll_eq_error (h : classifyAll c ts = .error d) :
    ∃ t ∈ ts, t.classify = .error d := by
  induction ts generalizing c with
  | nil =>
    rw [classifyAll] at h
    cases h
  | cons t ts ih =>
    rw [classifyAll] at h
    rcases except_bind_eq_error.mp h with h | ⟨c', -, h⟩
    · exact ⟨t, List.mem_cons_self, h⟩
    · obtain ⟨u, hu, h⟩ := ih h
      exact ⟨u, List.mem_cons_of_mem t hu, h⟩

theorem parts_of_classify_eq_error (t : Ty) (h : t.classify = .error d) :
    ∃ u : Ty, u.parts = .error d := by
  induction t using parts_induction with
  | step t ih =>
    cases hp : t.parts with
    | error d' =>
      rw [classify_of_defect hp] at h
      cases h
      exact ⟨t, hp⟩
    | ok parts =>
      rw [classify_of_parts hp] at h
      obtain ⟨u, hu, h⟩ := classifyAll_eq_error h
      exact ih _ _ hp u hu h

/-- **Why a type has no class**: it is to be inferred, or a struct is not applied to as many
    arguments as it takes. -/
theorem classify_eq_error (h : t.classify = .error d) :
    (∃ stamp, d = .unclassified stamp) ∨ ∃ name, d = .structArguments name := by
  obtain ⟨u, hu⟩ := parts_of_classify_eq_error t h
  cases u with
  | undet stamp =>
    cases hu
    exact .inl ⟨stamp, rfl⟩
  | struct decl typeArgs natArgs =>
    rw [parts, StructDecl.instantiateFields] at hu
    split at hu
    · cases hu
    · cases hu
      exact .inr ⟨_, rfl⟩
  | _ => cases hu

/-- If the second type has a class, the first one has one that is no more restrictive. -/
def AtMost (t' t : Ty) : Prop := ∀ c, t.classify = .ok c → ∃ c', t'.classify = .ok c' ∧ c' ≤ c

theorem AtMost.refl (t : Ty) : t.AtMost t := fun c h => ⟨c, h, c.le_refl⟩

theorem AtMost.trans {u v : Ty} (h : t.AtMost u) (h' : u.AtMost v) : t.AtMost v := by
  intro c hc
  obtain ⟨c₁, hc₁, le₁⟩ := h' c hc
  obtain ⟨c₂, hc₂, le₂⟩ := h c₁ hc₁
  exact ⟨c₂, hc₂, OwnershipClass.le_trans le₂ le₁⟩

theorem classifyAll_map_le {f f' : α → Ty} {l : List α} (h : ∀ a ∈ l, (f' a).AtMost (f a))
    {c₀ c₀' : OwnershipClass} (hc₀ : c₀' ≤ c₀) (hc : classifyAll c₀ (l.map f) = .ok c) :
    ∃ c', classifyAll c₀' (l.map f') = .ok c' ∧ c' ≤ c := by
  induction l generalizing c₀ c₀' with
  | nil =>
    rw [List.map_nil, classifyAll] at hc ⊢
    cases hc
    exact ⟨c₀', rfl, hc₀⟩
  | cons a l ih =>
    obtain ⟨ha, hl⟩ := List.forall_mem_cons.mp h
    rw [List.map_cons, classifyAll] at hc ⊢
    obtain ⟨c₁, hc₁, hc⟩ := except_bind_eq_ok.mp hc
    obtain ⟨c₁', hc₁', le⟩ := ha c₁ hc₁
    obtain ⟨c', hc', le'⟩ := ih hl (OwnershipClass.join_mono hc₀ le) hc
    exact ⟨c', except_bind_eq_ok.mpr ⟨c₁', hc₁', hc'⟩, le'⟩

theorem atMost_of_parts {t' : Ty} {f f' : α → Ty} {l : List α} (ht : t.parts = .ok (c, l.map f))
    (ht' : t'.parts = .ok (c, l.map f')) (h : ∀ a ∈ l, (f' a).AtMost (f a)) : t'.AtMost t := by
  intro c₁ hc
  rw [classify_of_parts ht] at hc
  rw [classify_of_parts ht']
  exact classifyAll_map_le h c.le_refl hc

theorem atMost_of_part {t' u u' : Ty} (ht : t.parts = .ok (c, [u])) (ht' : t'.parts = .ok (c, [u']))
    (h : u'.AtMost u) : t'.AtMost t :=
  @atMost_of_parts t c (Ty × Ty) t' Prod.fst Prod.snd [(u, u')] ht ht'
    (List.forall_mem_singleton.mpr h)

theorem parts_struct {d : StructDecl}
    (count : ts.length = d.params.types.length ∧ ns.length = d.params.nats.length) :
    (struct d ts ns).parts =
      .ok (.copyable, d.fields.map fun f => f.type.inst (.pair d.params ts ns)) := by
  rw [parts, StructDecl.instantiateFields, if_pos count]
  simp only [Except.map, List.map_map, Function.comp_def, Instantiation.apply_eq]

theorem atMost_struct {d : StructDecl} {ts' : List Ty} {ns' : List NatTerm}
    (hts : ts'.length = ts.length) (hns : ns'.length = ns.length)
    (h : ∀ f ∈ d.fields, (f.type.inst (.pair d.params ts' ns')).AtMost
      (f.type.inst (.pair d.params ts ns))) :
    (struct d ts' ns').AtMost (struct d ts ns) := by
  intro c hc
  by_cases count : ts.length = d.params.types.length ∧ ns.length = d.params.nats.length
  · exact atMost_of_parts (parts_struct count) (parts_struct (by rwa [hts, hns])) h c hc
  · obtain ⟨c₀, ps, hp, -⟩ := classify_eq_ok hc
    rw [parts, StructDecl.instantiateFields, if_neg count] at hp
    cases hp

/-! ## Type variables -/

mutual

/-- The type variables that the class of a type depends on. -/
def boundedVars : Ty → List TypeParam
  | .prim _ _ | .undet _ | .fn _ _ _ => []
  | .var p => [p]
  | .tuple elems => boundedVarsAll elems
  | .array elem _ => elem.boundedVars
  | .struct _ typeArgs _ => boundedVarsAll typeArgs
  | .option inner => inner.boundedVars

/-- The same for some types. -/
def boundedVarsAll : List Ty → List TypeParam
  | [] => []
  | t :: ts => t.boundedVars ++ boundedVarsAll ts

end

theorem boundedVarsAll_eq (ts : List Ty) : boundedVarsAll ts = ts.flatMap boundedVars :=
  companion_eq_flatMap rfl (fun _ _ => rfl) ts

theorem mem_boundedVarsAll {p : TypeParam} :
    p ∈ boundedVarsAll ts ↔ ∃ t ∈ ts, p ∈ t.boundedVars := by
  rw [boundedVarsAll_eq, List.mem_flatMap]

/-- What a type variable stands for. -/
def varIn (I : Instantiation) (p : TypeParam) : Ty := (I.types.get? p.name).getD (.var p)

theorem StructDecl.sizeOf_type_lt {d : StructDecl} {f : Field} (h : f ∈ d.fields) :
    sizeOf f.type < sizeOf d := by
  have := List.sizeOf_lt_of_mem h
  cases d
  cases f
  simp +arith at *
  omega

theorem varIn_pair_atMost {g : Generics} {args : List α} {f f' : α → Ty} {ns' : List NatTerm}
    (h : ∀ u ∈ args, (f' u).AtMost (f u)) (q : TypeParam) :
    (varIn (.pair g (args.map f') ns') q).AtMost (varIn (.pair g (args.map f) ns) q) := by
  simp only [varIn, Instantiation.pair, Dict.get?_ofListFirst, lookup_zip_map]
  cases hq : (g.typeNames.zip args).lookup q.name with
  | none => exact .refl _
  | some u =>
    obtain ⟨before, after, split, -⟩ := List.lookup_eq_some_iff.mp hq
    have mem : (q.name, u) ∈ g.typeNames.zip args := by simp [split]
    exact h u (List.of_mem_zip mem).2

theorem subst_empty (t : Ty) : t.subst {} = t :=
  subst_eq_self fun v _ bound => by cases v <;> cases bound

theorem atMost_subst_inst (S : Substitution) {J J' : Instantiation} : (t : Ty) →
    (∀ p ∈ t.boundedVars, ((varIn J' p).subst S).AtMost (varIn J p)) →
    ((t.inst J').subst S).AtMost (t.inst J)
  | .prim _ _, _ => by
    rw [inst_prim, inst_prim, subst_prim]
    exact .refl _
  | .undet _, _ => by
    rw [inst_undet, inst_undet]
    exact fun _ h => by cases (classify_of_defect rfl).symm.trans h
  | .var p, h => by
    rw [inst_var, inst_var]
    exact h p (List.mem_singleton_self _)
  | .tuple elems, h => by
    rw [inst_tuple, inst_tuple, subst_tuple, List.map_map]
    refine atMost_of_parts rfl rfl fun u hu => atMost_subst_inst S u fun p hp => h p ?_
    exact mem_boundedVarsAll.mpr ⟨u, hu, hp⟩
  | .array elem length, h => by
    rw [inst_array, inst_array, subst_array]
    exact atMost_of_part rfl rfl (atMost_subst_inst S elem h)
  | .option inner, h => by
    rw [inst_option, inst_option, subst_option]
    exact atMost_of_part rfl rfl (atMost_subst_inst S inner h)
  | .fn params result generics, _ => by
    rw [inst_fn, inst_fn, subst_fn]
    intro c hc
    rw [classify_of_parts rfl] at hc ⊢
    exact ⟨c, hc, c.le_refl⟩
  | .struct d typeArgs natArgs, h => by
    rw [inst_struct, inst_struct, subst_struct, List.map_map]
    have args : ∀ u ∈ typeArgs, ((u.inst J').subst S).AtMost (u.inst J) := fun u hu =>
      atMost_subst_inst S u fun p hp => h p (mem_boundedVarsAll.mpr ⟨u, hu, hp⟩)
    refine atMost_struct (by simp) (by simp) fun f hf => ?_
    -- What has been found out is in the arguments now.
    rw [← subst_empty (f.type.inst (.pair _ (typeArgs.map (subst S ∘ inst J')) _))]
    refine atMost_subst_inst {} f.type fun q _ => ?_
    rw [subst_empty]
    exact varIn_pair_atMost args q
termination_by t => sizeOf t
decreasing_by
  · have := List.sizeOf_lt_of_mem hu
    simp_wf
    omega
  · simp_wf
    omega
  · simp_wf
  · have := List.sizeOf_lt_of_mem hu
    simp_wf
    omega
  · have := StructDecl.sizeOf_type_lt hf
    simp_wf
    omega

theorem atMost_inst {J J' : Instantiation} (t : Ty)
    (h : ∀ p ∈ t.boundedVars, (varIn J' p).AtMost (varIn J p)) : (t.inst J').AtMost (t.inst J) := by
  have := atMost_subst_inst {} t fun p hp => by
    rw [subst_empty]
    exact h p hp
  rwa [subst_empty] at this

end Ty

/-! ## Bounds -/

/-- The type variables of a type carry the bounds of the generic parameters of their names. -/
def Ty.Flagged (g : Generics) (t : Ty) : Prop :=
  ∀ p ∈ t.boundedVars, ∀ q ∈ g.findType p.name, q = p

/-- No argument is more restrictive than its parameter. -/
def Instantiation.WithinBounds (g : Generics) (I : Instantiation) : Prop :=
  ∀ n u, I.types.get? n = some u → ∃ p ∈ g.findType n, u.AtMost (.var p)

theorem Ty.atMost_apply {g : Generics} {I : Instantiation} (hI : I.WithinBounds g) {t : Ty}
    (ht : t.Flagged g) : (I.apply t).AtMost t := by
  rw [Instantiation.apply_eq]
  conv => arg 2; rw [← t.inst_empty]
  refine atMost_inst t fun p hp => ?_
  cases hu : I.types.get? p.name with
  | none =>
    rw [varIn, hu]
    exact .refl _
  | some u =>
    obtain ⟨q, hq, le⟩ := hI p.name u hu
    rw [varIn, hu, ← ht p hp q hq]
    exact le

theorem Ty.classify_var (p : TypeParam) : (Ty.var p).classify = .ok p.boundClass := by
  have parts : (Ty.var p).parts = .ok (p.boundClass, []) := rfl
  rw [classify_of_parts parts, classifyAll]

namespace Key

variable {name n : String} {location : Location} {ps : List TypeParam} {ts : List Ty} {k : Key}
  {g : Generics}

theorem checkTypeArgs_cons_eq_ok {p : TypeParam} {t : Ty}
    (h : checkTypeArgs name location (p :: ps) (t :: ts) = .ok ()) :
    (∃ c, t.classify = .ok c ∧ c ≤ p.boundClass) ∧ checkTypeArgs name location ps ts = .ok () := by
  rw [checkTypeArgs] at h
  split at h
  · obtain ⟨c, hc, h⟩ := except_bind_eq_ok.mp h
    dsimp only at h
    split at h
    · rename_i admits
      refine ⟨⟨c, ?_, by simpa [TypeParam.admits] using admits⟩, h⟩
      cases ht : t.classify <;> rw [ht] at hc <;> cases hc
      rfl
    · obtain ⟨_, h, -⟩ := except_bind_eq_ok.mp h
      exact absurd h failure_ne_ok
  · obtain ⟨_, h, -⟩ := except_bind_eq_ok.mp h
    exact absurd h failure_ne_ok

theorem atMost_of_checkTypeArgs {u : Ty} (h : checkTypeArgs name location ps ts = .ok ())
    (hu : ((ps.map (·.name)).zip ts).lookup n = some u) :
    ∃ p, ps.find? (·.name = n) = some p ∧ u.AtMost (.var p) := by
  induction ps generalizing ts with
  | nil => simp at hu
  | cons p ps ih =>
    cases ts with
    | nil => simp at hu
    | cons t ts =>
      obtain ⟨⟨c, hc, le⟩, h⟩ := checkTypeArgs_cons_eq_ok h
      rw [List.map_cons, List.zip_cons_cons, lookup_entry] at hu
      by_cases hn : n = p.name
      · rw [if_pos hn] at hu
        cases hu
        refine ⟨p, by simp [hn], fun c' hc' => ⟨c, hc, ?_⟩⟩
        cases (Ty.classify_var p).symm.trans hc'
        exact le
      · rw [if_neg hn] at hu
        obtain ⟨q, hq, le⟩ := ih h hu
        exact ⟨q, by simpa [Ne.symm hn] using hq, le⟩

theorem checkTypeArgs_of_checkArgs (h : k.checkArgs g location = .ok ()) :
    checkTypeArgs k.name location g.types k.typeArgs = .ok () := by
  unfold checkArgs at h
  split at h
  · obtain ⟨_, h, -⟩ := except_bind_eq_ok.mp h
    exact h
  · obtain ⟨_, h, -⟩ := except_bind_eq_ok.mp h
    exact absurd h failure_ne_ok

/-- **The arguments of a key that passes its check are within the bounds of the parameters.** -/
theorem withinBounds_of_checkArgs {I : Instantiation} (hk : k.checkArgs g location = .ok ())
    (hI : Instantiation.ofArgs g k.typeArgs k.natArgs = .ok I) : I.WithinBounds g := by
  intro n u hu
  unfold Instantiation.ofArgs at hI
  split at hI
  · cases hI
    rw [Instantiation.pair, Dict.get?_ofListFirst] at hu
    exact atMost_of_checkTypeArgs (checkTypeArgs_of_checkArgs hk) hu
  · cases hI

end Key

end QuantumStatics
