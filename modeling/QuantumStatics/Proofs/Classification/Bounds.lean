/-
  Types within the bounds of structs.

  A struct type is within the bounds of the struct if each of its type arguments has a class that
  the parameter admits.  Whether this holds of a type in a body shows only when all arguments have
  been found out, so it is asked under the substitution that checking the body ends with.
-/
import Mathlib.Data.List.Nodup
import QuantumStatics.Proofs.Classification.Instances
import QuantumStatics.Proofs.Ty.Composition
import QuantumStatics.Signature.Table

namespace QuantumStatics

/-! ## Distinct parameters -/

/-- No two type parameters have one name. -/
def Generics.Distinct (g : Generics) : Prop := g.typeNames.Nodup

theorem Instantiation.mem_zip_of_types_pair {g : Generics} {types : List Ty} {nats : List NatTerm}
    (distinct : g.Distinct) {p : TypeParam} (hp : p ∈ g.types) {u : Ty}
    (h : (pair g types nats).types.get? p.name = some u) : (p, u) ∈ g.types.zip types := by
  rw [pair, Dict.get?_ofListFirst, Generics.typeNames] at h
  have mem := mem_of_lookup h
  rw [List.zip_map_left] at mem
  obtain ⟨⟨q, w⟩, hq, heq⟩ := List.mem_map.mp mem
  obtain ⟨name, rfl⟩ : q.name = p.name ∧ w = u := by simpa using heq
  rwa [List.inj_on_of_nodup_map distinct (List.of_mem_zip hq).1 hp name] at hq

/-- A type has a class that the parameter admits. -/
def TypeParam.Accepts (p : TypeParam) (t : Ty) : Prop := ∃ c, t.classify = .ok c ∧ p.admits c

theorem TypeParam.accepts_iff {p : TypeParam} {t : Ty} : p.Accepts t ↔ t.AtMost (.var p) := by
  constructor
  · rintro ⟨c, known, admits⟩ c' hc'
    cases (Ty.classify_var p).symm.trans hc'
    exact ⟨c, known, of_decide_eq_true admits⟩
  · intro h
    obtain ⟨c, known, le⟩ := h _ (Ty.classify_var p)
    exact ⟨c, known, decide_eq_true le⟩

namespace Ty

/-! ## Classes in the end -/

theorem mem_subterms_of_boundedVars {t : Ty} {p : TypeParam} (h : p ∈ t.boundedVars) :
    .var p ∈ t.subterms := by
  induction t using componentInduction with
  | step t ih =>
    cases t with
    | prim | undet | fn => cases h
    | var q =>
      cases List.mem_singleton.mp h
      exact mem_subterms_self _
    | tuple elems =>
      obtain ⟨u, hu, h⟩ := mem_boundedVarsAll.mp h
      exact mem_subterms_of_component hu (ih u hu h)
    | struct decl typeArgs natArgs =>
      obtain ⟨u, hu, h⟩ := mem_boundedVarsAll.mp h
      exact mem_subterms_of_component hu (ih u hu h)
    | array elem length =>
      exact mem_subterms_of_component List.mem_cons_self (ih elem List.mem_cons_self h)
    | option inner =>
      exact mem_subterms_of_component List.mem_cons_self (ih inner List.mem_cons_self h)

/-- Arguments within the bounds of the variables that they replace make no type more restrictive,
    also when what has been found out is put in. -/
theorem atMost_of_bounds {S : Substitution} {I : Instantiation} {t : Ty}
    (h : ∀ p, .var p ∈ t.subterms → ∀ u, I.types.get? p.name = some u →
      (u.subst S).AtMost (.var p)) : ((t.inst I).subst S).AtMost t := by
  conv => arg 2; rw [← t.inst_empty]
  refine atMost_subst_inst S t fun p hp => ?_
  cases hu : I.types.get? p.name with
  | none =>
    rw [varIn, hu]
    exact .refl _
  | some u =>
    rw [varIn, hu]
    exact h p (mem_subterms_of_boundedVars hp) u hu

theorem atMost_subst (S : Substitution) (t : Ty) : (t.subst S).AtMost t := by
  have := atMost_of_bounds (S := S) (I := {}) (t := t) nofun
  rwa [t.inst_empty] at this

/-! ## Bounded types -/

/-- A struct type is of a registered struct and, in a run that ends with `S`, within its bounds. -/
def BoundedHead (T : SignatureTable) (S : Substitution) : Ty → Prop
  | .struct d ts _ => T.findStruct? d.name = some d ∧
    ∀ x ∈ d.params.types.zip ts, (x.2.subst S).AtMost (.var x.1)
  | .prim _ _ | .var _ | .undet _ | .tuple _ | .array _ _ | .fn _ _ _ | .option _ => True

/-- All struct types in a type are of registered structs and, in a run that ends with `S`, within
    their bounds. -/
def BoundedIn (T : SignatureTable) (S : Substitution) (t : Ty) : Prop :=
  ∀ u ∈ t.subterms, u.BoundedHead T S

/-- All struct types in a type are of registered structs, and their type arguments are accepted by
    the parameters. -/
def Bounded (T : SignatureTable) (t : Ty) : Prop :=
  ∀ d ts ns, .struct d ts ns ∈ t.subterms → T.findStruct? d.name = some d ∧
    ∀ x ∈ d.params.types.zip ts, x.1.Accepts x.2

variable {T : SignatureTable} {S : Substitution} {t : Ty} {g : Generics} {ts : List Ty}
  {ns : List NatTerm}

theorem boundedIn_iff : t.BoundedIn T S ↔ t.BoundedHead T S ∧ ∀ c ∈ t.components, c.BoundedIn T S :=
  forall_mem_subterms

theorem BoundedIn.component {c : Ty} (h : t.BoundedIn T S) (hc : c ∈ t.components) :
    c.BoundedIn T S :=
  (boundedIn_iff.mp h).2 c hc

theorem Bounded.subterm {u : Ty} (h : t.Bounded T) (hu : u ∈ t.subterms) : u.Bounded T :=
  fun d ts ns hd => h d ts ns (mem_subterms_trans hu hd)

theorem Bounded.boundedIn (h : t.Bounded T) : t.BoundedIn T S := by
  intro u hu
  cases u with
  | struct d ts ns =>
    obtain ⟨registered, bounds⟩ := h d ts ns hu
    exact ⟨registered, fun x hx =>
      (atMost_subst S x.2).trans (TypeParam.accepts_iff.mp (bounds x hx))⟩
  | _ => trivial

theorem BoundedIn.bounded (h : t.BoundedIn T S) (fixed : ∀ u ∈ t.subterms, u.subst S = u) :
    t.Bounded T := by
  intro d ts ns hd
  obtain ⟨registered, bounds⟩ := h _ hd
  refine ⟨registered, fun x hx => ?_⟩
  have mem : x.2 ∈ t.subterms := mem_subterms_trans hd
    (mem_subterms_of_component (List.of_mem_zip hx).2 (mem_subterms_self _))
  rw [TypeParam.accepts_iff, ← fixed x.2 mem]
  exact bounds x hx

theorem subst_eq_self_of_mem_subterms (h : t.subst S = t) : ∀ u ∈ t.subterms, u.subst S = u := by
  induction t using componentInduction with
  | step t ih =>
    refine forall_mem_subterms.mpr ⟨h, fun c hc => ih c hc ?_⟩
    have determined : ∀ k, t ≠ .undet k := by
      rintro k rfl
      cases hc
    have components := components_subst (S := S) determined
    rw [h] at components
    exact List.map_inj_left.mp (components.symm.trans (List.map_id _).symm) c hc

/-- **Putting in what has been found out** keeps types bounded. -/
theorem BoundedIn.subst {S' : Substitution} (refines : S'.Refines S)
    (images : ∀ {k u}, S'.types.get? k = some u → u.BoundedIn T S) (h : t.BoundedIn T S) :
    (t.subst S').BoundedIn T S := by
  refine forall_subterms_subst images fun u hu unbound => ?_
  have head := h u hu
  cases u with
  | undet k => simp [unbound k rfl, BoundedHead]
  | struct d ts ns =>
    rw [subst_struct]
    refine ⟨head.1, fun x hx => ?_⟩
    rw [List.zip_map_right] at hx
    obtain ⟨y, hy, rfl⟩ := List.mem_map.mp hx
    rw [Prod.map_snd, refines.subst]
    exact head.2 y hy
  | _ => simp [BoundedHead]

/-- **An instance of a bounded type is bounded in the end**, if the arguments are, and within the
    bounds of the variables that they replace. -/
theorem BoundedIn.inst {I : Instantiation} (h : t.Bounded T)
    (args : ∀ {n u}, I.types.get? n = some u → u.BoundedIn T S)
    (bounds : ∀ p, .var p ∈ t.subterms → ∀ u, I.types.get? p.name = some u →
      (u.subst S).AtMost (.var p)) : (t.inst I).BoundedIn T S := by
  refine forall_subterms_inst args fun u hu J within free => ?_
  cases u with
  | var p => simp [free p rfl, BoundedHead]
  | struct d ts ns =>
    rw [inst_struct]
    obtain ⟨registered, own⟩ := h d ts ns hu
    refine ⟨registered, fun x hx => ?_⟩
    rw [List.zip_map_right] at hx
    obtain ⟨y, hy, rfl⟩ := List.mem_map.mp hx
    -- The argument of a struct in `t` becomes no more restrictive than it was.
    refine .trans (atMost_of_bounds fun p hp u hu' => ?_) (TypeParam.accepts_iff.mp (own y hy))
    have mem : y.2 ∈ t.subterms := mem_subterms_trans hu
      (mem_subterms_of_component (List.of_mem_zip hy).2 (mem_subterms_self _))
    exact bounds p (mem_subterms_trans mem hp) u (within.types hu')
  | _ => simp [BoundedHead]

/-- **A type of a header is bounded in the end**, if it is bounded, if its variables are the generic
    parameters of the header, and if the arguments are bounded and within their bounds. -/
theorem BoundedIn.inst_pair (distinct : g.Distinct) (h : t.Bounded T)
    (flagged : ∀ p, .var p ∈ t.subterms → p ∈ g.types) (args : ∀ u ∈ ts, u.BoundedIn T S)
    (bounds : ∀ x ∈ g.types.zip ts, (x.2.subst S).AtMost (.var x.1)) :
    (t.inst (.pair g ts ns)).BoundedIn T S :=
  .inst h (fun hu => args _ (Instantiation.mem_of_types_pair hu)) fun p hp _ hu =>
    bounds (p, _) (Instantiation.mem_zip_of_types_pair distinct (flagged p hp) hu)

theorem Bounded.inst_pair (distinct : g.Distinct) (h : t.Bounded T)
    (flagged : ∀ p, .var p ∈ t.subterms → p ∈ g.types) (args : ∀ u ∈ ts, u.Bounded T)
    (bounds : ∀ x ∈ g.types.zip ts, x.1.Accepts x.2) : (t.inst (.pair g ts ns)).Bounded T := by
  have inTheEnd : (t.inst (.pair g ts ns)).BoundedIn T {} :=
    .inst_pair distinct h flagged (fun u hu => (args u hu).boundedIn) fun x hx => by
      rw [subst_empty]
      exact TypeParam.accepts_iff.mp (bounds x hx)
  exact inTheEnd.bounded fun u _ => subst_empty u

theorem accepts_inst_pair (distinct : g.Distinct) (flagged : ∀ p, .var p ∈ t.subterms → p ∈ g.types)
    (bounds : ∀ x ∈ g.types.zip ts, x.1.Accepts x.2) {q : TypeParam} (h : q.Accepts t) :
    q.Accepts (t.inst (.pair g ts ns)) := by
  rw [TypeParam.accepts_iff, ← subst_empty (t.inst _)]
  refine .trans (atMost_of_bounds fun p hp u hu => ?_) (TypeParam.accepts_iff.mp h)
  rw [subst_empty]
  exact TypeParam.accepts_iff.mp
    (bounds (p, u) (Instantiation.mem_zip_of_types_pair distinct (flagged p hp) hu))

end Ty

end QuantumStatics
