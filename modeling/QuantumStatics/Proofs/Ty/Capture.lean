/-
  Variables that are captured.

  A function type binds its own generic parameters, and instantiating keeps their names.  If an
  argument is put under a function type that binds a variable of the argument, the variable is
  captured: it was free in the argument and is bound in the instance.

  * `Ty.inst_andThen`: if nothing is captured (`Instantiation.Spares`), instantiating twice is
    instantiating once, with the composition;
  * `binders_respected_iff_spared`: only then.
-/
import QuantumStatics.Dict.Align
import QuantumStatics.Proofs.Evaluation
import QuantumStatics.Proofs.Ty.Composition

namespace QuantumStatics

variable {t : Ty} {v : Var} {α β : Type} {I J : Instantiation}

/-! ## Occurrences -/

/-- A place where a variable stands free in a type. -/
structure Occurrence where
  var : Var
  /-- The generic parameters of the function types around the place, the outermost first. -/
  scopes : List Generics := []
  deriving DecidableEq, Repr

namespace Occurrence

/-- Whether a variable that is put in at a place is bound there. -/
def captures (o : Occurrence) (v : Var) : Bool := o.scopes.any fun g => v.boundBy g

/-- An occurrence outside of all function types. -/
def bare (v : Var) : Occurrence := { var := v }

/-- An occurrence in a function type with the parameters `g`. -/
def within (g : Generics) (o : Occurrence) : Occurrence := { o with scopes := g :: o.scopes }

@[simp] theorem var_within (g : Generics) (o : Occurrence) : (o.within g).var = o.var := rfl

@[simp] theorem captures_within (g : Generics) (o : Occurrence) (v : Var) :
    (o.within g).captures v = (v.boundBy g || o.captures v) := rfl

end Occurrence

mutual

/-- The places where variables stand free in a type. -/
def Ty.occurrences : Ty → List Occurrence
  | .prim _ _ => []
  | .var p => [.bare (.type p.name)]
  | .undet stamp => [.bare (.undetType stamp)]
  | .tuple elems => Ty.occurrencesAll elems
  | .array elem length => elem.occurrences ++ length.vars.map .bare
  | .struct _ typeArgs natArgs =>
    Ty.occurrencesAll typeArgs ++ (natArgs.flatMap NatTerm.vars).map .bare
  | .fn params result generics =>
    ((Ty.occurrencesParams params ++ result.occurrences).filter fun o =>
      !o.var.boundBy generics).map (.within generics)
  | .option inner => inner.occurrences

/-- The same for some types. -/
def Ty.occurrencesAll : List Ty → List Occurrence
  | [] => []
  | t :: ts => t.occurrences ++ Ty.occurrencesAll ts

/-- The same for the parameters of a function type. -/
def Ty.occurrencesParams : List ParamType → List Occurrence
  | [] => []
  | ⟨t, _⟩ :: ps => t.occurrences ++ Ty.occurrencesParams ps

end

namespace Instantiation

/-- The variables that come in for a variable: those of its argument, or itself. -/
def varsFor (I : Instantiation) : Var → List Var
  | .type n => ((I.types.get? n).map Ty.vars).getD [.type n]
  | .nat n => ((I.nats.get? n).map NatTerm.vars).getD [.nat n]
  | .undetType stamp => [.undetType stamp]
  | .undetNat stamp => [.undetNat stamp]

/-- The variables that come in at a place and are not captured there. -/
def varsAt (I : Instantiation) (o : Occurrence) : List Var :=
  (I.varsFor o.var).filter fun v => !o.captures v

/-- No variable that comes in is captured. -/
def Spares (I : Instantiation) (t : Ty) : Prop :=
  ∀ o ∈ t.occurrences, ∀ v ∈ I.varsFor o.var, o.captures v = false

instance (I : Instantiation) (t : Ty) : Decidable (I.Spares t) :=
  inferInstanceAs (Decidable (∀ o ∈ t.occurrences, ∀ v ∈ I.varsFor o.var, o.captures v = false))

/-- The composition of two instantiations: the arguments of the first, instantiated by the second,
    and the other arguments of the second. -/
def andThen (I J : Instantiation) : Instantiation where
  types := (I.types.map (Ty.inst J)).union J.types
  nats := (I.nats.map (NatTerm.inst J)).union J.nats

@[simp] theorem types_andThen (I J : Instantiation) (n : String) :
    (I.andThen J).types.get? n = ((I.types.get? n).map (Ty.inst J)).or (J.types.get? n) := by
  rw [andThen, Dict.get?_union, Dict.get?_map]

@[simp] theorem nats_andThen (I J : Instantiation) (n : String) :
    (I.andThen J).nats.get? n = ((I.nats.get? n).map (NatTerm.inst J)).or (J.nats.get? n) := by
  rw [andThen, Dict.get?_union, Dict.get?_map]

variable {g : Generics} {o : Occurrence}

theorem varsFor_without_of_bound (I : Instantiation) (h : v.boundBy g) :
    (I.without g).varsFor v = [v] := by
  cases v with
  | type n =>
    have bound : n ∈ g.typeNames := by simpa [Var.boundBy] using h
    simp [varsFor, bound]
  | nat n =>
    have bound : n ∈ g.nats := by simpa [Var.boundBy] using h
    simp [varsFor, bound]
  | undetType | undetNat => rfl

theorem varsFor_without_of_free (I : Instantiation) (h : v.boundBy g = false) :
    (I.without g).varsFor v = I.varsFor v := by
  cases v with
  | type n =>
    have free : n ∉ g.typeNames := by simpa [Var.boundBy] using h
    simp [varsFor, free]
  | nat n =>
    have free : n ∉ g.nats := by simpa [Var.boundBy] using h
    simp [varsFor, free]
  | undetType | undetNat => rfl

theorem varsAt_bare (I : Instantiation) (v : Var) : I.varsAt (.bare v) = I.varsFor v :=
  List.filter_eq_self.mpr fun _ _ => rfl

theorem varsAt_within (I : Instantiation) (free : o.var.boundBy g = false) :
    I.varsAt (o.within g) = ((I.without g).varsAt o).filter fun v => !v.boundBy g := by
  simp [varsAt, varsFor_without_of_free I free, List.filter_filter]

theorem filter_varsAt_of_bound (I : Instantiation) (bound : o.var.boundBy g) :
    ((I.without g).varsAt o).filter (fun v => !v.boundBy g) = [] := by
  simp [varsAt, varsFor_without_of_bound I bound, List.filter_filter, bound]

end Instantiation

namespace Ty

attribute [local simp] occurrences occurrencesAll occurrencesParams

theorem occurrencesAll_eq (ts : List Ty) : occurrencesAll ts = ts.flatMap occurrences :=
  companion_eq_flatMap rfl (fun _ _ => rfl) ts

theorem occurrencesParams_eq (ps : List ParamType) :
    occurrencesParams ps = ps.flatMap fun p => p.type.occurrences := by
  refine companion_eq_flatMap rfl ?_ ps
  rintro ⟨t, ownership⟩ ps
  rfl

theorem map_var_occurrences (t : Ty) : t.occurrences.map (·.var) = t.vars := by
  have bare : ∀ vs : List Var, (vs.map Occurrence.bare).map (·.var) = vs := by
    intro vs
    simp [Occurrence.bare, Function.comp_def]
  induction t with
  | prim | var | undet => rfl
  | tuple elems ih =>
    rw [occurrences, vars, occurrencesAll_eq, varsAll_eq, List.map_flatMap]
    exact List.flatMap_congr ih
  | array elem length ih => rw [occurrences, vars, List.map_append, ih, bare]
  | struct decl typeArgs natArgs ih =>
    rw [occurrences, vars, occurrencesAll_eq, varsAll_eq, List.map_append, List.map_flatMap,
      List.flatMap_congr ih, bare]
  | fn params result generics ihp ihr =>
    have inner : (occurrencesParams params ++ result.occurrences).map (·.var) =
        varsParams params ++ result.vars := by
      rw [occurrencesParams_eq, varsParams_eq, List.map_append, List.map_flatMap, ihr,
        List.flatMap_congr ihp]
    rw [occurrences, vars, ← inner, List.filter_map, List.map_map]
    rfl
  | option inner ih => exact ih

theorem mem_occurrences_fn {params : List ParamType} {result : Ty} {generics : Generics}
    {o : Occurrence} : o ∈ (fn params result generics).occurrences ↔
      ∃ c ∈ (fn params result generics).components, ∃ o' ∈ c.occurrences,
        o'.var.boundBy generics = false ∧ o = o'.within generics := by
  simp only [occurrences, occurrencesParams_eq, components, List.mem_map, List.mem_filter,
    List.mem_append, List.mem_flatMap, List.mem_singleton, Bool.not_eq_true']
  constructor
  · rintro ⟨o', ⟨⟨p, hp, ho⟩ | ho, free⟩, rfl⟩
    · exact ⟨p.type, .inl ⟨p, hp, rfl⟩, o', ho, free, rfl⟩
    · exact ⟨result, .inr rfl, o', ho, free, rfl⟩
  · rintro ⟨c, ⟨p, hp, rfl⟩ | rfl, o', ho, free, rfl⟩
    · exact ⟨o', ⟨.inl ⟨p, hp, ho⟩, free⟩, rfl⟩
    · exact ⟨o', ⟨.inr ho, free⟩, rfl⟩

theorem mem_occurrences (ht : ∀ params result generics, t ≠ .fn params result generics)
    {o : Occurrence} : o ∈ t.occurrences ↔
      (∃ v ∈ t.ownVars, o = .bare v) ∨ ∃ c ∈ t.components, o ∈ c.occurrences := by
  cases t with
  | fn params result generics => exact absurd rfl (ht params result generics)
  | _ =>
    simp [occurrencesAll_eq, ownVars, components, eq_comm, or_comm]

theorem captures_var_of_mem_occurrences {o : Occurrence} (h : o ∈ t.occurrences) :
    o.captures o.var = false := by
  induction t using componentInduction generalizing o with
  | step t ih =>
    cases t with
    | fn params result generics =>
      obtain ⟨c, hc, o', ho, free, rfl⟩ := mem_occurrences_fn.mp h
      simp [free, ih c hc ho]
    | _ =>
      rcases (mem_occurrences (by simp)).mp h with ⟨v, -, rfl⟩ | ⟨c, hc, h⟩
      · rfl
      · exact ih c hc h

end Ty

/-! ## The variables of an instance -/

theorem NatTerm.vars_inst (I : Instantiation) (n : NatTerm) :
    (n.inst I).vars = n.vars.flatMap I.varsFor := by
  cases n with
  | const | undet => rfl
  | var name =>
    rw [inst_var, vars, List.flatMap_singleton, Instantiation.varsFor]
    cases I.nats.get? name <;> rfl

theorem flatMap_eq_flatMap_filter {p : α → Bool} {f f' : α → List β} {as : List α}
    (kept : ∀ a ∈ as, p a = true → f a = f' a) (dropped : ∀ a ∈ as, p a = false → f a = []) :
    as.flatMap f = (as.filter p).flatMap f' := by
  induction as with
  | nil => rfl
  | cons a as ih =>
    rw [List.forall_mem_cons] at kept dropped
    have rest := ih kept.2 dropped.2
    cases ha : p a with
    | true => rw [List.filter_cons_of_pos ha, List.flatMap_cons, List.flatMap_cons, kept.1 ha, rest]
    | false => rw [List.filter_cons_of_neg (by simp [ha]), List.flatMap_cons, dropped.1 ha, rest,
        List.nil_append]

/-- **The variables of an instance** are those that come in at each place and are not captured
    there. -/
theorem Ty.vars_inst (I : Instantiation) (t : Ty) :
    (t.inst I).vars = t.occurrences.flatMap I.varsAt := by
  have nats : ∀ (I : Instantiation) (vs : List Var),
      (vs.map Occurrence.bare).flatMap I.varsAt = vs.flatMap I.varsFor := by
    intro I vs
    rw [List.flatMap_map]
    exact List.flatMap_congr fun v _ => I.varsAt_bare v
  induction t generalizing I with
  | prim => simp [vars, occurrences]
  | var p =>
    rw [inst_var, occurrences, List.flatMap_singleton, I.varsAt_bare, Instantiation.varsFor]
    cases I.types.get? p.name <;> rfl
  | undet k => simp [vars, occurrences, I.varsAt_bare, Instantiation.varsFor]
  | tuple elems ih =>
    rw [inst_tuple, vars, varsAll_eq, List.flatMap_map, occurrences, occurrencesAll_eq,
      List.flatMap_assoc]
    exact List.flatMap_congr fun t ht => ih t ht I
  | array elem length ih =>
    rw [inst_array, vars, occurrences, List.flatMap_append, ih, nats, length.vars_inst]
  | struct decl typeArgs natArgs ih =>
    rw [inst_struct, vars, varsAll_eq, List.flatMap_map, List.flatMap_map, occurrences,
      occurrencesAll_eq, List.flatMap_append, List.flatMap_assoc, nats, List.flatMap_assoc,
      List.flatMap_congr fun t ht => ih t ht I,
      List.flatMap_congr fun n _ => NatTerm.vars_inst I n]
  | fn params result generics ihp ihr =>
    have inner : varsParams (params.map (ParamType.inst (I.without generics))) ++
          (result.inst (I.without generics)).vars =
        (occurrencesParams params ++ result.occurrences).flatMap (I.without generics).varsAt := by
      rw [varsParams_eq, List.flatMap_map, List.flatMap_append, occurrencesParams_eq,
        List.flatMap_assoc, ihr]
      congr 1
      exact List.flatMap_congr fun p hp => ihp p hp (I.without generics)
    rw [inst_fn, vars, inner, List.filter_flatMap, occurrences, List.flatMap_map]
    refine flatMap_eq_flatMap_filter (fun o _ free => ?_) fun o _ bound => ?_
    · exact (I.varsAt_within (by simpa using free)).symm
    · exact I.filter_varsAt_of_bound (by simpa using bound)
  | option inner ih =>
    rw [inst_option]
    exact ih I

theorem Instantiation.varsFor_eq_nil {g : Generics} (all : I.For g)
    (types : ∀ {n u}, I.types.get? n = some u → u.closed)
    (nats : ∀ {n m}, I.nats.get? n = some m → m.isConst) (bound : v.boundBy g) :
    I.varsFor v = [] := by
  cases v with
  | type n =>
    have given := (all.types n).mpr (by simpa [Var.boundBy] using bound)
    obtain ⟨u, hu⟩ := Option.isSome_iff_exists.mp given
    simp [varsFor, hu, Ty.closed_iff.mp (types hu)]
  | nat n =>
    have given := (all.nats n).mpr (by simpa [Var.boundBy] using bound)
    obtain ⟨m, hm⟩ := Option.isSome_iff_exists.mp given
    have const := nats hm
    cases m with
    | const => simp [varsFor, hm, NatTerm.vars]
    | var | undet => cases const
  | undetType | undetNat => cases bound

theorem length_flatMap_le {f g : α → List β} {as : List α}
    (le : ∀ a ∈ as, (f a).length ≤ (g a).length) :
    (as.flatMap f).length ≤ (as.flatMap g).length := by
  induction as with
  | nil => exact Nat.le_refl 0
  | cons a as ih =>
    rw [List.forall_mem_cons] at le
    have rest := ih le.2
    simp only [List.flatMap_cons, List.length_append]
    omega

theorem length_eq_of_flatMap_eq {f g : α → List β} {as : List α}
    (le : ∀ a ∈ as, (f a).length ≤ (g a).length)
    (h : (as.flatMap f).length = (as.flatMap g).length) :
    ∀ a ∈ as, (f a).length = (g a).length := by
  induction as with
  | nil =>
    intro a ha
    cases ha
  | cons a as ih =>
    rw [List.forall_mem_cons] at le ⊢
    have rest := length_flatMap_le le.2
    simp only [List.flatMap_cons, List.length_append] at h
    exact ⟨by omega, ih le.2 (by omega)⟩

theorem Ty.vars_inst_eq_iff : (t.inst I).vars = t.vars.flatMap I.varsFor ↔ I.Spares t := by
  rw [vars_inst, ← map_var_occurrences, List.flatMap_map]
  constructor
  · intro h o ho v hv
    have lengths := length_eq_of_flatMap_eq (fun o _ => List.length_filter_le _ (I.varsFor o.var))
      (congrArg List.length h) o ho
    simpa using List.length_filter_eq_length_iff.mp lengths v hv
  · intro spares
    refine List.flatMap_congr fun o ho => List.filter_eq_self.mpr fun v hv => ?_
    simp [spares o ho v hv]

/-! ## Instantiating twice -/

namespace Instantiation

/-- Two instantiations replace a variable alike. -/
def AgreesAt (I J : Instantiation) : Var → Prop
  | .type n => I.types.get? n = J.types.get? n
  | .nat n => I.nats.get? n = J.nats.get? n
  | .undetType _ | .undetNat _ => True

/-- The third instantiation replaces a variable as the first and then the second do. -/
def ChainsAt (I J K : Instantiation) : Var → Prop
  | .type n => K.types.get? n = ((I.types.get? n).map (Ty.inst J)).or (J.types.get? n)
  | .nat n => K.nats.get? n = ((I.nats.get? n).map (NatTerm.inst J)).or (J.nats.get? n)
  | .undetType _ | .undetNat _ => True

theorem chainsAt_andThen (I J : Instantiation) (v : Var) : I.ChainsAt J (I.andThen J) v := by
  cases v with
  | type n => exact types_andThen I J n
  | nat n => exact nats_andThen I J n
  | undetType | undetNat => trivial

theorem leaves_under_of_bound (I : Instantiation) (h : v.boundBy t.binder) :
    (I.under t).Leaves v := by
  cases t with
  | fn params result generics =>
    cases v with
    | type n =>
      have bound : n ∈ generics.typeNames := by simpa [Var.boundBy, Ty.binder] using h
      simp [Leaves, under, bound]
    | nat n =>
      have bound : n ∈ generics.nats := by simpa [Var.boundBy, Ty.binder] using h
      simp [Leaves, under, bound]
    | undetType | undetNat => trivial
  | _ => cases v <;> cases h

theorem agreesAt_under (I : Instantiation) (free : v.boundBy t.binder = false) :
    I.AgreesAt (I.under t) v := by
  cases v with
  | type n => exact (types_under free).symm
  | nat n => exact (nats_under free).symm
  | undetType | undetNat => trivial

theorem AgreesAt.under {I J : Instantiation} (h : v.boundBy t.binder = false → I.AgreesAt J v) :
    (I.under t).AgreesAt (J.under t) v := by
  cases bound : v.boundBy t.binder with
  | true =>
    have left := I.leaves_under_of_bound bound
    have right := J.leaves_under_of_bound bound
    cases v with
    | type n => exact left.trans right.symm
    | nat n => exact left.trans right.symm
    | undetType | undetNat => trivial
  | false =>
    have agrees := h bound
    cases v with
    | type n => exact (types_under bound).trans (agrees.trans (types_under bound).symm)
    | nat n => exact (nats_under bound).trans (agrees.trans (nats_under bound).symm)
    | undetType | undetNat => trivial

end Instantiation

open Instantiation

theorem NatTerm.inst_eq_of_agreesAt {n : NatTerm} (h : ∀ v ∈ n.vars, I.AgreesAt J v) :
    n.inst I = n.inst J := by
  cases n with
  | const | undet => rfl
  | var name =>
    have agrees : I.nats.get? name = J.nats.get? name := h _ (List.mem_singleton_self _)
    rw [inst_var, inst_var, agrees]

namespace Ty

/-- A type with its components and the nats of its outermost form replaced. -/
def mapParts (f : Ty → Ty) (m : NatTerm → NatTerm) : Ty → Ty
  | .prim name cls => .prim name cls
  | .var p => .var p
  | .undet stamp => .undet stamp
  | .tuple elems => .tuple (elems.map f)
  | .array elem length => .array (f elem) (m length)
  | .struct decl typeArgs natArgs => .struct decl (typeArgs.map f) (natArgs.map m)
  | .fn params result generics =>
    .fn (params.map fun p => ⟨f p.type, p.ownership⟩) (f result) generics
  | .option inner => .option (f inner)

theorem mapParts_mapParts (f f' : Ty → Ty) (m m' : NatTerm → NatTerm) (t : Ty) :
    (t.mapParts f m).mapParts f' m' = t.mapParts (f' ∘ f) (m' ∘ m) := by
  cases t <;> simp [mapParts, Function.comp_def]

theorem mapParts_congr {f f' : Ty → Ty} {m m' : NatTerm → NatTerm}
    (types : ∀ c ∈ t.components, f c = f' c) (nats : ∀ n ∈ t.ownNats, m n = m' n) :
    t.mapParts f m = t.mapParts f' m' := by
  cases t with
  | prim | var | undet => rfl
  | tuple elems =>
    have elems' : elems.map f = elems.map f' := List.map_congr_left types
    rw [mapParts, mapParts, elems']
  | array elem length =>
    rw [mapParts, mapParts, types elem List.mem_cons_self, nats length List.mem_cons_self]
  | struct decl typeArgs natArgs =>
    have typeArgs' : typeArgs.map f = typeArgs.map f' := List.map_congr_left types
    have natArgs' : natArgs.map m = natArgs.map m' := List.map_congr_left nats
    rw [mapParts, mapParts, typeArgs', natArgs']
  | fn params result generics =>
    have params' : ∀ p ∈ params, (⟨f p.type, p.ownership⟩ : ParamType) = ⟨f' p.type, p.ownership⟩ :=
      fun p hp => by rw [types p.type (List.mem_append_left _ (List.mem_map_of_mem hp))]
    rw [mapParts, mapParts, List.map_congr_left params',
      types result (List.mem_append_right _ List.mem_cons_self)]
  | option inner => rw [mapParts, mapParts, types inner List.mem_cons_self]

theorem inst_eq_mapParts (I : Instantiation) (ht : ∀ p, t ≠ .var p) :
    t.inst I = t.mapParts (inst (I.under t)) (NatTerm.inst I) := by
  cases t with
  | var p => exact absurd rfl (ht p)
  | _ => simp [mapParts, under, ParamType.inst]

theorem mem_vars_of_ownNats {n : NatTerm} (hn : n ∈ t.ownNats) (hv : v ∈ n.vars) : v ∈ t.vars := by
  refine mem_vars.mpr ⟨?_, .inl (mem_ownVars_of_ownNats hn hv)⟩
  cases t with
  | array | struct => cases v <;> rfl
  | _ => cases hn

theorem inst_eq_of_agreesAt {I J : Instantiation} (h : ∀ v ∈ t.vars, I.AgreesAt J v) :
    t.inst I = t.inst J := by
  induction t using componentInduction generalizing I J with
  | step t ih =>
    cases t with
    | var p =>
      have agrees : I.types.get? p.name = J.types.get? p.name := h _ (List.mem_singleton_self _)
      rw [inst_var, inst_var, agrees]
    | _ =>
      rw [inst_eq_mapParts I (by simp), inst_eq_mapParts J (by simp)]
      refine mapParts_congr (fun c hc => ih c hc fun v hv => AgreesAt.under fun free => ?_)
        fun n hn => NatTerm.inst_eq_of_agreesAt fun v hv => h v (mem_vars_of_ownNats hn hv)
      exact h v (mem_vars.mpr ⟨free, .inr ⟨c, hc, hv⟩⟩)

end Ty

namespace Instantiation

theorem Spares.component {I : Instantiation} {t c : Ty} (h : I.Spares t) (hc : c ∈ t.components) :
    (I.under t).Spares c := by
  intro o ho v hv
  cases t with
  | fn params result generics =>
    cases bound : o.var.boundBy generics with
    | true =>
      rw [under, varsFor_without_of_bound I bound, List.mem_singleton] at hv
      rw [hv]
      exact Ty.captures_var_of_mem_occurrences ho
    | false =>
      rw [under, varsFor_without_of_free I bound] at hv
      have kept := h _ (Ty.mem_occurrences_fn.mpr ⟨c, hc, o, ho, bound, rfl⟩) v hv
      exact (Bool.or_eq_false_iff.mp kept).2
  | _ => exact h o ((Ty.mem_occurrences (by simp)).mpr (.inr ⟨c, hc, ho⟩)) v hv

theorem Spares.free {I : Instantiation} {t c : Ty} (h : I.Spares t) (hc : c ∈ t.components)
    {v w : Var} (hv : v ∈ c.vars) (free : v.boundBy t.binder = false) (hw : w ∈ I.varsFor v) :
    w.boundBy t.binder = false := by
  cases t with
  | fn params result generics =>
    rw [← Ty.map_var_occurrences] at hv
    obtain ⟨o, ho, rfl⟩ := List.mem_map.mp hv
    have kept := h _ (Ty.mem_occurrences_fn.mpr ⟨c, hc, o, ho, free, rfl⟩) w hw
    exact (Bool.or_eq_false_iff.mp kept).1
  | _ => cases w <;> rfl

theorem ChainsAt.under {I J K : Instantiation} (h : v.boundBy t.binder = false → I.ChainsAt J K v ∧
    ∀ w ∈ I.varsFor v, w.boundBy t.binder = false) :
    (I.under t).ChainsAt (J.under t) (K.under t) v := by
  cases bound : v.boundBy t.binder with
  | true =>
    have first := I.leaves_under_of_bound bound
    have second := J.leaves_under_of_bound bound
    have both := K.leaves_under_of_bound bound
    cases v with
    | type n => simp_all [Leaves, ChainsAt]
    | nat n => simp_all [Leaves, ChainsAt]
    | undetType | undetNat => trivial
  | false =>
    obtain ⟨chains, free⟩ := h bound
    cases v with
    | type n =>
      rw [ChainsAt] at chains ⊢
      rw [types_under bound, types_under bound, types_under bound, chains]
      cases hu : I.types.get? n with
      | none => rfl
      | some u =>
        -- The binder takes nothing away from what the argument mentions.
        have argument : u.inst J = u.inst (J.under t) :=
          Ty.inst_eq_of_agreesAt fun w hw => J.agreesAt_under (free w (by simpa [varsFor, hu] using hw))
        simp [argument]
    | nat n =>
      rw [ChainsAt] at chains ⊢
      rw [nats_under bound, nats_under bound, nats_under bound, chains]
      cases hm : I.nats.get? n with
      | none => rfl
      | some m =>
        have argument : m.inst J = m.inst (J.under t) :=
          NatTerm.inst_eq_of_agreesAt fun w hw =>
            J.agreesAt_under (free w (by simpa [varsFor, hm] using hw))
        simp [argument]
    | undetType | undetNat => trivial

end Instantiation

theorem NatTerm.inst_inst_of_chainsAt {K : Instantiation} {n : NatTerm}
    (chains : ∀ v ∈ n.vars, I.ChainsAt J K v) : (n.inst I).inst J = n.inst K := by
  cases n with
  | const | undet => rfl
  | var name =>
    have chain : K.nats.get? name = _ := chains _ (List.mem_singleton_self _)
    rw [inst_var, inst_var, chain]
    cases I.nats.get? name with
    | none => rw [Option.getD_none, inst_var]; rfl
    | some m => rfl

/-- **Instantiating twice is instantiating once**, if the first time nothing is captured. -/
theorem Ty.inst_inst_of_spares {K : Instantiation} (spares : I.Spares t)
    (chains : ∀ v ∈ t.vars, I.ChainsAt J K v) : (t.inst I).inst J = t.inst K := by
  induction t using componentInduction generalizing I J K with
  | step t ih =>
    cases t with
    | var p =>
      have chain : K.types.get? p.name = _ := chains _ (List.mem_singleton_self _)
      rw [inst_var, inst_var, chain]
      cases I.types.get? p.name with
      | none => rw [Option.getD_none, inst_var]; rfl
      | some u => rfl
    | _ =>
      rw [inst_eq_mapParts I (by simp), inst_eq_mapParts K (by simp),
        inst_eq_mapParts J (by simp [mapParts]), mapParts_mapParts]
      refine mapParts_congr (fun c hc => ?_) fun n hn =>
        NatTerm.inst_inst_of_chainsAt fun v hv => chains v (mem_vars_of_ownNats hn hv)
      refine ih c hc (spares.component hc) fun v hv => ChainsAt.under fun free => ?_
      exact ⟨chains v (mem_vars.mpr ⟨free, .inr ⟨c, hc, hv⟩⟩), fun w => spares.free hc hv free⟩

theorem Ty.inst_andThen (spares : I.Spares t) : (t.inst I).inst J = t.inst (I.andThen J) :=
  inst_inst_of_spares spares fun v _ => I.chainsAt_andThen J v

namespace Instantiation

theorem spares_of_simple (I : Instantiation) (simple : t.Simple) : I.Spares t := by
  -- Nothing is bound at any of the places, whatever comes in.
  have unbound : ∀ {o}, o ∈ t.occurrences → ∀ v, o.captures v = false := by
    induction t using Ty.componentInduction with
    | step t ih =>
      intro o ho v
      have binds := simple t (Ty.mem_subterms_self t)
      cases t with
      | fn params result generics =>
        obtain ⟨c, hc, o', ho', -, rfl⟩ := Ty.mem_occurrences_fn.mp ho
        have free : v.boundBy generics = false := by
          rw [show generics = {} from binds]
          cases v <;> rfl
        rw [Occurrence.captures_within, free, ih c hc (simple.component hc) ho' v, Bool.or_false]
      | _ =>
        rcases (Ty.mem_occurrences (by simp)).mp ho with ⟨w, -, rfl⟩ | ⟨c, hc, ho⟩
        · rfl
        · exact ih c hc (simple.component hc) ho v
  exact fun o ho v _ => unbound ho v

theorem chainsAt_pair {g : Generics} {types : List Ty} {nats : List NatTerm} (I : Instantiation)
    (ht : types.length = g.types.length) (hn : nats.length = g.nats.length) (bound : v.boundBy g) :
    (pair g types nats).ChainsAt I
      (pair g (types.map (Ty.inst I)) (nats.map (NatTerm.inst I))) v := by
  have composes := composes_pair g types nats I
  have given := for_pair ht hn
  cases v with
  | type n =>
    have arg := (given.types n).mpr (by simpa [Var.boundBy] using bound)
    obtain ⟨u, hu⟩ := Option.isSome_iff_exists.mp arg
    rw [ChainsAt, composes.types, hu]
    rfl
  | nat n =>
    have arg := (given.nats n).mpr (by simpa [Var.boundBy] using bound)
    obtain ⟨m, hm⟩ := Option.isSome_iff_exists.mp arg
    rw [ChainsAt, composes.nats, hm]
    rfl
  | undetType | undetNat => trivial

end Instantiation

/-! ## Capture shows -/

theorem Occurrence.captures_undetermined {o : Occurrence} (h : v.isUndetermined) :
    o.captures v = false := by
  have free : ∀ g : Generics, v.boundBy g = false := by
    intro g
    cases v with
    | type | nat => cases h
    | undetType | undetNat => rfl
  simp [captures, free]

namespace Instantiation

/-- The instantiation that replaces one variable, by something that nothing can bind. -/
def mark : Var → Instantiation
  | .type n => { types := .insert ∅ n (.undet 0) }
  | .nat n => { nats := .insert ∅ n (.undet 0) }
  | .undetType _ | .undetNat _ => {}

theorem mem_varsFor_mark {v w x : Var} (h : x ∈ (mark w).varsFor v) :
    x = v ∨ x.isUndetermined := by
  cases w <;> cases v <;> simp only [mark, varsFor, Dict.get?_insert, Dict.get?_empty] at h <;>
    grind [Ty.vars, NatTerm.vars, Var.isUndetermined]

theorem spares_mark (w : Var) (t : Ty) : (mark w).Spares t := by
  intro o ho x hx
  rcases mem_varsFor_mark hx with rfl | undetermined
  · exact Ty.captures_var_of_mem_occurrences ho
  · exact Occurrence.captures_undetermined undetermined

theorem exists_varsFor_mark {w : Var} (h : w.isUndetermined = false) :
    ∃ x, (mark w).varsFor w = [x] ∧ x.isUndetermined := by
  cases w with
  | type n => exact ⟨.undetType 0, by simp [mark, varsFor, Dict.get?_insert, Ty.vars], rfl⟩
  | nat n => exact ⟨.undetNat 0, by simp [mark, varsFor, Dict.get?_insert, NatTerm.vars], rfl⟩
  | undetType | undetNat => cases h

/-- The variables that come in, each with its place. -/
def incoming (I : Instantiation) (t : Ty) : List (Occurrence × Var) :=
  t.occurrences.flatMap fun o => (I.varsFor o.var).map fun v => (o, v)

/-- What comes in for a variable that has come in, unless it has been captured. -/
def afterwards (J : Instantiation) (q : Occurrence × Var) : List Var :=
  if q.1.captures q.2 then [] else J.varsFor q.2

/-- What comes in for a variable before it comes in, and is not captured. -/
def beforehand (J : Instantiation) (q : Occurrence × Var) : List Var :=
  (J.varsFor q.2).filter fun v => !q.1.captures v

section

variable {I J : Instantiation} (spares : ∀ t, J.Spares t)

include spares

theorem vars_inst_inst (t : Ty) :
    ((t.inst I).inst J).vars = (I.incoming t).flatMap J.afterwards := by
  rw [Ty.vars_inst_eq_iff.mpr (spares _), Ty.vars_inst, incoming, List.flatMap_assoc,
    List.flatMap_assoc]
  refine List.flatMap_congr fun o _ => ?_
  rw [List.flatMap_map]
  refine (flatMap_eq_flatMap_filter (fun v _ kept => ?_) fun v _ dropped => ?_).symm
  · exact if_neg (by simpa using kept)
  · exact if_pos (by simpa using dropped)

theorem varsFor_andThen (v : Var) :
    (I.andThen J).varsFor v = (I.varsFor v).flatMap J.varsFor := by
  cases v with
  | type n =>
    rw [varsFor, varsFor, types_andThen]
    cases I.types.get? n with
    | none => simp [varsFor]
    | some u => simp [Ty.vars_inst_eq_iff.mpr (spares u)]
  | nat n =>
    rw [varsFor, varsFor, nats_andThen]
    cases I.nats.get? n with
    | none => simp [varsFor]
    | some m => simp [NatTerm.vars_inst]
  | undetType | undetNat => rfl

theorem vars_inst_andThen (t : Ty) :
    (t.inst (I.andThen J)).vars = (I.incoming t).flatMap J.beforehand := by
  rw [Ty.vars_inst, incoming, List.flatMap_assoc]
  refine List.flatMap_congr fun o _ => ?_
  rw [varsAt, varsFor_andThen spares, List.filter_flatMap, List.flatMap_map]
  rfl

end

theorem length_afterwards_mark_le (w : Var) (q : Occurrence × Var) :
    ((mark w).afterwards q).length ≤ ((mark w).beforehand q).length := by
  by_cases captured : q.1.captures q.2 = true
  · rw [afterwards, if_pos captured]
    exact Nat.zero_le _
  · have kept : (mark w).beforehand q = (mark w).varsFor q.2 := by
      refine List.filter_eq_self.mpr fun x hx => ?_
      rcases mem_varsFor_mark hx with rfl | undetermined
      · simpa using captured
      · simp [Occurrence.captures_undetermined undetermined]
    exact Nat.le_of_eq (congrArg List.length ((if_neg captured).trans kept.symm))

/-- **If instantiating twice is always instantiating once, nothing is captured.**  A variable that
    is captured the first time is out of reach the second time; the composition reaches it before
    it comes in. -/
theorem spares_of_inst_inst {I : Instantiation} {t : Ty}
    (h : ∀ J, (t.inst I).inst J = t.inst (I.andThen J)) : I.Spares t := by
  intro o ho w hw
  by_contra captured
  rw [Bool.not_eq_false] at captured
  have determined : w.isUndetermined = false := by
    by_contra undetermined
    rw [Occurrence.captures_undetermined (by simpa using undetermined)] at captured
    cases captured
  have vars := congrArg Ty.vars (h (mark w))
  rw [vars_inst_inst (spares_mark w), vars_inst_andThen (spares_mark w)] at vars
  have lengths := length_eq_of_flatMap_eq (fun q _ => length_afterwards_mark_le w q)
    (congrArg List.length vars) (o, w) (List.mem_flatMap.mpr ⟨o, ho, List.mem_map_of_mem hw⟩)
  obtain ⟨x, hx, undetermined⟩ := exists_varsFor_mark determined
  simp [afterwards, beforehand, captured, hx, Occurrence.captures_undetermined undetermined]
    at lengths

end Instantiation

/-- **Instantiating respects binders exactly if nothing is captured.**  An instance mentions what
    comes in at each place, less what is captured there.  It mentions all that comes in if and only
    if nothing is captured, and so it is with instantiating twice being instantiating once, with the
    composition. -/
theorem binders_respected_iff_spared (I : Instantiation) (t : Ty) :
    (I.apply t).vars = t.occurrences.flatMap I.varsAt ∧
      ((I.apply t).vars = t.vars.flatMap I.varsFor ↔ I.Spares t) ∧
      ((∀ J : Instantiation, J.apply (I.apply t) = (I.andThen J).apply t) ↔ I.Spares t) := by
  simp only [Instantiation.apply_eq]
  refine ⟨Ty.vars_inst I t, Ty.vars_inst_eq_iff, Instantiation.spares_of_inst_inst, ?_⟩
  intro spares J
  exact Ty.inst_andThen spares

/-- A generic function type with the parameter `T` that takes a `u`. -/
def handlerOf (u : Ty) : Ty := .fn [⟨u, .borrowed⟩] .none { types := [{ name := "T" }] }

/-- One type argument. -/
def Instantiation.one (n : String) (u : Ty) : Instantiation := { types := .insert ∅ n u }

/-- **A type parameter that is captured.**  If `T` is put in for `U` in `[T](U) -> none`, the type
    that comes out mentions nothing, and `int` for `T` does not change it any more. -/
theorem handler_captures_parameter :
    ((Instantiation.one "U" (.var { name := "T" })).apply (handlerOf (.var { name := "U" }))).vars =
        [] ∧
      (handlerOf (.var { name := "U" })).vars.flatMap
          (Instantiation.one "U" (.var { name := "T" })).varsFor = [.type "T"] ∧
      (Instantiation.one "T" .int).apply ((Instantiation.one "U" (.var { name := "T" })).apply
          (handlerOf (.var { name := "U" }))) = handlerOf (.var { name := "T" }) ∧
      ((Instantiation.one "U" (.var { name := "T" })).andThen (.one "T" .int)).apply
          (handlerOf (.var { name := "U" })) = handlerOf .int := by
  refine ⟨?_, ?_, ?_, ?_⟩ <;> cbv

end QuantumStatics
