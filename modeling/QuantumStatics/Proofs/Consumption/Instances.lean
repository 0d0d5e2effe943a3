/-
  Instances of accepted functions.

  The checker follows a generic function once, with the classes that the bounds of its type
  parameters give.  Its instances are not followed again.  They would be accepted, with the same
  warnings, if a borrowed parameter that the arguments make copyable has its declared type where the
  function is left: the arguments only make classes less restrictive.

  * `checkFunction_alike`: a function that is alike, with less restrictive types, is accepted;
  * `checkFunction_instance`: so are the instances of an accepted function;
  * `replaced_parameter_leaks`: but not if a qubit is given back in place of what was lent.
-/
import QuantumStatics.Proofs.Consumption.Restoring
import QuantumStatics.Proofs.Evaluation

namespace QuantumStatics.Consumption

open Elaboration (LocalTypes paramTypes typeFlow)
open Execution Typed

/-! ## Types and their instances -/

/-- A type of a function with the given generic parameters.  Its text and that of its instance tell
    their classes, and its variables carry the bounds of the parameters. -/
structure Instantiable (g : Generics) (I : Instantiation) (P : Ty → Prop) (t : Ty) : Prop where
  here : P t
  there : P (I.apply t)
  flagged : t.Flagged g

section

variable {g : Generics} {I : Instantiation} {P : Ty → Prop} {t u : Ty} {c c' : OwnershipClass}
  {ps : List Param}

theorem instantiable_prim {name : String} {cls : OwnershipClass} (h : P (.prim name cls)) :
    Instantiable g I P (.prim name cls) := by
  refine ⟨h, ?_, nofun⟩
  rw [Instantiation.apply_eq, Ty.inst_prim]
  exact h

theorem Instantiable.part {ps ps' : List Ty} (hP : TextTells P) (h : Instantiable g I P t)
    (hp : t.parts = .ok (c, ps)) (hu : u ∈ ps) (hp' : (I.apply t).parts = .ok (c', ps'))
    (hu' : I.apply u ∈ ps') (hv : u.boundedVars ⊆ t.boundedVars) : Instantiable g I P u :=
  ⟨hP.parts h.here hp u hu, hP.parts h.there hp' _ hu', fun p hp => h.flagged p (hv hp)⟩

theorem Instantiable.classify_eq (hP : TextTells P) (ht : Instantiable g I P t)
    (hu : Instantiable g I P u) (h : t.equal u) :
    t.classify = u.classify ∧ (I.apply t).classify = (I.apply u).classify := by
  have h' : (I.apply t).equal (I.apply u) := by
    rw [Instantiation.apply_eq, Instantiation.apply_eq]
    exact Ty.equal_inst I h
  exact ⟨hP.classes ht.here hu.here (Ty.text_eq_of_equal h),
    hP.classes ht.there hu.there (Ty.text_eq_of_equal h')⟩

/-- How the classes of types change with arguments within the bounds. -/
def instanceClasses (hP : TextTells P) (hI : I.WithinBounds g) : ClassChange where
  classes a c c' := ∃ t, Instantiable g I P t ∧ t.equal a ∧ t.classify = .ok c ∧
    (I.apply t).classify = .ok c'
  le := by
    rintro a c c' ⟨t, ht, -, hc, hc'⟩
    obtain ⟨d, hd, le⟩ := Ty.atMost_apply hI ht.flagged c hc
    cases hc'.symm.trans hd
    exact le
  unique := by
    rintro a c c' d d' ⟨t, ht, ha, hc, hc'⟩ ⟨u, hu, hb, hd, hd'⟩
    obtain ⟨eq, eq'⟩ := ht.classify_eq hP hu (Ty.equal_trans ha (Ty.equal_symm hb))
    exact ⟨Except.ok.inj (hc.symm.trans (eq.trans hd)),
      Except.ok.inj (hc'.symm.trans (eq'.trans hd'))⟩
  equal := by
    rintro a b c c' hab ⟨t, ht, ha, hc, hc'⟩
    exact ⟨t, ht, Ty.equal_trans ha hab, hc, hc'⟩

/-- The name of a borrowed parameter whose classes, before and after, satisfy `K`. -/
def BorrowedWith (C : ClassChange) (ps : List Param) (K : OwnershipClass → OwnershipClass → Prop)
    (x : String) : Prop :=
  ∃ p c c', lastParam ps x = some p ∧ p.ownership = .borrowed ∧ C.classes p.type c c' ∧ K c c'

theorem borrowedWith_iff {C : ClassChange} {x : String} {p : Param}
    (K : OwnershipClass → OwnershipClass → Prop) (hp : lastParam ps x = some p)
    (hc : C.classes p.type c c') : BorrowedWith C ps K x ↔ p.ownership = .borrowed ∧ K c c' := by
  refine ⟨?_, fun ⟨ho, hK⟩ => ⟨p, c, c', hp, ho, hc, hK⟩⟩
  rintro ⟨q, d, d', hq, ho, hd, hK⟩
  cases hp.symm.trans hq
  obtain ⟨rfl, rfl⟩ := C.unique hc hd
  exact ⟨ho, hK⟩

/-- The parameters that must be given back are the borrowed ones that cannot be copied. -/
def paramsNarrowing (C : ClassChange) (ps : List Param) : Narrowing where
  toClassChange := C
  borrowed := BorrowedWith C ps fun c _ => c ≠ .copyable
  borrowed' := BorrowedWith C ps fun _ c' => c' ≠ .copyable
  kept := by
    rintro x ⟨p, c, c', hp, ho, hc, hne⟩
    refine ⟨p, c, c', hp, ho, hc, ?_⟩
    rintro rfl
    exact hne (OwnershipClass.le_copyable_iff.mp (C.le hc))

/-- A parameter that must be given back, unless the arguments make it copyable. -/
structure FreedBy (I : Instantiation) (p : Param) : Prop where
  borrowed : p.ownership = .borrowed
  before : p.type.classify ≠ .ok .copyable
  after : (I.apply p.type).classify = .ok .copyable

theorem released_of_restored (hP : TextTells P) (hI : I.WithinBounds g)
    (hps : ∀ p ∈ ps, Instantiable g I P p.type) {E : LocalTypes} (h : Restored ps (FreedBy I) E) :
    (paramsNarrowing (instanceClasses hP hI) ps).Released E := by
  rintro x a c c' ⟨p, d, d', hp, ho, hd, hne⟩ hx ha hc rfl
  have copyable : d' = .copyable := by
    by_contra hne'
    exact hx ⟨p, d, d', hp, ho, hd, hne'⟩
  have freed : FreedBy I p := by
    obtain ⟨t, ht, equal, hclass, hclass'⟩ := hd
    obtain ⟨eq, eq'⟩ := ht.classify_eq hP (hps p (mem_of_lastParam hp)) equal
    refine ⟨ho, ?_, by rw [← eq', hclass', copyable]⟩
    rw [← eq, hclass]
    exact fun h => hne (Except.ok.inj h)
  have equal := (instanceClasses hP hI).equal (h x p a hp freed ha) hc
  cases ((instanceClasses hP hI).unique equal hd).2.trans copyable

theorem lesser_fields (hP : TextTells P) (hI : I.WithinBounds g) {d : StructDecl} {ts : List Ty}
    {ns : List NatTerm} {fs : List Field} (h : Instantiable g I P (.struct d ts ns))
    (hfs : d.instantiateFields ts ns = .ok fs) :
    ∃ fs', d.instantiateFields (ts.map (Ty.inst I)) (ns.map (NatTerm.inst I)) = .ok fs' ∧
      List.Forall₂ (fun f f' => Lesser P f.type f'.type) fs fs' := by
  have parts : ∀ {ts : List Ty} {ns : List NatTerm} {fs : List Field},
      d.instantiateFields ts ns = .ok fs → P (.struct d ts ns) → ∀ f ∈ fs, P f.type := by
    intro ts ns fs hfs hs f hf
    have fields : (Ty.struct d ts ns).parts = .ok (.copyable, fs.map (·.type)) := by
      rw [Ty.parts, hfs]
      rfl
    exact hP.parts hs fields _ (List.mem_map_of_mem hf)
  have args : ∀ u ∈ ts, (u.inst I).AtMost u := by
    intro u hu
    rw [← Instantiation.apply_eq]
    refine Ty.atMost_apply hI fun p hp => h.flagged p ?_
    exact Ty.mem_boundedVarsAll.mpr ⟨u, hu, hp⟩
  have here := parts hfs h.here
  have there : ∀ fs', d.instantiateFields (ts.map (Ty.inst I)) (ns.map (NatTerm.inst I)) = .ok fs' →
      ∀ f ∈ fs', P f.type := by
    intro fs' hfs'
    refine parts hfs' ?_
    rw [← Ty.inst_struct, ← Instantiation.apply_eq]
    exact h.there
  unfold StructDecl.instantiateFields at hfs there ⊢
  split at hfs
  · rename_i hlen
    cases hfs
    rw [List.length_map, List.length_map, if_pos hlen] at there ⊢
    refine ⟨_, rfl, ?_⟩
    rw [List.forall₂_map_left_iff, List.forall₂_map_right_iff, List.forall₂_same]
    refine fun f hf => ⟨here _ (List.mem_map_of_mem hf), there _ rfl _ (List.mem_map_of_mem hf), ?_⟩
    rw [Instantiation.apply_eq, Instantiation.apply_eq]
    refine Ty.atMost_inst f.type fun q _ => ?_
    have arg :=
      @Ty.varIn_pair_atMost _ ns d.params ts id (Ty.inst I) (ns.map (NatTerm.inst I)) args q
    rwa [List.map_id] at arg
  · cases hfs

theorem typesNarrow_instance (hP : TextTells P) (hI : I.WithinBounds g) (ps : List Param) :
    TypesNarrow (paramsNarrowing (instanceClasses hP hI) ps) P
      (InstanceOf I (Instantiable g I P)) where
  tells := hP
  lesser := by
    rintro t _ ⟨ht, rfl⟩
    exact ⟨ht.here, ht.there, Ty.atMost_apply hI ht.flagged⟩
  classes := by
    rintro t _ c c' ⟨ht, rfl⟩ hc hc'
    exact ⟨t, ht, t.equal_refl, hc, hc'⟩
  tuple := by
    rintro ts _ ⟨ht, rfl⟩
    have apply : I.apply (.tuple ts) = .tuple (ts.map I.apply) := by
      rw [Instantiation.apply_eq, Ty.inst_tuple, List.map_congr_left fun t _ => I.apply_eq t]
    refine ⟨ts.map I.apply, apply, List.forall₂_map_right_iff.mpr (List.forall₂_same.mpr ?_)⟩
    refine fun u hu => ⟨ht.part hP rfl hu (by rw [apply]; rfl) (List.mem_map_of_mem hu) ?_, rfl⟩
    exact fun p hp => Ty.mem_boundedVarsAll.mpr ⟨u, hu, hp⟩
  array := by
    rintro elem _ n ⟨ht, rfl⟩
    have apply : I.apply (.array elem n) = .array (I.apply elem) (n.inst I) := by
      rw [Instantiation.apply_eq, Instantiation.apply_eq, Ty.inst_array]
    refine ⟨I.apply elem, n.inst I, apply, ⟨?_, rfl⟩, ?_⟩
    · exact ht.part hP rfl (List.mem_singleton_self _) (by rw [apply]; rfl)
        (List.mem_singleton_self _) fun p hp => hp
    · rintro rfl
      rfl
  struct := by
    rintro d ts ns _ fs ⟨ht, rfl⟩ hfs
    obtain ⟨fs', hfs', lesser⟩ := lesser_fields hP hI ht hfs
    exact ⟨_, _, fs', by rw [Instantiation.apply_eq, Ty.inst_struct], hfs', lesser⟩

end

/-! ## Parameters -/

/-- The binding of a parameter whose type has the given class. -/
def paramBinding (p : Param) (c : OwnershipClass) : Binding :=
  { state := .defined, cls := c, borrowedParam := p.ownership = .borrowed && c ≠ .copyable }

theorem borrowedParam_paramBinding (p : Param) (c : OwnershipClass) :
    (paramBinding p c).borrowedParam = true ↔ p.ownership = .borrowed ∧ c ≠ .copyable := by
  simp [paramBinding]

section

variable {C : ClassChange} {P : Ty → Prop} {T : Ty → Ty → Prop} {ps qs : List Param} {p : Param}
  {c c' : OwnershipClass}

theorem narrowsAt_of_lastParam {x : String} {o : Option Ty} {b b' : Option Binding}
    (hx : lastParam qs x = lastParam ps x) (h : (paramsNarrowing C ps).NarrowsAt x o b b') :
    (paramsNarrowing C qs).NarrowsAt x o b b' := by
  have same : ∀ K, BorrowedWith C ps K x ↔ BorrowedWith C qs K x := by
    intro K
    simp only [BorrowedWith, hx]
  cases h with
  | bound h =>
    exact .bound ⟨h.classes, h.state, h.mark.trans (same _), h.mark'.trans (same _)⟩
  | unbound h => exact .unbound fun hb => h ((same _).mpr hb)

theorem narrows_paramBinding (hp : lastParam ps p.name = some p) (hc : C.classes p.type c c') :
    (paramsNarrowing C ps).Narrows p.name p.type (paramBinding p c) (paramBinding p c') where
  classes := hc
  state := ⟨.inl rfl, nofun⟩
  mark := (borrowedParam_paramBinding p c).trans
    (borrowedWith_iff (fun c _ => c ≠ .copyable) hp hc).symm
  mark' := (borrowedParam_paramBinding p c').trans
    (borrowedWith_iff (fun _ c' => c' ≠ .copyable) hp hc).symm

theorem FramesBeside.of_nil {N N' : Narrowing} : ∀ {frames frames' : List LoopFrame},
    FramesBeside N [] frames frames' → FramesBeside N' [] frames frames'
  | [], [], _ => trivial

theorem setParam_answers (hc : C.classes p.type c c') :
    Answers (Together (paramsNarrowing C qs) P (paramTypes qs) [])
      (Follow.setBinding p.name (paramBinding p c)) (Follow.setBinding p.name (paramBinding p c'))
      fun _ _ => Together (paramsNarrowing C (qs ++ [p])) P (paramTypes (qs ++ [p])) [] := by
  intro σ σ' _ τ hσ h
  cases modify_eq_ok.mp h
  have last : lastParam (qs ++ [p]) p.name = some p := by simp [lastParam_append_singleton]
  refine ⟨(), _, rfl, ⟨hσ.memo, hσ.memo', hσ.warnings, hσ.loops.of_nil⟩, hσ.flow.reachable,
    hσ.flow.reachable', fun x => ?_⟩
  dsimp only
  rw [Dict.get?_insert, Dict.get?_insert, paramTypes]
  by_cases hx : x = p.name
  · rw [if_pos hx, if_pos hx, hx, last]
    exact .bound (narrows_paramBinding last hc)
  · have other : lastParam (qs ++ [p]) x = lastParam qs x := by
      rw [lastParam_append_singleton, if_neg (Ne.symm hx)]
    rw [if_neg hx, if_neg hx, other]
    exact narrowsAt_of_lastParam other (hσ.flow.bindings x)

theorem bindParams_answers (hT : ∀ qs, TypesNarrow (paramsNarrowing C qs) P T) {ps' : List Param}
    (hps : List.Forall₂ (ParamAlike T) ps ps') :
    Answers (Together (paramsNarrowing C qs) P (paramTypes qs) []) (bindParams ps) (bindParams ps')
      fun _ _ => Together (paramsNarrowing C (qs ++ ps)) P (paramTypes (qs ++ ps)) [] := by
  induction hps generalizing qs with
  | nil =>
    rw [List.append_nil]
    exact .pure fun _ _ => id
  | @cons p p' ps ps' hp _ ih =>
    rw [bindParams, bindParams, hp.name, hp.ownership, List.append_cons]
    refine (classify_answers (hT qs).tells ((hT qs).lesser hp.type)).bindWith
      fun c c' ⟨hc, hc', _⟩ => ?_
    exact (setParam_answers ((hT qs).classes hp.type hc hc')).bind fun _ _ => ih

end

/-! ## Functions -/

section

variable {N : Narrowing} {P : Ty → Prop} {R : LocalTypes → Prop} {location : Location}

theorem leaveAtEnd_answers (hR : ∀ E, R E → N.Released E) :
    Answers (After N P R []) (do if (← get).flow.reachable then Follow.exitHere location)
      (do if (← get).flow.reachable then Follow.exitHere location)
      fun _ _ => Abreast N P [] := by
  intro σ σ' _ τ hσ h
  obtain ⟨_, _, hget, h⟩ := bind_eq_ok.mp h
  obtain ⟨rfl, rfl⟩ := get_eq_ok.mp hget
  cases hσ.flow with
  | reached hE flow =>
    rw [flow.reachable, if_pos rfl] at h
    have here : Together N P _ [] σ σ' := { hσ with flow := flow }
    obtain ⟨_, τ', h', after⟩ := exitHere_answers (hR _ hE) _ _ _ _ here h
    refine ⟨(), τ', bind_eq_ok.mpr ⟨σ', σ', rfl, ?_⟩, after.toAbreast⟩
    rw [flow.reachable', if_pos rfl]
    exact h'
  | jumped hu hu' =>
    rw [hu] at h
    obtain ⟨-, rfl⟩ := pure_eq_ok.mp h
    refine ⟨(), σ', bind_eq_ok.mpr ⟨σ', σ', rfl, ?_⟩, hσ.toAbreast⟩
    rw [hu']
    rfl

end

section

variable {C : ClassChange} {P : Ty → Prop} {T : Ty → Ty → Prop} {K : Param → Prop}
  {f g : Function} {m m' m₁ : ClassMemo} {ws : List Diagnostic}

theorem followFunction_answers (hT : ∀ qs, TypesNarrow (paramsNarrowing C qs) P T)
    (hfg : f.Alike T g)
    (hps : ∀ E, Restored f.params K E → (paramsNarrowing C f.params).Released E)
    (hflow : (restoring f.params K).Admits (.ofFunction f) (paramTypes f.params) fun _ _ => True) :
    Answers (Together (paramsNarrowing C []) P (paramTypes []) []) (followFunction f)
      (followFunction g) fun _ _ => Abreast (paramsNarrowing C f.params) P [] := by
  unfold followFunction
  rw [hfg.name, hfg.location]
  refine (bindParams_answers hT hfg.params).bind fun _ _ => ?_
  refine (checkBlock_answers (hT _) hps f.body hfg.body hflow (by rintro _ ⟨⟩)).bind fun _ _ => ?_
  refine leaveAtEnd_answers fun E hE => hps E ?_
  obtain ⟨_, ⟨_, ⟨-, restored⟩, -⟩, -⟩ := hE
  exact restored

theorem checkFunction_alike (hT : ∀ qs, TypesNarrow (paramsNarrowing C qs) P T)
    (hfg : f.Alike T g)
    (hps : ∀ E, Restored f.params K E → (paramsNarrowing C f.params).Released E)
    (hflow : (restoring f.params K).Admits (.ofFunction f) (paramTypes f.params) fun _ _ => True)
    (hm : m.Plain P) (hm' : m'.Plain P) (h : checkFunction f m = .ok ws m₁) :
    ∃ m₂, checkFunction g m' = .ok ws m₂ := by
  have start : Together (paramsNarrowing C []) P (paramTypes []) [] { memo := m } { memo := m' } :=
    ⟨⟨hm, hm', rfl, trivial⟩, rfl, rfl, fun _ => .unbound nofun⟩
  unfold checkFunction at h ⊢
  split at h
  · rename_i τ run
    cases h
    obtain ⟨_, τ', run', after⟩ := followFunction_answers hT hfg hps hflow _ _ _ _ start run
    rw [run']
    exact ⟨τ'.memo, congrArg (EStateM.Result.ok · τ'.memo) after.warnings⟩
  · cases h

end

/-- **Instances of an accepted function are accepted, with the same warnings.**  Paths that are
    joined must agree on types.  A borrowed parameter that the arguments make copyable must have its
    declared type where the function is left, and no loop may run over a type variable that stands
    for arrays. -/
theorem checkFunction_instance {σ : Type} {r : Replacement σ} {f g : Function} {I : Instantiation}
    {types : List Ty} {nats : List NatTerm} {location : Location} {P : Ty → Prop}
    {m m' m₁ : ClassMemo} {ws : List Diagnostic} {s s' : σ}
    (hargs : Key.checkArgs ⟨f.qualifiedName, types, nats⟩ f.generics location = .ok ())
    (hI : Instantiation.ofArgs f.generics types nats = .ok I)
    (hr : r.Instantiates I) (hg : f.replace r s = .ok g s')
    (htypes : f.EachType (Instantiable f.generics I P))
    (hflow : (restoring f.params (FreedBy I)).Admits (.ofFunction f) (paramTypes f.params)
      fun _ _ => True)
    (hloops : Stmt.EachIterableAll (GivesNoArray I) f.body)
    (hP : TextTells P) (hlit : HoldsOfLiterals P) (hm : m.Plain P) (hm' : m'.Plain P)
    (h : checkFunction f m = .ok ws m₁) :
    ∃ m₂, checkFunction { g with generics := {} } m' = .ok ws m₂ := by
  have bounds : I.WithinBounds f.generics := Key.withinBounds_of_checkArgs hargs hI
  have literals : HoldsOfLiterals (Instantiable f.generics I P) :=
    ⟨instantiable_prim hlit.float, instantiable_prim hlit.bool, instantiable_prim hlit.nat⟩
  have alike := Function.alike_of_replace hr literals htypes hloops hg
  exact checkFunction_alike (typesNarrow_instance hP bounds)
    ⟨alike.name, alike.location, alike.params, alike.body⟩
    (fun _ => released_of_restored hP bounds htypes.params) hflow hm hm' h

/-! ## Two functions and their instances -/

/-- A type parameter for values that need not be consumed. -/
def droppableParam : TypeParam := ⟨"T", false, true⟩

/-- Gives a name away. -/
def sinkCall (t : Ty) (x : String) : Expr :=
  .call {} .none { callee := "sink", kind := .function, ownership := [.owned], typeArgs := [t] }
    [.name {} t x .consume]

/-- Takes another value in exchange for the one that was lent, if it is asked to. -/
def exchanges : Function where
  name := "exchanges"
  generics := { types := [droppableParam] }
  params := [⟨"p", .var droppableParam, .borrowed⟩, ⟨"q", .var droppableParam, .owned⟩,
    ⟨"c", .bool, .borrowed⟩]
  result := .none
  body :=
    [.branch {} (.name {} .bool "c" .read)
      [.expr {} (sinkCall (.var droppableParam) "p"),
        .assign {} "p" (.name {} (.var droppableParam) "q" .consume)] []]

/-- Holds a qubit in place of the value that was lent. -/
def replacesByQubit : Function where
  name := "replacesByQubit"
  generics := { types := [droppableParam] }
  params := [⟨"p", .var droppableParam, .borrowed⟩]
  result := .none
  body :=
    [.expr {} (sinkCall (.var droppableParam) "p"),
      .assign {} "p" (.call {} .qubit { callee := "qubit", kind := .function, ownership := [] } [])]

/-- `int` for the parameter. -/
def intArgument : Instantiation := .pair { types := [droppableParam] } [.int] []

/-- What the specializer does for the argument `int`. -/
def closingInt : Replacement Specialization.Draft :=
  Specialization.closing {} {} intArgument {} fun _ _ => .defect .chainTooLong

/-- The types in the two functions and in their instances, and those of literals. -/
def leafTypes : List Ty := [.var droppableParam, .int, .qubit, .none, .float, .bool, .nat]

theorem eq_of_mem_leafTypes {t : Ty} (ht : t ∈ leafTypes) :
    t = .var droppableParam ∨ ∃ name cls, t = .prim name cls := by
  simp only [leafTypes, List.mem_cons, List.not_mem_nil, or_false] at ht
  obtain rfl | rfl | rfl | rfl | rfl | rfl | rfl := ht
  · exact .inl rfl
  all_goals exact .inr ⟨_, _, rfl⟩

theorem textTells_leafTypes : TextTells (· ∈ leafTypes) where
  parts ht hp u hu := by
    obtain rfl | ⟨name, cls, rfl⟩ := eq_of_mem_leafTypes ht <;> cases hp <;> cases hu
  classes ht hu h := by
    have texts : (leafTypes.map Ty.text).Nodup := by decide
    rw [List.inj_on_of_nodup_map texts ht hu h]

theorem instantiable_of_mem_leafTypes {t : Ty} (ht : t ∈ leafTypes) :
    Instantiable { types := [droppableParam] } intArgument (· ∈ leafTypes) t := by
  obtain rfl | ⟨name, cls, rfl⟩ := eq_of_mem_leafTypes ht
  · have int : intArgument.apply (.var droppableParam) = .int := by cbv
    refine ⟨ht, by simp [int, leafTypes], fun p hp q hq => ?_⟩
    cases List.mem_singleton.mp hp
    cases hq
    rfl
  · exact instantiable_prim ht

theorem sinkCall_eachType : (sinkCall (.var droppableParam) "p").EachType
    (Instantiable { types := [droppableParam] } intArgument (· ∈ leafTypes)) := by
  have var := instantiable_of_mem_leafTypes (t := .var droppableParam) (by simp [leafTypes])
  exact ⟨instantiable_of_mem_leafTypes (by simp [leafTypes]), by simpa using var, var, trivial⟩

theorem exchanges_eachType : exchanges.EachType
    (Instantiable exchanges.generics intArgument (· ∈ leafTypes)) := by
  have var := instantiable_of_mem_leafTypes (t := .var droppableParam) (by simp [leafTypes])
  have bool := instantiable_of_mem_leafTypes (t := .bool) (by simp [leafTypes])
  have unit := instantiable_of_mem_leafTypes (t := .none) (by simp [leafTypes])
  exact ⟨by simpa [exchanges] using ⟨var, bool⟩, unit,
    ⟨bool, ⟨sinkCall_eachType, var, trivial⟩, trivial⟩, trivial⟩

theorem replacesByQubit_eachType : replacesByQubit.EachType
    (Instantiable replacesByQubit.generics intArgument (· ∈ leafTypes)) := by
  have var := instantiable_of_mem_leafTypes (t := .var droppableParam) (by simp [leafTypes])
  have qubit := instantiable_of_mem_leafTypes (t := .qubit) (by simp [leafTypes])
  have unit := instantiable_of_mem_leafTypes (t := .none) (by simp [leafTypes])
  exact ⟨by simpa [replacesByQubit] using var, unit, sinkCall_eachType, ⟨qubit, nofun, trivial⟩,
    trivial⟩

theorem exchanges_restores : (restoring exchanges.params (FreedBy intArgument)).Admits
    (.ofFunction exchanges) (paramTypes exchanges.params) fun _ _ => True := by
  have restored := restored_paramTypes exchanges.params (FreedBy intArgument)
  have rebound : (paramTypes exchanges.params).bind "p" (.var droppableParam) =
      paramTypes exchanges.params := LocalTypes.bind_eq_self rfl
  generalize exchanges.params = ps at restored rebound ⊢
  generalize paramTypes ps = E at restored rebound ⊢
  simp only [Control.ofFunction, exchanges, Control.ofBlock, Control.ofStmt, FlowAnalysis.Admits,
    Post.onNormal]
  refine ⟨E, restoring_evaluation.mpr rfl, some E, ?_, ?_, E, rfl, E, rfl, .refl E⟩
  · rintro _ ⟨⟩
    exact ⟨E, rfl, E, ⟨E, ⟨rfl, restored⟩, rfl⟩, trivial⟩
  · refine ⟨E, restoring_evaluation.mpr rfl, E, ?_, E, rfl, E, rfl, .refl E⟩
    exact (restoring_steps_uses _).mpr ⟨_, ⟨⟨_, Ty.equal_refl _, rebound.symm⟩, trivial⟩, rfl⟩

/-- The specialization to `int` is accepted. -/
theorem exchanges_instance :
    let leaf t := t ∈ leafTypes
    ∃ g d, Key.checkArgs ⟨exchanges.qualifiedName, [.int], []⟩ exchanges.generics {} = .ok () ∧
      Instantiation.ofArgs exchanges.generics [.int] [] = .ok intArgument ∧
      closingInt.Instantiates intArgument ∧ exchanges.replace closingInt { cache := {} } = .ok g d ∧
      exchanges.EachType (Instantiable exchanges.generics intArgument leaf) ∧
      (restoring exchanges.params (FreedBy intArgument)).Admits (.ofFunction exchanges)
        (paramTypes exchanges.params) (fun _ _ => True) ∧
      Stmt.EachIterableAll (GivesNoArray intArgument) exchanges.body ∧
      TextTells leaf ∧ HoldsOfLiterals leaf ∧ (∃ m, checkFunction exchanges {} = .ok [] m) ∧
      ∃ m, checkFunction { g with generics := {} } {} = .ok [] m := by
  intro leaf
  have args : Key.checkArgs ⟨exchanges.qualifiedName, [.int], []⟩ exchanges.generics {} =
      .ok () := by cbv
  have instantiates : closingInt.Instantiates intArgument := Specialization.instantiates_closing
  have loops : Stmt.EachIterableAll (GivesNoArray intArgument) exchanges.body := by
    simp [exchanges, Stmt.EachIterableAll, Stmt.EachIterable]
  have literals : HoldsOfLiterals leaf := by constructor <;> simp [leaf, leafTypes]
  have accepted : checkFunction exchanges {} =
      .ok [] { classes := .ofList [("bool", .copyable), ("none", .copyable)] } := by cbv
  obtain ⟨g, d, replaced⟩ : ∃ g d, exchanges.replace closingInt { cache := {} } = .ok g d :=
    ⟨_, _, by cbv⟩
  exact ⟨g, d, args, rfl, instantiates, replaced, exchanges_eachType, exchanges_restores, loops,
    textTells_leafTypes, literals, ⟨_, accepted⟩,
    checkFunction_instance args rfl instantiates replaced exchanges_eachType exchanges_restores
      loops textTells_leafTypes literals (ClassMemo.plain_empty _) (ClassMemo.plain_empty _)
      accepted⟩

/-- **An instance of an accepted function need not be accepted.**  The generic function gives a
    qubit back in place of a value of its type parameter.  An integer need not be given back, so the
    instance leaks the qubit. -/
theorem replaced_parameter_leaks :
    let leaf t := t ∈ leafTypes
    ∃ g d, Key.checkArgs ⟨replacesByQubit.qualifiedName, [.int], []⟩ replacesByQubit.generics {} =
        .ok () ∧
      Instantiation.ofArgs replacesByQubit.generics [.int] [] = .ok intArgument ∧
      replacesByQubit.replace closingInt { cache := {} } = .ok g d ∧
      replacesByQubit.EachType (Instantiable replacesByQubit.generics intArgument leaf) ∧
      TextTells leaf ∧
      typeFlow.Admits (.ofFunction replacesByQubit) (paramTypes replacesByQubit.params)
        (fun _ _ => True) ∧
      (∃ m, checkFunction replacesByQubit {} = .ok [] m) ∧
      ∃ m, checkFunction { g with generics := {} } {} =
        .error (.rejected ⟨.neverConsumed "p", {}⟩) m := by
  intro leaf
  refine ⟨_, _, by cbv, rfl, by cbv, replacesByQubit_eachType, textTells_leafTypes, ?_,
    ⟨_, by cbv⟩, _, by cbv⟩
  simp only [Control.ofFunction, replacesByQubit, Control.ofBlock, Control.ofStmt,
    FlowAnalysis.Admits, Post.onNormal]
  refine ⟨_, Elaboration.steps_uses fun u hu t ht => ?_, _,
    ⟨_, ⟨⟨_, Ty.equal_refl _, rfl⟩, trivial⟩, rfl⟩, _, rfl, _, ⟨_, ⟨rfl, trivial⟩, rfl⟩, trivial⟩
  cases List.mem_singleton.mp hu
  cases ht
  rfl

/-- Leaves a loop over a value of its type parameter. -/
def leavesLoop : Function where
  name := "leavesLoop"
  generics := { types := [⟨"T", false, false⟩] }
  params := [⟨"p", .var ⟨"T", false, false⟩, .owned⟩]
  result := .none
  body :=
    [.forLoop {} "x" .qubit (.name {} (.var ⟨"T", false, false⟩) "p" .consume)
      [.expr {} (sinkCall .qubit "x"), .breakLoop {}]]

-- A loop over a type parameter may be left, until the parameter stands for an array of qubits.
example :
    let I := Instantiation.pair leavesLoop.generics [.array .qubit (.const 2)] []
    ∃ g, leavesLoop.replace (.ofInstantiation I) () = .ok g () ∧
      (∃ m, checkFunction leavesLoop {} = .ok [] m) ∧
      ∃ m, checkFunction { g with generics := {} } {} =
        .error (.rejected ⟨.breakFromLoop "x", {}⟩) m :=
  ⟨_, by cbv, ⟨_, by cbv⟩, _, by cbv⟩

end QuantumStatics.Consumption
