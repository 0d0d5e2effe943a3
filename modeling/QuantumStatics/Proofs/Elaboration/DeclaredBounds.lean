/-
  The bounds of the type variables in a checked body.

  A type variable carries the bound of its parameter, but it is looked up and compared by name.  The
  check of declared types does not compare bounds, and headers and fields are not looked into when
  they are used.  So a variable of a body has the bound of the generic parameter of its name if those
  of the declared types have, and those that come in from elsewhere: the variables of headers and
  fields that arguments do not replace.

  * `checked_variables_carry_declared_bounds`: the variables of a checked function have the bounds
    that its generic parameters declare;
  * `body_checked_under_other_bounds`: they may have others if a declared type or a header has.
-/
import QuantumStatics.Proofs.Elaboration.Vocabulary
import QuantumStatics.Proofs.Program.Headers
import QuantumStatics.Proofs.Ty.Relinking

namespace QuantumStatics

/-- Whether a type variable has the bound of the generic parameter of its name, if there is one. -/
def TypeParam.agrees (g : Generics) (p : TypeParam) : Bool :=
  (g.findType p.name).all fun q => p.boundClass = q.boundClass

mutual

/-- The type variables that are left in a type when those of some names are replaced.  A function
    type hides its own generic parameters. -/
def Ty.unreplaced (names : List String) : Ty → List TypeParam
  | .prim _ _ | .undet _ => []
  | .var p => if p.name ∈ names then [] else [p]
  | .tuple elems => Ty.unreplacedAll names elems
  | .array elem _ => elem.unreplaced names
  | .struct _ typeArgs _ => Ty.unreplacedAll names typeArgs
  | .fn params result generics =>
    Ty.unreplacedParams (names.filter (· ∉ generics.typeNames)) params ++
      result.unreplaced (names.filter (· ∉ generics.typeNames))
  | .option inner => inner.unreplaced names

/-- The same for some types. -/
def Ty.unreplacedAll (names : List String) : List Ty → List TypeParam
  | [] => []
  | t :: ts => t.unreplaced names ++ Ty.unreplacedAll names ts

/-- The same for the parameters of a function type. -/
def Ty.unreplacedParams (names : List String) : List ParamType → List TypeParam
  | [] => []
  | ⟨t, _⟩ :: ps => t.unreplaced names ++ Ty.unreplacedParams names ps

end

/-- Whether the variables that arguments for the parameters of a struct leave in its fields have the
    bounds of the generic parameters of their names. -/
def StructDecl.agrees (g : Generics) (d : StructDecl) : Bool :=
  d.fields.all fun f => (f.type.unreplaced d.params.typeNames).all (·.agrees g)

/-- The variables that are left in a type when those of some names are replaced have the bounds of
    the generic parameters of their names, and so have those that the fields of the structs that the
    type leads to leave. -/
structure Ty.Agrees (g : Generics) (names : List String) (t : Ty) : Prop where
  vars : ∀ p ∈ t.unreplaced names, p.agrees g
  structs : t.eachStruct fun d _ _ => d.agrees g

instance (g : Generics) (names : List String) (t : Ty) : Decidable (t.Agrees g names) :=
  decidable_of_iff
    ((∀ p ∈ t.unreplaced names, p.agrees g) ∧ t.eachStruct fun d _ _ => d.agrees g)
    ⟨fun h => ⟨h.1, h.2⟩, fun h => ⟨h.vars, h.structs⟩⟩

namespace Ty

variable {g : Generics} {names : List String} {p : TypeParam} {t : Ty}

theorem mem_unreplacedAll {ts : List Ty} :
    p ∈ unreplacedAll names ts ↔ ∃ t ∈ ts, p ∈ t.unreplaced names := by
  induction ts with
  | nil => simp [unreplacedAll]
  | cons t ts ih => simp [unreplacedAll, ih]

theorem mem_unreplacedParams {ps : List ParamType} :
    p ∈ unreplacedParams names ps ↔ ∃ q ∈ ps, p ∈ q.type.unreplaced names := by
  induction ps with
  | nil => simp [unreplacedParams]
  | cons q ps ih =>
    obtain ⟨t, ownership⟩ := q
    simp [unreplacedParams, ih]

/-- The names that are still replaced in the components of a type. -/
def visible (names : List String) (t : Ty) : List String :=
  names.filter (· ∉ t.binder.typeNames)

theorem visible_of_binder (h : t.binder = {}) : t.visible names = names := by
  simp [visible, h, Generics.typeNames]

theorem mem_unreplaced (ht : ∀ p, t ≠ .var p) :
    p ∈ t.unreplaced names ↔ ∃ c ∈ t.components, p ∈ c.unreplaced (t.visible names) := by
  cases t with
  | var q => exact absurd rfl (ht q)
  | prim | undet => simp [unreplaced, components]
  | tuple elems =>
    rw [visible_of_binder rfl]
    exact mem_unreplacedAll
  | struct decl typeArgs natArgs =>
    rw [visible_of_binder rfl]
    exact mem_unreplacedAll
  | array elem length =>
    rw [visible_of_binder rfl]
    simp [unreplaced, components]
  | option inner =>
    rw [visible_of_binder rfl]
    simp [unreplaced, components]
  | fn params result generics =>
    simp only [unreplaced, components, List.mem_append, mem_unreplacedParams, List.mem_map,
      List.mem_singleton, visible, binder]
    constructor
    · rintro (⟨q, hq, hp⟩ | hp)
      · exact ⟨q.type, .inl ⟨q, hq, rfl⟩, hp⟩
      · exact ⟨result, .inr rfl, hp⟩
    · rintro ⟨_, ⟨q, hq, rfl⟩ | rfl, hp⟩
      · exact .inl ⟨q, hq, hp⟩
      · exact .inr hp

theorem mem_unreplaced_nil : p ∈ t.unreplaced [] ↔ .var p ∈ t.subterms := by
  induction t using componentInduction with
  | step t ih =>
    by_cases ht : ∃ q, t = .var q
    · obtain ⟨q, rfl⟩ := ht
      simp [unreplaced, subterms]
    · have ht : ∀ q, t ≠ .var q := fun q hq => ht ⟨q, hq⟩
      rw [mem_unreplaced ht, mem_subterms]
      simp only [(ht p).symm, false_or]
      exact exists_congr fun c => and_congr_right fun hc => ih c hc

namespace Agrees

variable {t : Ty}

theorem component (h : t.Agrees g []) {c : Ty} (hc : c ∈ t.components) : c.Agrees g [] where
  vars p hp := h.vars p (mem_unreplaced_nil.mpr
    (mem_subterms_of_component hc (mem_unreplaced_nil.mp hp)))
  structs := eachStruct_of_mem_components h.structs hc

theorem of_components (ht : ∀ p, t ≠ .var p)
    (own : ∀ d ts ns, t = .struct d ts ns → d.agrees g ∧ d.eachStruct fun d _ _ => d.agrees g)
    (components : ∀ c ∈ t.components, c.Agrees g []) : t.Agrees g [] where
  vars p hp := by
    obtain ⟨c, hc, hp⟩ := (mem_unreplaced ht).mp hp
    exact (components c hc).vars p hp
  structs := eachStruct_iff_components.mpr ⟨own, fun c hc => (components c hc).structs⟩

theorem inst {I : Instantiation} (h : t.Agrees g names)
    (all : ∀ n ∈ names, (I.types.get? n).isSome)
    (args : ∀ {n u}, I.types.get? n = some u → u.Agrees g []) : (t.inst I).Agrees g [] where
  structs := eachStruct_inst (fun hu => (args hu).structs) h.structs
  vars := by
    obtain ⟨vars, -⟩ := h
    induction t using componentInduction generalizing I names with
    | step t ih =>
      by_cases ht : ∃ q, t = .var q
      · obtain ⟨q, rfl⟩ := ht
        rw [inst_var]
        cases hq : I.types.get? q.name with
        | some u => exact (args hq).vars
        | none =>
          have free : q.name ∉ names := fun hn => by
            have := all q.name hn
            simp [hq] at this
          simpa [unreplaced, free] using vars
      · have ht : ∀ q, t ≠ .var q := fun q hq => ht ⟨q, hq⟩
        have within := I.within_under t
        intro p hp
        rcases mem_subterms.mp (mem_unreplaced_nil.mp hp) with same | ⟨_, hc, hp⟩
        · -- The outermost form has stayed, so it is no variable.
          cases t with
          | var q => exact absurd rfl (ht q)
          | _ => simp at same
        · rw [components_inst ht] at hc
          obtain ⟨c, mem, rfl⟩ := List.mem_map.mp hc
          have left : ∀ q ∈ c.unreplaced (t.visible names), q.agrees g := fun q hq =>
            vars q ((mem_unreplaced ht).mpr ⟨c, mem, hq⟩)
          refine ih c mem (fun n hn => ?_) (fun hu => args (within.types hu)) left p
            (mem_unreplaced_nil.mpr hp)
          obtain ⟨hn, free⟩ := List.mem_filter.mp hn
          rw [Instantiation.types_under (by simpa [Var.boundBy] using free)]
          exact all n hn

/-- **What has been found out brings its own variables along**, and no others. -/
theorem subst {S : Substitution} (images : ∀ {k u}, S.types.get? k = some u → u.Agrees g [])
    (h : t.Agrees g []) : (t.subst S).Agrees g [] where
  structs := eachStruct_subst (fun hu => (images hu).structs) h.structs
  vars p hp := by
    refine forall_subterms_subst (P := fun u => ∀ p, u = .var p → p.agrees g)
      (fun hu v hv p same => (images hu).vars p (mem_unreplaced_nil.mpr (same ▸ hv)))
      (fun u hu unbound p same => ?_) _ (mem_unreplaced_nil.mp hp) p rfl
    cases u with
    | var q =>
      rw [subst_var] at same
      cases same
      exact h.vars p (mem_unreplaced_nil.mpr hu)
    | undet k => simp [unbound k rfl] at same
    | _ => simp at same

end Agrees

end Ty

namespace Elaboration

variable {T : SignatureTable} {g : Generics} {owner : Option StructDecl} {f : Source.FunctionDef}
  {memory : CheckerMemory}

theorem agrees_fields {d : StructDecl} {ts : List Ty} {ns : List NatTerm} {fs : List Field}
    (h : (Ty.struct d ts ns).Agrees g []) (hf : d.instantiateFields ts ns = .ok fs) :
    ∀ f ∈ fs, f.type.Agrees g [] := by
  obtain ⟨own, declared, -⟩ := Ty.eachStruct_struct.mp h.structs
  unfold StructDecl.instantiateFields at hf
  split at hf
  · next count =>
    cases hf
    refine List.forall_mem_map.mpr fun f hf => ?_
    have field : f.type.Agrees g d.params.typeNames :=
      ⟨List.all_eq_true.mp (List.all_eq_true.mp own f hf),
        StructDecl.eachStruct_iff.mp declared f hf⟩
    rw [Instantiation.apply_eq]
    exact field.inst (fun n => ((Instantiation.for_pair count.1 count.2).types n).mpr)
      fun hu => h.component (Instantiation.mem_of_types_pair hu)
  · cases hf

/-- **Checking a body keeps to variables with the right bounds**, if headers leave no others. -/
def agreement (keyed : T.Keyed) (headers : ∀ n s, T.find? n = some s →
    s.EachType (Ty.Agrees g s.generics.typeNames)) : Upkeep T g where
  declared := Ty.Agrees g []
  type := Ty.Agrees g []
  nat _ := True
  memo _ := True
  stated h _ := h
  prim _ := .of_components nofun nofun nofun
  undet := .of_components nofun nofun nofun
  natUndet := trivial
  const := trivial
  tuple h := .of_components nofun nofun h
  array h _ := .of_components nofun nofun (List.forall_mem_singleton.mpr h)
  component h hu := h.component hu
  ownNats _ _ := trivial
  subst types _ h := h.subst types
  keyed := keyed
  fnRef {n s} hs hg := by
    have header := headers n s hs
    rw [s.generics_eq_of_isGeneric_eq_false hg] at header
    exact .of_components nofun nofun (s.forall_components_functionType.mpr header)
  signature {n s I} hs all types _ := by
    obtain ⟨params, result⟩ := headers n s hs
    have each : ∀ n ∈ s.generics.typeNames, (I.types.get? n).isSome := fun n => (all.types n).mpr
    simp only [Instantiation.apply_eq]
    exact ⟨fun p hp => (params p hp).inst each types, result.inst each types⟩
  fields h hf := agrees_fields h hf
  classify _ _ _ := trivial

theorem exists_signatureOf {memory' : CheckerMemory} {typed : Typed.Function}
    (h : checkFunction T owner f memory = .ok typed memory') :
    ∃ sig, signatureOf owner f = .ok sig := by
  obtain ⟨sig, _, hsig, -⟩ := bind_eq_ok.mp h
  exact ⟨sig, (ofExcept_eq_ok.mp hsig).1⟩

/-- **The type variables of a checked function have the bounds that its generic parameters
    declare.**  This holds of every occurrence in a type of the typed function, if it holds of the
    types that the function declares and states, and of the variables that arguments leave in the
    headers of the table and in the fields of the structs that all these types lead to. -/
theorem checked_variables_carry_declared_bounds {owner : Option StructDecl}
    {f : Source.FunctionDef} {memory memory' : CheckerMemory} {typed : Typed.Function}
    (keyed : T.Keyed)
    (headers : ∀ n s, T.find? n = some s →
      s.EachType (Ty.Agrees typed.generics s.generics.typeNames))
    (declared : f.EachType (Ty.Agrees typed.generics []))
    (h : checkFunction T owner f memory = .ok typed memory') :
    ∀ t ∈ typed.types, ∀ p, .var p ∈ t.subterms →
      ∀ q, typed.generics.findType p.name = some q → p.boundClass = q.boundClass := by
  obtain ⟨sig, signature⟩ := exists_signatureOf h
  obtain ⟨_, _, -, run⟩ := exists_checked signature h
  have generics : typed.generics = sig.generics := by
    rw [run.typed]
    exact run.header.1
  rw [generics] at headers declared ⊢
  obtain ⟨-, -, parts, -⟩ :=
    checkFunction_keeps signature (agreement keyed headers) declared trivial h
  intro t ht p hp q hq
  have types : t.Agrees sig.generics [] := parts _ (Typed.Function.mem_types.mp ht)
  have agrees := types.vars p (Ty.mem_unreplaced_nil.mpr hp)
  simpa [TypeParam.agrees, hq] using agrees

/-- A parameter for any type. -/
def anyParam : TypeParam := ⟨"T", false, false⟩

/-- A type parameter of the same name for copyable types. -/
def copyParam : TypeParam := ⟨"T", true, true⟩

/-- A struct that holds a value. -/
def holder (params : List TypeParam) (value : TypeParam) : StructDecl :=
  ⟨"Holder", ⟨params, []⟩, [⟨"v", .var value⟩]⟩

/-- A table with holders of any type, and a function `copy` with a parameter for copyable types. -/
def copyTable : SignatureTable :=
  SignatureTable.after (SignatureTable.add
      ⟨"copy", ⟨[copyParam], []⟩, [⟨"x", .var copyParam, .borrowed⟩], .var copyParam, {}⟩)
    (SignatureTable.after (SignatureTable.addStruct (holder [anyParam] anyParam) {}) {})

/-- Copies a number and takes a value out of its holder. -/
def takes : Source.FunctionDef where
  name := "takes"
  generics := ⟨[anyParam], []⟩
  params := [⟨"h", .struct (holder [anyParam] anyParam) [.var anyParam] [], .owned⟩,
    ⟨"n", .int, .borrowed⟩]
  result := some (.var anyParam)
  body := [.assign {} "m" (.call {} "copy" [.name {} "n"]) none,
    .ret {} (some (.field {} (.name {} "h") "v"))]

theorem takes_carries_declared_bounds : ∃ typed memory',
    checkFunction copyTable none takes {} = .ok typed memory' ∧
      typed.generics = ⟨[anyParam], []⟩ ∧ typed.types.length = 8 ∧
      ∀ t ∈ typed.types, ∀ p, .var p ∈ t.subterms →
        ∀ q, typed.generics.findType p.name = some q → p.boundClass = q.boundClass := by
  have run : runPasses (checkFunction copyTable none takes {}) (fun typed =>
      decide (typed.generics = ⟨[anyParam], []⟩) && decide (typed.types.length = 8)) = true := by
    cbv
  obtain ⟨typed, memory', h, test⟩ := exists_of_runPasses run
  obtain ⟨generics, count⟩ : typed.generics = ⟨[anyParam], []⟩ ∧ typed.types.length = 8 := by
    simpa using test
  refine ⟨typed, memory', h, generics, count,
    checked_variables_carry_declared_bounds ?_ ?_ ?_ h⟩
  · exact (SignatureTable.Registered.add _ (.addStruct _ _ .empty)).keyed
  · rw [generics]
    intro n s hs
    have each : ∀ e ∈ copyTable.signatures.entries,
        e.2.EachType (Ty.Agrees ⟨[anyParam], []⟩ e.2.generics.typeNames) := by decide
    exact each (n, s) (Instantiation.mem_of_lookup hs)
  · rw [generics]
    exact ⟨by decide, by decide, ⟨⟨trivial, trivial⟩, by rintro _ ⟨⟩⟩, by rintro _ ⟨⟩; trivial,
      trivial⟩

/-- A table in which `T` comes with the bound of copyable types where no argument replaces it: as the
    result of `vague`, as a field, and in a function type that hides it. -/
def looseTable : SignatureTable :=
  SignatureTable.after (do
    SignatureTable.addStruct (holder [] copyParam) {}
    SignatureTable.add ⟨"vague", {}, [], .var copyParam, {}⟩
    SignatureTable.add ⟨"hides", ⟨[copyParam], []⟩, [⟨"x", .var copyParam, .borrowed⟩],
      .fn [] (.var copyParam) ⟨[copyParam], []⟩, {}⟩) {}

/-- A function with the type parameter `T`. -/
def loose (params : List Param) (body : List Source.Stmt) : Source.FunctionDef where
  name := "loose"
  generics := ⟨[anyParam], []⟩
  params := params
  result := none
  body := body

/-- **A body may be checked under other bounds than its callers.**  These functions are accepted, and
    each of them has a variable with the bound of copyable types under the name of its parameter for
    all types.  It comes from a declared parameter, from the stated type of a binding, from a header,
    from a field, or from within a function type. -/
theorem body_checked_under_other_bounds :
    [loose [⟨"x", .var copyParam, .owned⟩] [],
      loose [⟨"x", .var anyParam, .owned⟩]
        [.assign {} "y" (.name {} "x") (some (.var copyParam)), .expr {} (.name {} "y")],
      loose [] [.assign {} "y" (.call {} "vague" []) none],
      loose [⟨"h", .struct (holder [] copyParam) [] [], .borrowed⟩]
        [.assign {} "y" (.field {} (.name {} "h") "v") none],
      loose [] [.assign {} "y" (.call {} "hides" [.int {} 1]) none]].Forall fun f =>
      ∃ typed memory', checkFunction looseTable none f {} = .ok typed memory' ∧
        ∃ t ∈ typed.types, .var copyParam ∈ t.subterms ∧
          typed.generics.findType copyParam.name = some anyParam ∧
          copyParam.boundClass ≠ anyParam.boundClass := by
  have test : ∀ {f : Source.FunctionDef},
      runPasses (checkFunction looseTable none f {}) (fun typed =>
        decide (typed.generics = ⟨[anyParam], []⟩) &&
          typed.types.any fun t => copyParam ∈ t.unreplaced []) = true →
      ∃ typed memory', checkFunction looseTable none f {} = .ok typed memory' ∧
        ∃ t ∈ typed.types, .var copyParam ∈ t.subterms ∧
          typed.generics.findType copyParam.name = some anyParam ∧
          copyParam.boundClass ≠ anyParam.boundClass := by
    intro f run
    obtain ⟨typed, memory', h, test⟩ := exists_of_runPasses run
    rw [Bool.and_eq_true, decide_eq_true_iff, List.any_eq_true] at test
    obtain ⟨generics, t, ht, var⟩ := test
    exact ⟨typed, memory', h, t, ht, Ty.mem_unreplaced_nil.mp (of_decide_eq_true var),
      generics ▸ rfl, by decide⟩
  refine ⟨test ?_, test ?_, test ?_, test ?_, test ?_⟩ <;> cbv

end Elaboration

end QuantumStatics
