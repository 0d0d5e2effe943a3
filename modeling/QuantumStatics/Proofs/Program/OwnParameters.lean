/-
  The variables of accepted functions.

  A body may call whatever has been registered, and registration does not look into headers.  So the
  types of a body mention the generic parameters of the function only if headers keep to their own
  ones, also those of definitions that are rejected in the end.

  * `functions_mention_own_parameters`: then nothing is left open when they are specialized;
  * `rejected_header_leaves_type_open`: it may be if a rejected header mentions something unknown.
-/
import QuantumStatics.Proofs.Consumption.Faultless
import QuantumStatics.Proofs.Elaboration.Vocabulary
import QuantumStatics.Proofs.Program.Prelude
import QuantumStatics.Proofs.Specialization.Failures
import QuantumStatics.Proofs.Specialization.Links

namespace QuantumStatics

/-! ## Declarations that keep to their parameters -/

/-- Whether the variables in a type are all among the given generic parameters, and no function
    type hides one of them. -/
def Ty.keepsTo (g : Generics) (t : Ty) : Bool :=
  t.subterms.all (fun u => u.ownVars.all (·.boundBy g)) && decide t.Unhidden

/-- The fields of a struct keep to its own parameters. -/
def StructDecl.selfContained (d : StructDecl) : Bool := d.fields.all (·.type.keepsTo d.params)

/-- Whether every struct that a type leads to keeps to its generic parameters. -/
def Ty.selfContained (t : Ty) : Bool := t.eachStruct fun d _ _ => d.selfContained

/-- Every type that a definition declares or states satisfies `P`. -/
def Source.Def.EachDeclared (P : Ty → Prop) (d : Source.Def) : Prop :=
  (∀ s ∈ d.signatures, s.EachType P) ∧ d.EachType P

variable {g : Generics} {t : Ty}

theorem Ty.keepsTo_iff :
    t.keepsTo g ↔ (∀ u ∈ t.subterms, ∀ v ∈ u.ownVars, v.boundBy g) ∧ t.Unhidden := by
  simp [keepsTo]

theorem Ty.eachStruct_of_mem_subterms {Q : StructDecl → Nat → Nat → Bool} {u : Ty}
    (h : t.eachStruct Q) (hu : u ∈ t.subterms) : u.eachStruct Q := by
  induction t using componentInduction with
  | step t ih =>
    rcases mem_subterms.mp hu with rfl | ⟨c, hc, hu⟩
    · exact h
    · exact ih c hc (eachStruct_of_mem_components h hc) hu

/-- The vocabulary in which variables are told apart by their names, and structs keep to their
    generic parameters. -/
def ownNames : Vocabulary where
  leaf _ _ := True
  param g p := p.name ∈ g.typeNames
  struct d _ _ := d.selfContained ∧ d.eachStruct fun d _ _ => d.selfContained
  binder _ := True
  builtin _ := trivial
  named h := h
  monomorphic := trivial

theorem ownNames_header (keeps : t.keepsTo g) (contained : t.selfContained) :
    ownNames.Header g t := by
  obtain ⟨own, unhidden⟩ := Ty.keepsTo_iff.mp keeps
  have nat : ∀ {u n}, u ∈ t.subterms → n ∈ u.ownNats → n.In g := fun hu hn =>
    NatTerm.in_of_vars fun v hv => own _ hu v (Ty.mem_ownVars_of_ownNats hn hv)
  refine ⟨fun u hu => ?_, unhidden⟩
  cases u with
  | prim | undet | tuple | fn | option => trivial
  | var p => exact List.contains_iff_mem.mp (own _ hu _ (List.mem_singleton_self _))
  | array elem length => exact nat hu (List.mem_singleton_self _)
  | struct decl typeArgs natArgs =>
    obtain ⟨head, fields, -⟩ := Ty.eachStruct_struct.mp (Ty.eachStruct_of_mem_subterms contained hu)
    exact ⟨⟨head, fields⟩, fun n hn => nat hu hn⟩

theorem ownNames_stated {T : SignatureTable} (contained : t.selfContained) :
    ∀ u ∈ t.subterms, Elaboration.Declarable T g u → ownNames.Head g u := by
  intro u hu passed
  cases u with
  | prim | undet | tuple | fn | option => trivial
  | var p => exact passed
  | array elem length => exact passed
  | struct decl typeArgs natArgs =>
    obtain ⟨head, fields, -⟩ := Ty.eachStruct_struct.mp (Ty.eachStruct_of_mem_subterms contained hu)
    exact ⟨⟨head, fields⟩, passed.2.2⟩

theorem prelude_contained : ∀ s ∈ Prelude.signatures,
    s.EachType fun t => t.determined ∧ t.selfContained ∧ t.keepsTo s.generics := by
  have all : Prelude.signatures.all fun s => (s.result :: s.params.map (·.type)).all fun t =>
      t.determined && t.selfContained && t.keepsTo s.generics := by decide +kernel
  intro s hs
  have types : ∀ t ∈ s.result :: s.params.map (·.type),
      t.determined ∧ t.selfContained ∧ t.keepsTo s.generics := by
    simpa [and_assoc] using List.all_eq_true.mp all s hs
  rw [List.forall_mem_cons, List.forall_mem_map] at types
  exact ⟨types.2, types.1⟩

/-! ## Programs -/

namespace CheckedProgram

variable {options : CheckOptions} {defs : List Source.Def} {p : CheckedProgram}

/-- The definitions of a program declare types that leave nothing to be inferred and lead only to
    structs that keep to their generic parameters, and so do their headers. -/
structure Contained (defs : List Source.Def) : Prop where
  declared : ∀ d ∈ defs, d.EachDeclared fun t => t.determined ∧ t.selfContained
  headers : ∀ d ∈ defs, ∀ s ∈ d.signatures, s.EachType (·.keepsTo s.generics)

theorem Contained.signatures (contained : Contained defs) (h : check options defs = .ok p)
    {n : String} {s : Signature} (hs : p.table.find? n = some s) :
    s.EachType fun t => t.determined ∧ t.selfContained ∧ t.keepsTo s.generics := by
  rcases (from_check h).signature hs with hs | ⟨d, hd, hs⟩
  · exact prelude_contained s hs
  · obtain ⟨params, result⟩ := (contained.declared d hd).1 s hs
    obtain ⟨params', result'⟩ := contained.headers d hd s hs
    exact ⟨fun p hp => ⟨(params p hp).1, (params p hp).2, params' p hp⟩,
      result.1, result.2, result'⟩

theorem Contained.lawful (contained : Contained defs) (h : check options defs = .ok p) :
    Elaboration.Lawful ownNames p.table where
  keyed := (registered_of_check h).keyed
  signatures hs := by
    obtain ⟨params, result⟩ := contained.signatures h hs
    exact ⟨fun p hp => ownNames_header (params p hp).2.2 (params p hp).2.1,
      ownNames_header result.2.2 result.2.1⟩
  fields hd f hf := by
    obtain ⟨keeps, contained⟩ := hd
    exact ownNames_header (List.all_eq_true.mp keeps f hf)
      (StructDecl.eachStruct_iff.mp contained f hf)

/-- **The types and nats of accepted functions are made of their own generic parameters**, and they
    are determined if the types of dropped values are. -/
theorem Contained.functions (contained : Contained defs) (h : check options defs = .ok p)
    {f : Typed.Function} (hf : f ∈ p.functions) :
    ((∀ t ∈ f.types, ownNames.Allows f.generics t) ∧ ∀ n ∈ f.nats, n.In f.generics) ∧
      (((∀ t ∈ f.types, t.determined) ∧ ∀ n ∈ f.nats, n.isUndet = false) ↔
        ∀ e ∈ f.dropped, e.type.determined) := by
  obtain ⟨d, hd, owner, fd, s, memory, memory', declares, hs, -, -, checked⟩ :=
    mem_functions (Q := fun _ => True) h hf trivial fun _ _ _ _ _ _ _ _ _ _ => trivial
  have declared := (contained.declared d hd).2.of_declares declares
  constructor
  · have kept := Elaboration.checkFunction_keeps hs
      ((contained.lawful h).upkeep s.generics (·.selfContained) (fun _ => True) ownNames_stated
        fun _ _ _ => trivial) (declared.mono fun _ ht => ht.2) trivial checked
    obtain ⟨generics, -, parts, -⟩ := kept
    rw [generics]
    refine ⟨fun t ht => parts _ (Typed.Function.mem_types.mp ht), fun n hn => ?_⟩
    rcases Typed.Function.mem_nats.mp hn with part | ⟨name, part, rfl⟩
    · exact parts _ part
    · exact parts _ part
  · refine Elaboration.checkFunction_determined (registered_of_check h) (fun hs => ?_)
      (declared.mono fun _ ht => ht.1) checked
    obtain ⟨params, result⟩ := contained.signatures h hs
    exact ⟨fun p hp => (params p hp).1, result.1⟩

end CheckedProgram

namespace Specialization

/-- A failure because something is still open that is to be specialized. -/
inductive LeftOpen : Failure → Prop
  | type (t : Ty) : LeftOpen (.defect (.openType t))
  | nat (n : NatTerm) : LeftOpen (.defect (.openNat n))

variable {T : SignatureTable} {D : Definitions}

section

variable {g : Generics} {k : Key} {location : Location}

theorem varsFor_of_checkArgs (passes : k.checkArgs g location = .ok ()) {v : Var}
    (bound : v.boundBy g) : (Instantiation.pair g k.typeArgs k.natArgs).varsFor v = [] := by
  obtain ⟨types, nats⟩ := closed_of_checkArgs passes
  obtain ⟨⟨typeCount, natCount⟩, -⟩ := checkArgs_eq_ok.mp passes
  exact Instantiation.varsFor_eq_nil (Instantiation.for_pair typeCount natCount)
    (fun hu => types _ (Instantiation.mem_of_types_pair hu))
    (fun hm => nats _ (Instantiation.mem_of_nats_pair hm)) bound

theorem closed_apply (passes : k.checkArgs g location = .ok ()) {t : Ty}
    (h : ∀ v ∈ t.vars, v.boundBy g) :
    ((Instantiation.pair g k.typeArgs k.natArgs).apply t).closed := by
  rw [Instantiation.apply_eq, Ty.closed_iff, Ty.vars_inst, List.flatMap_eq_nil_iff]
  intro o ho
  have mentioned : o.var ∈ t.vars := t.map_var_occurrences ▸ List.mem_map_of_mem ho
  rw [Instantiation.varsAt, varsFor_of_checkArgs passes (h _ mentioned), List.filter_nil]

theorem isConst_applyNat (passes : k.checkArgs g location = .ok ()) {n : NatTerm}
    (h : ∀ v ∈ n.vars, v.boundBy g) :
    ((Instantiation.pair g k.typeArgs k.natArgs).applyNat n).isConst := by
  have closed : (n.inst (Instantiation.pair g k.typeArgs k.natArgs)).vars = [] := by
    rw [NatTerm.vars_inst, List.flatMap_eq_nil_iff]
    exact fun v hv => varsFor_of_checkArgs passes (h v hv)
  rw [Instantiation.applyNat]
  cases hn : n.inst (Instantiation.pair g k.typeArgs k.natArgs) with
  | const => rfl
  | var | undet =>
    rw [hn] at closed
    cases closed

end

/-- **Requests leave nothing open**, if the types and nats of definitions mention nothing but the
    generic parameters of the definition. -/
theorem harmless_of_own_parameters
    (own : ∀ {n f}, D.get? n = some f → (∀ t ∈ f.types, ∀ v ∈ t.vars, v.boundBy f.generics) ∧
      ∀ n ∈ f.nats, ∀ v ∈ n.vars, v.boundBy f.generics) :
    Harmless T D anyRequest (¬LeftOpen ·) where
  closed := closedUnderNeeds_any
  plan _ h := by
    rcases plan_eq_error h with ⟨cause, rfl, -⟩ | ⟨g, -, x, -, unfit⟩
    · exact fun h => by cases h
    · cases unfit with
      | unclassified fault =>
        rcases Ty.classify_eq_error fault with ⟨_, rfl⟩ | ⟨_, rfl⟩
        all_goals exact fun h => by cases h
      | inadmissible => exact fun h => by cases h
  impossible {r p d} _ hp hd := by
    obtain ⟨_ | _, key, location⟩ := r
    · obtain ⟨decl, -, -, rfl⟩ := plan_struct_eq_ok.mp hp
      simp [structPlan, structNeeds] at hd
    · obtain ⟨f, hf, passes, rfl⟩ := plan_definition_eq_ok.mp hp
      obtain ⟨part, hpart, hd⟩ := List.mem_flatMap.mp hd
      obtain ⟨types, nats⟩ := own hf
      cases part with
      | type t =>
        have closed := closed_apply passes (types t (Typed.Function.mem_types.mpr hpart))
        simp [partNeeds, closed, structNeeds] at hd
      | nat n =>
        have const := isConst_applyNat passes (nats n (Typed.Function.mem_nats.mpr (.inl hpart)))
        simp [partNeeds, natNeeds, const] at hd
      | natParam name =>
        have const := isConst_applyNat passes
          (nats (.var name) (Typed.Function.mem_nats.mpr (.inr ⟨name, hpart, rfl⟩)))
        simp [partNeeds, natNeeds, const] at hd
      | call l c =>
        rw [partNeeds] at hd
        split at hd <;> simp at hd
  result {r p d} _ hp hd := by
    obtain ⟨_ | _, key, location⟩ := r
    · obtain ⟨decl, -, -, rfl⟩ := plan_struct_eq_ok.mp hp
      rcases except_bind_eq_error.mp hd with fault | ⟨_, -, hd⟩
      · rcases Ty.classify_eq_error fault with ⟨_, rfl⟩ | ⟨_, rfl⟩
        all_goals exact fun h => by cases h
      · cases hd
    · obtain ⟨f, hf, passes, rfl⟩ := plan_definition_eq_ok.mp hp
      cases hd
  enter h := by
    unfold enter at h
    split at h
    · cases h
      exact fun h => by cases h
    · cases h
  bound h := by cases h

end Specialization

namespace CheckedProgram

open QuantumStatics.Specialization

/-- **Accepted functions mention their own generic parameters only**, in every type and nat, if all
    headers do, also those of rejected definitions, and if the structs that declared types lead to
    keep to theirs.  If moreover the types of dropped values are determined, then no request leaves
    a type or a nat open, after any other requests. -/
theorem functions_mention_own_parameters {options : CheckOptions} {defs : List Source.Def}
    {p : CheckedProgram} (checked : check options defs = .ok p) (contained : Contained defs) :
    (∀ f ∈ p.functions,
      (∀ t ∈ f.types, ∀ v ∈ t.vars, v.isUndetermined ∨ v.boundBy f.generics) ∧
        ∀ n ∈ f.nats, ∀ v ∈ n.vars, v.isUndetermined ∨ v.boundBy f.generics) ∧
      ((∀ f ∈ p.functions, ∀ e ∈ f.dropped, e.type.determined) →
        ∀ (rs : List Request) (r : Request) (e : Failure) (c : Cache),
          r.answer p.table (definitionsOf p.functions)
            (session p.table (definitionsOf p.functions) rs) = .error e c → ¬LeftOpen e) := by
  have own : ∀ f ∈ p.functions,
      (∀ t ∈ f.types, ∀ v ∈ t.vars, v.isUndetermined ∨ v.boundBy f.generics) ∧
        ∀ n ∈ f.nats, ∀ v ∈ n.vars, v.isUndetermined ∨ v.boundBy f.generics := by
    intro f hf
    obtain ⟨⟨types, nats⟩, -⟩ := contained.functions checked hf
    exact ⟨fun t ht => (types t ht).vars, fun n hn => (nats n hn).vars⟩
  refine ⟨own, fun dropped rs r e c failed => ?_⟩
  refine Harmless.answer_fails (harmless_of_own_parameters fun {n f} hf => ?_) trivial rs failed
  obtain ⟨hf, -⟩ := of_get?_definitionsOf hf
  obtain ⟨-, determined⟩ := contained.functions checked hf
  obtain ⟨types, nats⟩ := determined.mpr (dropped f hf)
  obtain ⟨ownTypes, ownNats⟩ := own f hf
  constructor
  · intro t ht v hv
    exact (ownTypes t ht v hv).resolve_left
      (Ty.not_isUndetermined_of_determined (types t ht) v hv)
  · intro n hn v hv
    refine (ownNats n hn v hv).resolve_left ?_
    have determined := nats n hn
    cases n with
    | const => cases hv
    | var name =>
      cases List.mem_singleton.mp hv
      exact nofun
    | undet => cases determined

/-- A parameter for copyable types. -/
def copyableParam : TypeParam := ⟨"T", true, true⟩

/-- A struct with a copyable value. -/
def cell : StructDecl := ⟨"Cell", ⟨[copyableParam], []⟩, [⟨"v", .var copyableParam⟩]⟩

/-- A function of which only the header is right: it returns nothing. -/
def hollow : Source.FunctionDef where
  name := "hollow"
  params := []
  result := some .int
  body := []

/-- Calls `hollow`, and puts its argument in a cell. -/
def fills : Source.FunctionDef where
  name := "fills"
  generics := ⟨[copyableParam], []⟩
  params := [⟨"x", .var copyableParam, .borrowed⟩]
  result := some (.struct cell [.var copyableParam] [])
  body := [.assign {} "y" (.call {} "hollow" []) none,
    .ret {} (some (.call {} "Cell" [.name {} "x"]))]

/-- A program with the struct `Cell`. -/
def filling : List Source.Def := [.struct ⟨{}, cell, []⟩, .function hollow, .function fills]

theorem contained_filling : Contained filling where
  declared := by
    simp only [filling, List.forall_mem_cons, List.not_mem_nil, false_imp_iff, implies_true,
      and_true]
    refine ⟨⟨by decide, List.forall_mem_nil _⟩, ⟨by decide, ?_⟩, by decide, ?_⟩
    · exact ⟨List.forall_mem_nil _, by decide, trivial⟩
    · refine ⟨by decide, by decide, ⟨trivial, by simp⟩, ?_, trivial⟩
      rintro _ ⟨⟩
      exact ⟨trivial, trivial⟩
  headers := by decide

theorem prelude_accepts {n : String}
    (hn : n ∈ ["Cell", "hollow", "fills", "vague", "leaks", "wraps", "nests", "holds"]) :
    Prelude.table.Accepts n := by
  have new : ∀ n ∈ ["Cell", "hollow", "fills", "vague", "leaks", "wraps", "nests", "holds"],
      n ∉ Prelude.signatures.map (·.name) := by decide +kernel
  exact Prelude.table_accepts (new n hn)

theorem registerHeaders_cell (fs : List Source.FunctionDef)
    (new : ∀ f ∈ fs, Prelude.table.Accepts f.name) (apart : ∀ f ∈ fs, f.name ≠ "Cell")
    (distinct : (fs.map (·.name)).Nodup) :
    registerHeaders Prelude.table (.struct ⟨{}, cell, []⟩ :: fs.map .function) =
      .ok ((.struct ⟨{}, cell, []⟩, none) :: fs.map fun f => (.function f, none),
        fs.foldl (fun T f => T.withSignature (Elaboration.functionSignature f))
          (Prelude.table.withStruct cell {})) := by
  have struct : Prelude.table.Accepts "Cell" := prelude_accepts (by decide)
  exact registerHeaders_of_ok (Header.register_struct struct rfl)
    (registerHeaders_functions fs (fun f hf => (new f hf).withStruct (apart f hf)) distinct)

theorem fills_mentions_own_parameters : ∃ p, check {} filling = .ok p ∧ Contained filling ∧
    p.functions.map (·.name) = ["fills"] ∧
    (∀ f ∈ p.functions, ∀ e ∈ f.dropped, e.type.determined) ∧
    (∀ f ∈ p.functions,
      (∀ t ∈ f.types, ∀ v ∈ t.vars, v.isUndetermined ∨ v.boundBy f.generics) ∧
        ∀ n ∈ f.nats, ∀ v ∈ n.vars, v.isUndetermined ∨ v.boundBy f.generics) ∧
    ∀ (rs : List Request) (r : Request) (e : Failure) (c : Cache),
      r.answer p.table (definitionsOf p.functions)
        (session p.table (definitionsOf p.functions) rs) = .error e c → ¬LeftOpen e := by
  have run : (check {} filling).toOption.any (fun p => p.functions.map (·.name) == ["fills"] &&
      p.functions.all fun f => f.dropped.all (·.type.determined)) = true := by
    have registered : registerHeaders Prelude.table filling = _ :=
      registerHeaders_cell [hollow, fills] (by simp [prelude_accepts, hollow, fills])
        (by simp [hollow, fills]) (by simp [hollow, fills])
    rw [check, registered, Prelude.table_eq]
    cbv
  obtain ⟨p, checked, test⟩ := exists_of_any run
  rw [Bool.and_eq_true_iff, beq_iff_eq] at test
  have dropped : ∀ f ∈ p.functions, ∀ e ∈ f.dropped, e.type.determined := by
    simpa using test.2
  obtain ⟨own, closed⟩ := functions_mention_own_parameters checked contained_filling
  exact ⟨p, checked, contained_filling, test.1, dropped, own, closed dropped⟩

/-- A function with a result of a type that is none of its parameters. -/
def vague : Source.FunctionDef where
  name := "vague"
  params := []
  result := some (.var copyableParam)
  body := []

/-- Calls `vague` and keeps what it returns. -/
def leaks : Source.FunctionDef where
  name := "leaks"
  params := []
  result := none
  body := [.assign {} "x" (.call {} "vague" []) none]

/-- `vague` is rejected for its result, but `leaks` takes over that type and is accepted.  It cannot
    be specialized. -/
theorem rejected_header_leaves_type_open :
    ∃ p, check {} [.function vague, .function leaks] = .ok p ∧
      (∃ f ∈ p.functions, ∃ t ∈ f.types, ∃ v ∈ t.vars, ¬v.isUndetermined ∧ ¬v.boundBy f.generics) ∧
      ∃ e c, Request.answer p.table (definitionsOf p.functions)
        ⟨.definition, ⟨"leaks", [], []⟩, {}⟩ {} = .error e c ∧ LeftOpen e := by
  have run : (check {} [.function vague, .function leaks]).toOption.any (fun p =>
      (p.functions.any fun f => f.types.any fun t => t.vars.any fun v =>
        !v.isUndetermined && !v.boundBy f.generics) &&
      match Request.answer p.table (definitionsOf p.functions)
        ⟨.definition, ⟨"leaks", [], []⟩, {}⟩ {} with
      | .error (.defect (.openType _)) _ => true
      | _ => false) = true := by
    have registered : registerHeaders Prelude.table [.function vague, .function leaks] = _ :=
      registerHeaders_functions [vague, leaks] (by simp [prelude_accepts, vague, leaks])
        (by simp [vague, leaks])
    rw [check, registered, Prelude.table_eq]
    cbv
  obtain ⟨p, checked, test⟩ := exists_of_any run
  obtain ⟨mentions, fails⟩ := Bool.and_eq_true_iff.mp test
  refine ⟨p, checked, by simpa using mentions, ?_⟩
  split at fails
  · next t c failed => exact ⟨_, c, failed, .type t⟩
  · cases fails

end CheckedProgram

end QuantumStatics
