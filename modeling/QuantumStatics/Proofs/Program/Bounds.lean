/-
  Bounds from checking to specialization.

  Checking compares the generic arguments of calls with the bounds of the parameters, on types that
  may mention the parameters of the caller.  Specializing compares all arguments again, on closed
  types, and those of struct types for the first time.

  If declared types are within the bounds of the structs in them, then everything is that is asked
  for in the course of a request whose own arguments are.

  * `closedUnderNeeds_bounded`: what a bounded request needs is bounded;
  * `requests_keep_to_bounds`: so specializing it never fails for a bound;
  * `unbounded_parameter_fails`: it does if a declared type is not within bounds.
-/
import QuantumStatics.Proofs.Elaboration.Bounds
import QuantumStatics.Proofs.Program.Interfaces
import QuantumStatics.Proofs.Program.OwnParameters
import QuantumStatics.Proofs.Specialization.History

namespace QuantumStatics

/-! ## Requests -/

namespace Specialization

open Elaboration (Orderly FunctionBounds)

variable {T : SignatureTable} {D : Definitions}

/-- The arguments of a request are within the bounds of the parameters that they are for, and so are
    those of the struct types in them. -/
structure Request.Bounded (T : SignatureTable) (D : Definitions) (r : Request) : Prop where
  args : ∀ t ∈ r.key.typeArgs, t.Bounded T
  accepted : ∀ g, r.params? T D = some g → ∀ x ∈ g.types.zip r.key.typeArgs, x.1.Accepts x.2

/-- The definitions are within bounds, and registered with their generic parameters. -/
structure BoundedDefinitions (T : SignatureTable) (D : Definitions) : Prop where
  bounds {n : String} {f : Typed.Function} : D.get? n = some f → FunctionBounds T f
  header {n : String} {f : Typed.Function} : D.get? n = some f →
    ∃ s, T.find? n = some s ∧ s.generics = f.generics

theorem bounded_of_mem_structKeys {t : Ty} (h : t.Bounded T) {key : Key} (hk : key ∈ t.structKeys)
    (location : Location) : Request.Bounded T D ⟨.struct, key, location⟩ := by
  obtain ⟨u, hu, hkey⟩ := Ty.mem_structKeys.mp hk
  cases u with
  | struct d ts ns =>
    cases hkey
    obtain ⟨found, accepted⟩ := h d ts ns hu
    refine ⟨fun a ha => h.subterm ?_, fun g hg => ?_⟩
    · exact Ty.mem_subterms_trans hu (Ty.mem_subterms_of_component ha (Ty.mem_subterms_self a))
    · obtain rfl : d.params = g := by simpa [Request.params?, found] using hg
      exact accepted
  | _ => cases hkey

theorem closedUnderNeeds_bounded (orderly : Orderly T) (hD : BoundedDefinitions T D) :
    ClosedUnderNeeds T D (Request.Bounded T D) := by
  rintro ⟨_ | _, key, location⟩ p r' hr hp need
  · obtain ⟨decl, found, -, rfl⟩ := plan_struct_eq_ok.mp hp
    have accepted := hr.accepted decl.params (by simp [Request.params?, found])
    simp only [structPlan, structNeeds, fieldsFor, List.mem_flatMap, List.mem_map] at need
    obtain ⟨_, ⟨f, hf, rfl⟩, key', hkey, heq⟩ := need
    cases heq
    have struct := orderly.structs found
    obtain ⟨header, bounded⟩ := struct.fields f hf
    refine bounded_of_mem_structKeys ?_ hkey location
    rw [Instantiation.apply_eq]
    exact bounded.inst_pair struct.distinct (fun _ => Elaboration.flagged_of_allows header.allows)
      hr.args accepted
  · obtain ⟨f, hf, -, rfl⟩ := plan_definition_eq_ok.mp hp
    have accepted := hr.accepted f.generics (by simp [Request.params?, hf])
    obtain ⟨distinct, types, calls⟩ := hD.bounds hf
    have inst : ∀ t ∈ f.types,
        ((Instantiation.pair f.generics key.typeArgs key.natArgs).apply t).Bounded T := by
      intro t ht
      obtain ⟨bounded, flagged⟩ := types t ht
      rw [Instantiation.apply_eq]
      exact bounded.inst_pair distinct flagged hr.args accepted
    rcases request_mem_definitionNeeds.mp need with ⟨t, ht, -, key', hkey, rfl⟩ | ⟨l, c, hc, -, rfl⟩
    · exact bounded_of_mem_structKeys (inst t (Typed.Function.mem_types.mpr ht)) hkey f.location
    · have arg : ∀ u ∈ c.typeArgs, u ∈ f.types := fun u hu =>
        Typed.Function.mem_types.mpr (Typed.Function.type_mem_of_call hc hu)
      refine ⟨List.forall_mem_map.mpr fun u hu => inst u (arg u hu), fun g hg x hx => ?_⟩
      -- The parameters of the callee are those that the arguments were compared with.
      obtain ⟨callee, found, rfl⟩ := Option.map_eq_some_iff.mp hg
      obtain ⟨s, registered, same⟩ := hD.header found
      rw [← same] at hx
      obtain ⟨y, hy, rfl⟩ := List.mem_map.mp (List.zip_map_right .. ▸ hx)
      obtain ⟨-, flagged⟩ := types y.2 (arg y.2 (List.of_mem_zip hy).2)
      rw [Prod.map_fst, Prod.map_snd, Instantiation.apply_eq]
      exact Ty.accepts_inst_pair distinct flagged accepted (calls l c hc s registered y hy)

theorem accepts_of_checkTypeArgs {name : String} {location : Location} {ps : List TypeParam}
    {ts : List Ty} (h : Key.checkTypeArgs name location ps ts = .ok ()) :
    ∀ x ∈ ps.zip ts, x.1.Accepts x.2 := by
  induction ps generalizing ts with
  | nil => exact nofun
  | cons p ps ih =>
    cases ts with
    | nil => exact nofun
    | cons t ts =>
      obtain ⟨-, first, others⟩ := checkTypeArgs_cons.mp h
      exact List.forall_mem_cons.mpr ⟨first, ih others⟩

/-- A failure because the class of an argument is not admitted. -/
def Mismatch (e : Failure) : Prop :=
  ∃ cause location, e = .rejected ⟨cause, location⟩ ∧ cause.kind = .typeMismatch

theorem not_mismatch_defect (d : Defect) : ¬Mismatch (.defect d) := by
  rintro ⟨_, _, heq, -⟩
  cases heq

theorem harmless_of_bounds (orderly : Orderly T) (hD : BoundedDefinitions T D) :
    Harmless T D (Request.Bounded T D) (¬Mismatch ·) where
  closed := closedUnderNeeds_bounded orderly hD
  plan {r e} hr h := by
    rintro ⟨cause, location, rfl, kind⟩
    rcases plan_eq_error h with ⟨_, heq, other, -⟩ | ⟨g, hg, x, hx, unfit⟩
    · cases heq
      exact other kind
    · cases unfit with
      | inadmissible known bound =>
        obtain ⟨c, hc, admits⟩ := hr.accepted g hg x hx
        cases known.symm.trans hc
        cases bound.symm.trans admits
  impossible _ _ _ := not_mismatch_defect _
  result _ _ _ := not_mismatch_defect _
  enter {chain key location e} h := by
    rintro ⟨cause, location', rfl, kind⟩
    unfold enter at h
    split at h
    · cases h
      split at kind
      all_goals cases kind
    · cases h
  bound := not_mismatch_defect _

theorem bounded_of_involved (orderly : Orderly T) (hD : BoundedDefinitions T D) {r r' : Request}
    (hr : r.Bounded T D) (h : Involved T D [r] r') : r'.Bounded T D := by
  induction h with
  | asked mem =>
    cases List.mem_singleton.mp mem
    exact hr
  | needed _ hp need ih => exact closedUnderNeeds_bounded orderly hD _ _ _ ih hp need

end Specialization

/-! ## Headers of programs without errors -/

namespace Elaboration

variable {T : SignatureTable} {g : Generics} {memory memory' : CheckerMemory} {location : Location}
  {fs : List Typed.Function}

/-- Whether the outermost form of a type without structs is in every vocabulary of a table. -/
def structFree (g : Generics) : Ty → Bool
  | .prim name cls => (Ty.builtin? name).any fun
    | .prim name' cls' => name' = name && cls' = cls
    | _ => false
  | .var p => g.types.contains p
  | .array _ (.var name) => g.hasNat name
  | .struct _ _ _ => false
  | .fn _ _ generics => generics.isEmpty
  | .undet _ | .tuple _ | .option _ | .array _ _ => true

theorem head_of_structFree {u : Ty} (h : structFree g u) :
    (registered T).Head g u ∧ ∀ d ts ns, u ≠ .struct d ts ns := by
  refine ⟨?_, by rintro d ts ns rfl; cases h⟩
  cases u with
  | prim name cls =>
    obtain ⟨t, found, same⟩ := (Option.any_eq_true ..).mp h
    cases t with
    | prim name' cls' =>
      obtain ⟨rfl, rfl⟩ : name' = name ∧ cls' = cls := by simpa using same
      exact found
    | _ => cases same
  | var p => exact List.contains_iff_mem.mp h
  | array elem length =>
    cases length with
    | var name => exact h
    | const | undet => trivial
  | struct => cases h
  | fn params result generics =>
    have empty : generics.types = [] ∧ generics.nats = [] := by
      simpa [structFree, Generics.isEmpty] using h
    intro name hn
    simp [Generics.names, Generics.typeNames, empty] at hn
  | undet | tuple | option => trivial

theorem prelude_orderly : ∀ s ∈ Prelude.signatures,
    s.EachType fun t => (registered T).Header s.generics t ∧ t.Bounded T := by
  have all : Prelude.signatures.all fun s => (s.result :: s.params.map (·.type)).all fun t =>
      t.subterms.all (structFree s.generics) && decide t.Unhidden := by decide +kernel
  intro s hs
  have types : ∀ t ∈ s.result :: s.params.map (·.type),
      (registered T).Header s.generics t ∧ t.Bounded T := by
    intro t ht
    obtain ⟨free, unhidden⟩ := Bool.and_eq_true_iff.mp
      (List.all_eq_true.mp (List.all_eq_true.mp all s hs) t ht)
    have heads : ∀ u ∈ t.subterms, (registered T).Head s.generics u ∧
        ∀ d ts ns, u ≠ .struct d ts ns := fun u hu =>
      head_of_structFree (List.all_eq_true.mp free u hu)
    exact ⟨⟨fun u hu => (heads u hu).1, of_decide_eq_true unhidden⟩,
      fun d ts ns hd => absurd rfl ((heads _ hd).2 d ts ns)⟩
  rw [List.forall_mem_cons, List.forall_mem_map] at types
  exact ⟨types.2, types.1⟩

theorem checkFields_eq_ok {struct : String} {seen : List String} {fs : List Field}
    (h : checkFields T g struct location seen fs = .ok ()) :
    ∀ f ∈ fs, checkType T g location f.type = .ok () := by
  induction fs generalizing seen with
  | nil => exact nofun
  | cons f fs ih =>
    rw [checkFields] at h
    split at h
    · obtain ⟨_, h, -⟩ := except_bind_eq_ok.mp h
      exact absurd h failure_ne_ok
    · obtain ⟨_, hf, h⟩ := except_bind_eq_ok.mp h
      exact List.forall_mem_cons.mpr ⟨hf, ih h⟩

theorem allows_of_checkType {t : Ty} (h : checkType T g location t = .ok ())
    (proper : t.Proper T g) : (registered T).Allows g t :=
  fun u hu => stated_of_proper proper u hu (checkType_eq_ok h u hu)

theorem allows_selfType {d : StructDecl} (found : T.findStruct? d.name = some d) :
    (registered T).Allows d.params d.selfType := by
  refine Vocabulary.allows_struct.mpr ⟨⟨⟨found, by simp, by simp⟩, ?_⟩, ?_⟩
  · exact List.forall_mem_map.mpr fun n hn => List.contains_iff_mem.mpr hn
  · exact List.forall_mem_map.mpr fun p hp => Vocabulary.allows_iff.mpr ⟨hp, nofun⟩

theorem allows_of_checkFunction {owner : Option StructDecl} {f : Source.FunctionDef}
    {sig : Signature} {typed : Typed.Function} (signature : signatureOf owner f = .ok sig)
    (h : checkFunction T owner f memory = .ok typed memory')
    (proper : sig.EachType (·.Proper T sig.generics)) :
    sig.EachType ((registered T).Allows sig.generics) := by
  obtain ⟨_, _, -, run⟩ := exists_checked signature h
  exact ⟨fun p hp => allows_of_checkType (run.params p hp) (proper.1 p hp),
    allows_of_checkType run.result proper.2⟩

theorem exists_run_of_mapM {α β σ : Type} {f : α → Analysis σ β} {l : List α} {bs : List β}
    {s s' : σ} (h : l.mapM f s = .ok bs s') {a : α} (ha : a ∈ l) :
    ∃ s₁ b s₂, f a s₁ = .ok b s₂ := by
  induction l generalizing s bs s' with
  | nil => cases ha
  | cons a' l ih =>
    rw [List.mapM_cons] at h
    obtain ⟨b, s₁, first, h⟩ := bind_eq_ok.mp h
    obtain ⟨rest, s₂, hrest, -⟩ := bind_eq_ok.mp h
    rcases List.mem_cons.mp ha with rfl | ha
    · exact ⟨s, b, s₁, first⟩
    · exact ih hrest ha

theorem elaborate_struct_eq_ok {s : Source.StructDef}
    (h : (Source.Def.struct s).elaborate T memory = .ok fs memory') :
    checkGenerics s.decl.params s.location = .ok () ∧
      (∀ f ∈ s.decl.fields, checkType T s.decl.params s.location f.type = .ok ()) ∧
      ∀ m ∈ s.methods, ∃ memory₁ f memory₂,
        checkFunction T (some s.decl) m memory₁ = .ok f memory₂ := by
  obtain ⟨_, _, first, h⟩ := bind_eq_ok.mp h
  obtain ⟨generics, rfl⟩ := ofExcept_eq_ok.mp first
  obtain ⟨_, _, second, h⟩ := bind_eq_ok.mp h
  obtain ⟨fields, rfl⟩ := ofExcept_eq_ok.mp second
  exact ⟨generics, checkFields_eq_ok fields, fun m hm => exists_run_of_mapM h hm⟩

/-- **The headers of a definition that has been elaborated** are in the vocabulary of the table. -/
theorem allows_of_elaborate {d : Source.Def} (h : d.elaborate T memory = .ok fs memory')
    (proper : ∀ s ∈ d.signatures, s.EachType (·.Proper T s.generics)) :
    ∀ s ∈ d.signatures, s.EachType ((registered T).Allows s.generics) := by
  intro sig hsig
  have ofSig := proper sig hsig
  cases d with
  | function f =>
    cases List.mem_singleton.mp hsig
    obtain ⟨_, _, checked, -⟩ := bind_eq_ok.mp h
    exact allows_of_checkFunction rfl checked ofSig
  | struct s =>
    obtain ⟨-, fields, methods⟩ := elaborate_struct_eq_ok h
    rcases List.mem_cons.mp hsig with rfl | hsig
    · obtain ⟨params, result⟩ := ofSig
      rw [StructDecl.constructorSignature, List.forall_mem_map] at params
      refine ⟨List.forall_mem_map.mpr fun f hf => ?_, ?_⟩
      · exact allows_of_checkType (fields f hf) (params f hf)
      · exact allows_selfType (result.bounded _ _ _ (Ty.mem_subterms_self _)).1
    · obtain ⟨m, hm, declared⟩ := List.mem_filterMap.mp hsig
      obtain ⟨_, _, _, checked⟩ := methods m hm
      cases signature : methodSignature s.decl m with
      | error => simp [signature, Except.toOption] at declared
      | ok sig' =>
        obtain rfl : sig' = sig := by simpa [signature, Except.toOption] using declared
        have signature : signatureOf (some s.decl) m = .ok sig' := signature
        exact allows_of_checkFunction signature checked ofSig

end Elaboration

/-! ## Programs -/

namespace CheckedProgram

open Elaboration QuantumStatics.Specialization

variable {options : CheckOptions} {defs : List Source.Def} {p : CheckedProgram}

/-- The types that a program declares are proper, in its headers and in its bodies, and no function
    type in a header hides a parameter of the header. -/
structure Proper (T : SignatureTable) (defs : List Source.Def) : Prop where
  named : ∀ d ∈ defs, ∀ s ∈ d.signatures, s.generics.Named
  headers : ∀ d ∈ defs, ∀ s ∈ d.signatures,
    s.EachType fun t => t.Proper T s.generics ∧ t.Unhidden
  bodies : ∀ d ∈ defs, ∀ owner f s, d.Declares owner f → signatureOf owner f = .ok s →
    f.EachType (·.Proper T s.generics)

/-- **The table of a program without errors** is as it has to be for its bodies to be within
    bounds. -/
theorem orderly_of_ok (h : check options defs = .ok p) (ok : p.ok)
    (proper : Proper p.table defs) : Orderly p.table := by
  have headers : ∀ d ∈ defs, ∀ s ∈ d.signatures,
      s.EachType fun t => (registered p.table).Header s.generics t ∧ t.Bounded p.table := by
    intro d hd s hs
    obtain ⟨fs, memory, elaborated⟩ := elaborate_of_ok h ok hd
    obtain ⟨params, result⟩ := proper.headers d hd s hs
    obtain ⟨params', result'⟩ := allows_of_elaborate elaborated (fun s hs =>
      ⟨fun q hq => ((proper.headers d hd s hs).1 q hq).1, (proper.headers d hd s hs).2.1⟩) s hs
    exact ⟨fun q hq => ⟨⟨params' q hq, (params q hq).2⟩, (params q hq).1.bounded⟩,
      ⟨result', result.2⟩, result.1.bounded⟩
  refine ⟨(registered_of_check h).keyed, fun {n s} hs => ?_, fun {n decl} found => ?_⟩
  · rcases (from_check h).signature hs with hs | ⟨d, hd, hs⟩
    · exact prelude_orderly s hs
    · exact headers d hd s hs
  · obtain ⟨-, s, hs, rfl⟩ := (from_check h).struct found
    have constructor : s.decl.constructorSignature s.location ∈ (Source.Def.struct s).signatures :=
      List.mem_cons_self
    obtain ⟨fs, memory, elaborated⟩ := elaborate_of_ok h ok hs
    obtain ⟨-, self, -⟩ := proper.headers _ hs _ constructor
    obtain ⟨params, -⟩ := headers _ hs _ constructor
    rw [StructDecl.constructorSignature, List.forall_mem_map] at params
    have legible := self.legible _ (Ty.mem_subterms_self _)
    exact ⟨(self.bounded _ _ _ (Ty.mem_subterms_self _)).1, ⟨legible.1, legible.2.1⟩,
      distinct_of_checkGenerics (elaborate_struct_eq_ok elaborated).1, params⟩

theorem boundedDefinitions_of_ok (h : check options defs = .ok p) (ok : p.ok)
    (proper : Proper p.table defs) : BoundedDefinitions p.table (definitionsOf p.functions) := by
  have orderly := orderly_of_ok h ok proper
  have bounds : ∀ f ∈ p.functions, FunctionBounds p.table f ∧
      ∃ s, p.table.find? f.qualifiedName = some s ∧ s.generics = f.generics := by
    intro f hf
    obtain ⟨d, hd, owner, fd, s, memory, memory', declares, hs, header, plain, checked⟩ :=
      mem_functions (Q := fun memory => memory.memo.Plain (Spelled p.table)) h hf
        (ClassMemo.plain_empty _) fun d hd {owner fd f memory memory'} declares plain checked => by
          obtain ⟨s, _, hs, -⟩ := bind_eq_ok.mp checked
          obtain ⟨hs, -⟩ := ofExcept_eq_ok.mp hs
          exact (checkFunction_bounded orderly hs (proper.named d hd s (declares.mem_signatures hs))
            (proper.bodies d hd owner fd s declares hs) plain checked).1
    obtain ⟨-, generics, bounds⟩ := checkFunction_bounded orderly hs
      (proper.named d hd s (declares.mem_signatures hs))
      (proper.bodies d hd owner fd s declares hs) plain checked
    have named : ∀ decl ∈ owner, decl.name ≠ "" := by
      rintro decl howner empty
      cases declares with
      | function => cases howner
      | method hm =>
        cases howner
        obtain ⟨-, self, -⟩ := proper.headers _ hd _ List.mem_cons_self
        obtain ⟨c, cs, hc, -⟩ := isName_iff.mp (self.legible _ (Ty.mem_subterms_self _)).1
        simp [empty] at hc
    rw [qualifiedName_of_checked hs named checked, generics]
    exact ⟨bounds, header⟩
  constructor
  · intro n f hf
    exact (bounds f (of_get?_definitionsOf hf).1).1
  · intro n f hf
    obtain ⟨mem, rfl⟩ := of_get?_definitionsOf hf
    exact (bounds f mem).2

/-- **Specializing a program without errors fails for no bound**, if the types that it declares are
    proper: for every request whose own arguments pass and are within the bounds of the structs in
    them, everything that is asked for in its course is within the bounds of the parameters that it
    is for.  So the request does not fail for a bound, after any other requests. -/
theorem requests_keep_to_bounds {options : CheckOptions} {defs : List Source.Def}
    {p : CheckedProgram} (checked : check options defs = .ok p) (ok : p.ok)
    (proper : Proper p.table defs) (r : Request)
    (passes : ∃ g, r.params? p.table (definitionsOf p.functions) = some g ∧
      r.key.checkArgs g r.location = .ok ())
    (args : ∀ t ∈ r.key.typeArgs, t.Bounded p.table) :
    (∀ r', Involved p.table (definitionsOf p.functions) [r] r' →
      ∀ g, r'.params? p.table (definitionsOf p.functions) = some g →
        ∀ x ∈ g.types.zip r'.key.typeArgs, x.1.Accepts x.2) ∧
      ∀ (rs : List Request) (e : Failure) (c : Cache),
        r.answer p.table (definitionsOf p.functions)
          (session p.table (definitionsOf p.functions) rs) = .error e c → ¬Mismatch e := by
  have orderly := orderly_of_ok checked ok proper
  have hD := boundedDefinitions_of_ok checked ok proper
  have bounded : r.Bounded p.table (definitionsOf p.functions) := by
    refine ⟨args, fun g hg => ?_⟩
    obtain ⟨_, hg', passes⟩ := passes
    cases hg.symm.trans hg'
    exact accepts_of_checkTypeArgs (checkArgs_eq_ok.mp passes).2.1
  exact ⟨fun r' involved => (bounded_of_involved orderly hD bounded involved).accepted,
    fun rs e c => (harmless_of_bounds orderly hD).answer_fails bounded rs⟩

/-- Whether the own arguments of a request pass. -/
def passes (p : CheckedProgram) (r : Request) : Bool :=
  (r.params? p.table (definitionsOf p.functions)).any fun g => (r.key.checkArgs g r.location).isOk

theorem exists_of_passes {r : Request} (h : passes p r) :
    ∃ g, r.params? p.table (definitionsOf p.functions) = some g ∧
      r.key.checkArgs g r.location = .ok () := by
  obtain ⟨g, hg, test⟩ := (Option.any_eq_true ..).mp h
  exact ⟨g, hg, isOk_iff.mp test⟩

/-- Puts its argument into a cell. -/
def wraps : Source.FunctionDef where
  name := "wraps"
  generics := ⟨[copyableParam], []⟩
  params := [⟨"x", .var copyableParam, .borrowed⟩]
  result := some (.struct cell [.var copyableParam] [])
  body := [.ret {} (some (.call {} "Cell" [.name {} "x"]))]

/-- Puts its argument into a cell, and the cell into another one. -/
def nests : Source.FunctionDef where
  name := "nests"
  generics := ⟨[copyableParam], []⟩
  params := [⟨"x", .var copyableParam, .borrowed⟩]
  result := some (.struct cell [.struct cell [.var copyableParam] []] [])
  body := [.assign {} "y" (.call {} "wraps" [.name {} "x"]) none,
    .ret {} (some (.call {} "wraps" [.name {} "y"]))]

/-- A program that puts cells into cells. -/
def nesting : List Source.Def := [.struct ⟨{}, cell, []⟩, .function wraps, .function nests]

/-- The specialization of `nests` to a cell. -/
def requestNests : Request := ⟨.definition, ⟨"nests", [.struct cell [.int] []], []⟩, {}⟩

section

variable {T : SignatureTable} {g : Generics} {t : Ty}

theorem accepts_cell (h : copyableParam.Accepts t) :
    copyableParam.Accepts (.struct cell [t] []) := by
  obtain ⟨c, known, admits⟩ := h
  have parts : (Ty.struct cell [t] []).parts = .ok (.copyable, [t]) := by
    simp [Ty.parts, cell, StructDecl.instantiateFields, Except.map, Instantiation.apply_eq,
      Instantiation.pair, Generics.typeNames, copyableParam, Dict.get?_ofListFirst]
  refine ⟨c, ?_, admits⟩
  rw [Ty.classify_of_parts parts, Ty.classifyAll, known]
  change Ty.classifyAll (OwnershipClass.copyable.join c) [] = .ok c
  rw [OwnershipClass.copyable_join, Ty.classifyAll]

theorem proper_cell (found : T.findStruct? "Cell" = some cell) (proper : t.Proper T g)
    (accepts : copyableParam.Accepts t) : (Ty.struct cell [t] []).Proper T g where
  legible := Ty.forall_mem_subterms.mpr
    ⟨⟨by decide, by decide, nofun⟩, List.forall_mem_singleton.mpr proper.legible⟩
  flagged p hp := by
    rcases Ty.mem_subterms.mp hp with heq | ⟨c, hc, hp⟩
    · cases heq
    · cases List.mem_singleton.mp hc
      exact proper.flagged p hp
  bounded d ts ns hd := by
    rcases Ty.mem_subterms.mp hd with heq | ⟨c, hc, hd⟩
    · cases heq
      exact ⟨found, List.forall_mem_singleton.mpr accepts⟩
    · cases List.mem_singleton.mp hc
      exact proper.bounded d ts ns hd

theorem proper_var : (Ty.var copyableParam).Proper T ⟨[copyableParam], []⟩ where
  legible := Ty.forall_mem_subterms.mpr ⟨(by decide : isName copyableParam.name), nofun⟩
  flagged p hp := by
    cases List.mem_singleton.mp hp
    exact List.mem_singleton_self _
  bounded d ts ns hd := by cases List.mem_singleton.mp hd

theorem proper_int : Ty.int.Proper T g where
  legible := Ty.forall_mem_subterms.mpr ⟨rfl, nofun⟩
  flagged p hp := by cases List.mem_singleton.mp hp
  bounded d ts ns hd := by cases List.mem_singleton.mp hd

theorem accepts_int : copyableParam.Accepts .int :=
  ⟨.copyable, by rw [Ty.classify_of_parts rfl, Ty.classifyAll], rfl⟩

theorem accepts_var : copyableParam.Accepts (.var copyableParam) :=
  TypeParam.accepts_iff.mpr (.refl _)

theorem proper_nesting (found : T.findStruct? "Cell" = some cell) : Proper T nesting := by
  have once : (Ty.struct cell [.var copyableParam] []).Proper T ⟨[copyableParam], []⟩ :=
    proper_cell found proper_var accepts_var
  have twice : (Ty.struct cell [.struct cell [.var copyableParam] []] []).Proper T
      ⟨[copyableParam], []⟩ := proper_cell found once (accepts_cell accepts_var)
  refine ⟨by decide, fun d hd s hs => ?_, fun d hd owner f s declares hs => ?_⟩
  · simp only [nesting, List.mem_cons, List.not_mem_nil, or_false] at hd
    rcases hd with rfl | rfl | rfl
    · cases List.mem_singleton.mp hs
      exact ⟨List.forall_mem_singleton.mpr ⟨proper_var, by decide⟩, once, by decide⟩
    · cases List.mem_singleton.mp hs
      exact ⟨List.forall_mem_singleton.mpr ⟨proper_var, by decide⟩, once, by decide⟩
    · cases List.mem_singleton.mp hs
      exact ⟨List.forall_mem_singleton.mpr ⟨proper_var, by decide⟩, twice, by decide⟩
  · simp only [nesting, List.mem_cons, List.not_mem_nil, or_false] at hd
    rcases hd with rfl | rfl | rfl
    · cases declares with
      | method hm => cases hm
    · cases declares
      cases hs
      refine ⟨List.forall_mem_singleton.mpr proper_var, ?_, ?_, trivial⟩
      · rintro _ ⟨⟩
        exact once
      · rintro _ ⟨⟩
        exact ⟨trivial, trivial⟩
    · cases declares
      cases hs
      refine ⟨List.forall_mem_singleton.mpr proper_var, ?_, ⟨⟨trivial, trivial⟩, by simp⟩, ?_,
        trivial⟩
      · rintro _ ⟨⟩
        exact twice
      · rintro _ ⟨⟩
        exact ⟨trivial, trivial⟩

end

theorem nests_keeps_to_bounds : ∃ p, check {} nesting = .ok p ∧ p.ok ∧ Proper p.table nesting ∧
    (∃ g, requestNests.params? p.table (definitionsOf p.functions) = some g ∧
      requestNests.key.checkArgs g requestNests.location = .ok ()) ∧
    (∀ t ∈ requestNests.key.typeArgs, t.Bounded p.table) ∧
    (∀ r', Involved p.table (definitionsOf p.functions) [requestNests] r' →
      ∀ g, r'.params? p.table (definitionsOf p.functions) = some g →
        ∀ x ∈ g.types.zip r'.key.typeArgs, x.1.Accepts x.2) ∧
    ∀ (rs : List Request) (e : Failure) (c : Cache),
      requestNests.answer p.table (definitionsOf p.functions)
        (session p.table (definitionsOf p.functions) rs) = .error e c → ¬Mismatch e := by
  have registered : registerHeaders Prelude.table nesting = _ :=
    registerHeaders_cell [wraps, nests] (by simp [prelude_accepts, wraps, nests])
      (by simp [wraps, nests]) (by simp [wraps, nests])
  have run : (check {} nesting).toOption.any (fun p => p.ok && passes p requestNests) = true := by
    rw [check, registered, Prelude.table_eq]
    cbv
  obtain ⟨p, checked, test⟩ := exists_of_any run
  obtain ⟨ok, test⟩ := Bool.and_eq_true_iff.mp test
  -- The table of the program has the struct.
  obtain ⟨headers, T, hheaders, htable, -, -⟩ := check_eq_ok checked
  rw [registered] at hheaders
  cases hheaders
  have found : p.table.findStruct? "Cell" = some cell := by
    rw [htable, SignatureTable.findStruct?_finalize, findStruct?_functions]
    exact Prelude.table.findStruct?_withStruct cell {}
  have proper := proper_nesting found
  have args : ∀ t ∈ requestNests.key.typeArgs, t.Bounded p.table :=
    List.forall_mem_singleton.mpr (proper_cell (g := {}) found proper_int accepts_int).bounded
  exact ⟨p, checked, ok, proper, exists_of_passes test, args,
    requests_keep_to_bounds checked ok proper requestNests (exists_of_passes test) args⟩

/-- Takes a cell that holds a qubit, which cells may not. -/
def holds : Source.FunctionDef where
  name := "holds"
  params := [⟨"c", .struct cell [.qubit] [], .borrowed⟩]
  result := none
  body := []

/-- The specialization of `holds`. -/
def requestHolds : Request := ⟨.definition, ⟨"holds", [], []⟩, {}⟩

/-- Nothing is wrong with `holds` when it is checked, but it cannot be specialized. -/
theorem unbounded_parameter_fails :
    ∃ p, check {} [.struct ⟨{}, cell, []⟩, .function holds] = .ok p ∧ p.ok ∧
      (∃ g, requestHolds.params? p.table (definitionsOf p.functions) = some g ∧
        requestHolds.key.checkArgs g requestHolds.location = .ok ()) ∧
      ∃ e c, requestHolds.answer p.table (definitionsOf p.functions)
        (session p.table (definitionsOf p.functions) []) = .error e c ∧ Mismatch e := by
  have registered : registerHeaders Prelude.table [.struct ⟨{}, cell, []⟩, .function holds] = _ :=
    registerHeaders_cell [holds] (by simp [prelude_accepts, holds]) (by simp [holds])
      (by simp [holds])
  have run : (check {} [.struct ⟨{}, cell, []⟩, .function holds]).toOption.any (fun p =>
      p.ok && passes p requestHolds &&
      match requestHolds.answer p.table (definitionsOf p.functions) {} with
      | .error (.rejected r) _ => r.cause.kind = .typeMismatch
      | _ => false) = true := by
    rw [check, registered, Prelude.table_eq]
    cbv
  obtain ⟨p, checked, test⟩ := exists_of_any run
  simp only [Bool.and_eq_true] at test
  obtain ⟨⟨ok, args⟩, fails⟩ := test
  refine ⟨p, checked, ok, exists_of_passes args, ?_⟩
  split at fails
  · next r c failed => exact ⟨_, c, failed, r.cause, r.location, rfl, of_decide_eq_true fails⟩
  · cases fails

end CheckedProgram

end QuantumStatics
