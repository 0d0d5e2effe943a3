/-
  The interfaces of accepted functions.

  A definition is registered as a whole or rejected without a trace, and the names of the definitions
  in the table are all different.  An accepted function is found under its qualified name, with the
  interface that it has: what inference finds out does not reach the types of its header, as these
  leave nothing to be inferred.

  * `qualifiedName_of_checked`, `interface_of_checked`: a checked function has the name and the
    interface of its signature;
  * `CheckedProgram.registration_is_atomic`: what registering the headers of a program does, and what
    follows for its functions.
-/
import QuantumStatics.Proofs.Elaboration.Vocabulary
import QuantumStatics.Proofs.Program.Registration

namespace QuantumStatics

open Elaboration

/-- No nat in a type is to be inferred. -/
def Ty.NatsKnown (t : Ty) : Prop := ∀ v ∈ t.vars, v.natStamp?.isNone

instance : DecidablePred Ty.NatsKnown := fun t =>
  inferInstanceAs (Decidable (∀ v ∈ t.vars, v.natStamp?.isNone))

/-! ## Functions -/

section Functions

variable {T : SignatureTable} {owner : Option StructDecl} {fd : Source.FunctionDef}
  {sig : Signature} {f : Typed.Function} {memory memory' : CheckerMemory}

theorem Ty.subst_of_checkType {g : Generics} {location : Location} {t : Ty} {S : Substitution}
    (checked : checkType T g location t = .ok ()) (nats : t.NatsKnown) :
    t.subst S = t := by
  refine Ty.subst_of_determined fun v hv undetermined => ?_
  obtain ⟨u, hu, own⟩ := Ty.exists_of_mem_vars hv
  have declarable := checkType_eq_ok checked u hu
  cases v with
  | type | nat => cases undetermined
  | undetNat k => cases nats _ hv
  | undetType k =>
    cases u with
    | undet => exact declarable
    | prim | var | tuple | fn | option => simp [Ty.ownVars] at own
    | array elem length => cases length <;> simp [Ty.ownVars, NatTerm.vars] at own
    | struct d ts ns =>
      obtain ⟨n, -, own⟩ := List.mem_flatMap.mp own
      cases n <;> simp [NatTerm.vars] at own

theorem qualifiedName_of_checked (signature : signatureOf owner fd = .ok sig)
    (named : ∀ d ∈ owner, d.name ≠ "") (h : checkFunction T owner fd memory = .ok f memory') :
    f.qualifiedName = sig.name := by
  obtain ⟨checked, final, -, run⟩ := exists_checked signature h
  obtain ⟨name, ownerName⟩ := run.names
  have names : f.name = fd.name ∧ f.owner = (owner.map (·.name)).getD "" := by
    rw [run.typed]
    exact ⟨name, ownerName⟩
  rw [Typed.Function.qualifiedName, names.1, names.2]
  cases owner with
  | none =>
    cases signature
    rfl
  | some d =>
    rw [name_of_methodSignature signature]
    simp [String.isEmpty_iff, named d rfl]

theorem interface_of_checked (signature : signatureOf owner fd = .ok sig)
    (nats : sig.EachType Ty.NatsKnown)
    (h : checkFunction T owner fd memory = .ok f memory') :
    sig.generics = f.generics ∧ sig.params = f.params ∧ sig.result = f.result := by
  obtain ⟨checked, final, -, run⟩ := exists_checked signature h
  obtain ⟨generics, params, result⟩ := run.header
  have types : ∀ p ∈ sig.params, ({ p with type := p.type.subst final.subs } : Param) = p := by
    intro p hp
    rw [Ty.subst_of_checkType (run.params p hp) (nats.1 p hp)]
  rw [run.typed]
  refine ⟨generics.symm, ?_, ?_⟩
  · change sig.params = checked.params.map _
    rw [params, List.map_congr_left types, List.map_id']
  · change sig.result = checked.result.subst _
    rw [result, Ty.subst_of_checkType run.result nats.2]

end Functions

/-! ## Programs -/

theorem forall₂_of_mapM {σ α β : Type} {f : α → Analysis σ β} {l : List α} {bs : List β} {s s' : σ}
    (h : l.mapM f s = .ok bs s') :
    List.Forall₂ (fun a b => ∃ s₁ s₂, f a s₁ = .ok b s₂) l bs := by
  induction l generalizing s bs with
  | nil =>
    rw [List.mapM_nil] at h
    obtain ⟨rfl, -⟩ := pure_eq_ok.mp h
    exact .nil
  | cons a l ih =>
    rw [List.mapM_cons] at h
    obtain ⟨b, s₁, first, h⟩ := bind_eq_ok.mp h
    obtain ⟨rest, s₂, others, h⟩ := bind_eq_ok.mp h
    obtain ⟨rfl, rfl⟩ := pure_eq_ok.mp h
    exact .cons ⟨s, s₁, first⟩ (ih others)

namespace CheckedProgram

variable {options : CheckOptions} {defs : List Source.Def} {p : CheckedProgram} {d : Source.Def}
  {T : SignatureTable} {headers : List (Source.Def × Option Rejection)}

theorem sublist_of_elaborate {memory memory' : CheckerMemory} {fs : List Typed.Function}
    (named : ∀ e ∈ d.struct?, e.name ≠ "") (h : d.elaborate T memory = .ok fs memory') :
    (fs.map (·.qualifiedName)).Sublist d.names := by
  cases d with
  | function fd =>
    obtain ⟨f, _, checked, h⟩ := bind_eq_ok.mp h
    obtain ⟨rfl, -⟩ := pure_eq_ok.mp h
    rw [List.map_singleton, qualifiedName_of_checked rfl (by simp) checked]
    exact List.Sublist.refl _
  | struct s =>
    obtain ⟨_, _, -, h⟩ := bind_eq_ok.mp h
    obtain ⟨_, _, -, h⟩ := bind_eq_ok.mp h
    have name : ∀ m f, (∃ memory₁ memory₂,
        checkFunction T (some s.decl) m memory₁ = .ok f memory₂) →
        f.qualifiedName = methodName s.decl.name m.name := by
      rintro m f ⟨memory₁, memory₂, checked⟩
      obtain ⟨sig, _, hsig, -⟩ := bind_eq_ok.mp checked
      obtain ⟨signature, -⟩ := ofExcept_eq_ok.mp hsig
      rw [← name_of_methodSignature signature]
      refine qualifiedName_of_checked signature ?_ checked
      rintro _ ⟨⟩
      exact named _ rfl
    have same : s.methods.map (fun m => methodName s.decl.name m.name) =
        fs.map (·.qualifiedName) := by
      rw [← List.forall₂_eq_eq_eq, List.forall₂_map_left_iff, List.forall₂_map_right_iff]
      exact (forall₂_of_mapM h).imp fun m f checked => (name m f checked).symm
    rw [← same]
    exact List.sublist_cons_self ..

/-- **The names of accepted functions** are among those that their definitions declare, in order. -/
theorem sublist_names (named : ∀ y ∈ headers, ∀ e ∈ y.1.struct?, e.name ≠ "")
    {verdicts : List (Source.Def × Verdict)}
    (h : List.Forall₂ (fun y x => x.1 = y.1 ∧ Judged T options y.1 y.2 x.2) headers verdicts) :
    ((verdicts.flatMap fun x => x.2.functions).map (·.qualifiedName)).Sublist
      ((acceptedDefs headers).flatMap (·.names)) := by
  induction h with
  | nil => exact .slnil
  | @cons y x _ _ first _ ih =>
    obtain ⟨d, outcome⟩ := y
    obtain ⟨d', v⟩ := x
    obtain ⟨rfl, verdict⟩ := first
    obtain ⟨namedHere, others⟩ := List.forall_mem_cons.mp named
    rw [List.flatMap_cons, List.map_append]
    cases outcome with
    | some r =>
      cases verdict
      exact ih others
    | none =>
      refine List.Sublist.append ?_ (ih others)
      rcases elaborate_of_check verdict with rejected | ⟨memory, elaborated⟩
      · rw [functions_of_isRejected rejected]
        exact List.nil_sublist _
      · exact sublist_of_elaborate namedHere elaborated

/-- **An accepted function is in the table**, under its name and with its interface. -/
theorem find?_of_mem_functions (h : check options defs = .ok p)
    (named : ∀ d ∈ defs, ∀ e ∈ d.struct?, e.name ≠ "")
    (nats : ∀ d ∈ defs, ∀ s ∈ d.signatures, s.EachType Ty.NatsKnown)
    {f : Typed.Function} (hf : f ∈ p.functions) :
    ∃ s, p.table.find? f.qualifiedName = some s ∧ s.generics = f.generics ∧ s.params = f.params ∧
      s.result = f.result := by
  obtain ⟨headers, T, hheaders, htable, hverdicts, -⟩ := check_eq_ok h
  obtain ⟨registers, same⟩ := registers_of_registerHeaders Prelude.unfinished hheaders
  obtain ⟨⟨d, v⟩, hv, hf⟩ := List.mem_flatMap.mp hf
  obtain ⟨outcome, hd, verdict⟩ := hverdicts _ hv
  have mem : d ∈ defs := same ▸ List.mem_map_of_mem (f := fun y => y.1) hd
  cases outcome with
  | some r =>
    cases verdict
    cases hf
  | none =>
    have accepted : ¬v.isRejected := fun rejected => by
      dsimp only at hf
      rw [functions_of_isRejected rejected] at hf
      cases hf
    obtain ⟨_, elaborated⟩ := (elaborate_of_check verdict).resolve_left accepted
    obtain ⟨owner, fd, memory, memory', declares, -, checked⟩ :=
      exists_of_elaborate_keeping (Q := fun _ => True) trivial (fun _ _ _ => trivial) elaborated hf
    obtain ⟨s, _, hs, -⟩ := bind_eq_ok.mp checked
    obtain ⟨signature, -⟩ := ofExcept_eq_ok.mp hs
    have declared := declares.mem_signatures signature
    refine ⟨s, ?_, interface_of_checked signature (nats d mem s declared) checked⟩
    have registered : d ∈ acceptedDefs headers :=
      List.mem_map.mpr ⟨(d, none), List.mem_filter.mpr ⟨hd, rfl⟩, rfl⟩
    have namedOwner : ∀ e ∈ owner, e.name ≠ "" := by
      cases declares with
      | function => simp
      | method hm =>
        rintro _ ⟨⟩
        exact named _ mem _ rfl
    rw [qualifiedName_of_checked signature namedOwner checked, htable]
    exact registers.find? registered declared

/-- **Registration is atomic and unambiguous.**  Registering the headers of a program always returns.
    Each definition adds exactly what it declares, all of it new, or it is rejected and leaves the
    table as it is.

    So, if structs have names and declared types leave no nats to be inferred, the accepted functions
    have different names, and each of them is in the table with the interface that it has. -/
theorem registration_is_atomic (defs : List Source.Def) :
    (∀ before d after, defs = before ++ d :: after →
      ∃ headers T outcome T' rest T'', registerHeaders Prelude.table before = .ok (headers, T) ∧
        (outcome = none ∧ Header.register d T = .ok () T' ∧ d.Adds T T' ∨
          ∃ r, outcome = some r ∧ Header.register d T = .error (.rejected r) T ∧ T' = T) ∧
        registerHeaders T' after = .ok (rest, T'') ∧
        registerHeaders Prelude.table defs = .ok (headers ++ (d, outcome) :: rest, T'')) ∧
    ((∀ d ∈ defs, ∀ e ∈ d.struct?, e.name ≠ "") →
      (∀ d ∈ defs, ∀ s ∈ d.signatures, s.EachType Ty.NatsKnown) →
      ∀ options p, check options defs = .ok p →
        (p.functions.map (·.qualifiedName)).Nodup ∧
        ∀ f ∈ p.functions, ∃ s, p.table.find? f.qualifiedName = some s ∧
          s.generics = f.generics ∧ s.params = f.params ∧ s.result = f.result) := by
  constructor
  · rintro before d after rfl
    obtain ⟨headers, T, first, -, -, unfinished⟩ :=
      exists_registerHeaders Prelude.unfinished before
    rcases Header.registrable_or_rejected unfinished d with registrable | ⟨r, rejected⟩
    · have run := Header.register_of_registrable registrable
      obtain ⟨rest, T'', others, -⟩ :=
        exists_registerHeaders (T := T.withHeader d) unfinished after
      exact ⟨headers, T, none, T.withHeader d, rest, T'', first,
        .inl ⟨rfl, run, registrable.adds⟩, others,
        registerHeaders_append first (registerHeaders_of_ok run others)⟩
    · obtain ⟨rest, T'', others, -⟩ := exists_registerHeaders unfinished after
      exact ⟨headers, T, some r, T, rest, T'', first, .inr ⟨r, rfl, rejected, rfl⟩, others,
        registerHeaders_append first (registerHeaders_of_rejected rejected others)⟩
  · intro named nats options p checked
    refine ⟨?_, fun f hf => find?_of_mem_functions checked named nats hf⟩
    obtain ⟨headers, T, hheaders, -, judged⟩ := check_eq_ok_iff.mp checked
    obtain ⟨registers, same⟩ := registers_of_registerHeaders Prelude.unfinished hheaders
    refine (sublist_names (fun y hy => named y.1 ?_) judged).nodup registers.distinct.1
    exact same ▸ List.mem_map_of_mem hy

/-- A struct with a number. -/
def counter : StructDecl := ⟨"Counter", {}, [⟨"count", .int⟩]⟩

/-- A method that reads the number. -/
def read : Source.FunctionDef where
  name := "read"
  params := [⟨"self", counter.selfType, .borrowed⟩]
  result := some .int
  body := [.ret {} (some (.field {} (.name {} "self") "count"))]

/-- Takes numbers and does nothing. -/
def ignores : Source.FunctionDef where
  name := "ignores"
  generics := ⟨[], ["n"]⟩
  params := [⟨"numbers", .array .int (.var "n"), .owned⟩]
  result := none
  body := []

/-- The struct `Counter` with its method. -/
def readable : Source.Def := .struct ⟨{}, counter, [read]⟩

/-- A struct that declares a method twice. -/
def twice : Source.Def := .struct ⟨{}, ⟨"Twice", {}, []⟩, [read, read]⟩

theorem readable_registrable : readable.Registrable Prelude.table := by
  have new : ∀ n ∈ readable.names, n ∉ Prelude.signatures.map (·.name) := by decide +kernel
  refine ⟨fun n hn => Prelude.table_accepts (new n hn), by decide, ?_⟩
  rintro _ _ (_ | hm)
  cases List.mem_singleton.mp hm
  exact ⟨_, rfl⟩

theorem ignores_registrable : (Source.Def.function ignores).Registrable Prelude.table := by
  have new : ignores.name ∉ Prelude.signatures.map (·.name) := by decide +kernel
  exact .function (Prelude.table_accepts new)

/-- The struct with a method twice is rejected and leaves no trace; the method and the function are
    accepted. -/
theorem counters_registered_atomically :
    (∃ headers T r, registerHeaders Prelude.table [readable] = .ok (headers, T) ∧
      Header.register twice T = .error (.rejected r) T) ∧
    ∃ p, check {} [readable, twice, .function ignores] = .ok p ∧
      p.functions.map (·.qualifiedName) = ["Counter.read", "ignores"] ∧
      (p.functions.map (·.qualifiedName)).Nodup ∧
      ∀ f ∈ p.functions, ∃ s, p.table.find? f.qualifiedName = some s ∧
        s.generics = f.generics ∧ s.params = f.params ∧ s.result = f.result := by
  obtain ⟨atomic, interfaces⟩ := registration_is_atomic [readable, twice, .function ignores]
  obtain ⟨headers, T, outcome, T', rest, T'', first, header, last, all⟩ :=
    atomic [readable] twice [.function ignores] rfl
  have run := registerHeaders_of_registrable (List.forall_mem_singleton.mpr readable_registrable)
    (by decide)
  cases first.symm.trans run
  rcases header with ⟨-, -, adds⟩ | ⟨r, rfl, rejected, rfl⟩
  · exact absurd adds.distinct (by decide)
  · refine ⟨⟨_, _, r, first, rejected⟩, ?_⟩
    have ignored := (readable_registrable.withHeader_iff (by decide)).mpr ignores_registrable
    cases last.symm.trans
      (registerHeaders_of_registrable (List.forall_mem_singleton.mpr ignored) (by decide))
    have run : (check {} [readable, twice, .function ignores]).toOption.any
        (fun p => p.functions.map (·.qualifiedName) == ["Counter.read", "ignores"]) = true := by
      rw [check, all, Prelude.table_eq]
      cbv
    obtain ⟨p, checked, names⟩ := exists_of_any run
    exact ⟨p, checked, beq_iff_eq.mp names, interfaces (by decide) (by decide) {} p checked⟩

end CheckedProgram

end QuantumStatics
