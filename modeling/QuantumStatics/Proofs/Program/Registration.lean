/-
  Registering the headers of a program.

  A header is registered as a whole or not at all.  Everything that could go wrong is looked for
  before anything is entered: the names of a definition must be new and differ from each other, and
  the methods of a struct must have signatures (`Source.Def.Registrable`).  So definitions come to be
  in the table exactly if no name is declared twice, and the order in which they come does not
  matter.
-/
import QuantumStatics.Proofs.Program.Prelude

namespace QuantumStatics

open SignatureTable Elaboration

/-! ## What a definition declares -/

namespace Source.Def

/-- The names that a definition declares: that of a function, or that of a struct and those of its
    methods. -/
def names : Source.Def → List String
  | .function f => [f.name]
  | .struct s => s.decl.name :: s.methods.map fun m => methodName s.decl.name m.name

/-- The struct that a definition declares. -/
def struct? : Source.Def → Option StructDecl
  | .function _ => none
  | .struct s => some s.decl

/-- Nothing keeps a definition from being registered. -/
structure Registrable (T : SignatureTable) (d : Source.Def) : Prop where
  new : ∀ n ∈ d.names, T.Accepts n
  distinct : d.names.Nodup
  signed : ∀ {owner f}, d.Declares owner f → ∃ s, signatureOf owner f = .ok s

theorem Registrable.function {T : SignatureTable} {f : Source.FunctionDef} (new : T.Accepts f.name) :
    (Source.Def.function f).Registrable T := by
  refine ⟨List.forall_mem_singleton.mpr new, List.pairwise_singleton .., ?_⟩
  rintro _ _ ⟨⟩
  exact ⟨_, rfl⟩

/-- A definition adds its header, with new names, and leaves all else as it is. -/
structure Adds (d : Source.Def) (T T' : SignatureTable) : Prop where
  new : ∀ n ∈ d.names, T.find? n = none ∧ T.findStruct? n = none
  distinct : d.names.Nodup
  names : d.signatures.map (·.name) = d.names
  signature : ∀ s ∈ d.signatures, T'.find? s.name = some s
  otherSignatures : ∀ n ∉ d.names, T'.find? n = T.find? n
  struct : ∀ e ∈ d.struct?, T'.findStruct? e.name = some e
  otherStructs : ∀ n, (∀ e ∈ d.struct?, e.name ≠ n) → T'.findStruct? n = T.findStruct? n

end Source.Def

/-- A table with the header of a definition. -/
def SignatureTable.withHeader (T : SignatureTable) (d : Source.Def) : SignatureTable :=
  { T with
    signatures := d.signatures.foldl (fun D s => D.insert s.name s) T.signatures
    structs := d.struct?.toList.foldl (fun D e => D.insert e.name e) T.structs }

/-! ## Signatures of methods -/

theorem methodName_ne (owner method : String) : methodName owner method ≠ owner := by
  intro same
  have length := congrArg String.length same
  have dot : ".".length = 1 := rfl
  rw [methodName, String.length_append, String.length_append] at length
  omega

namespace Elaboration

theorem addTypeParams_cases (redeclared : String → Except Failure Generics) (g : Generics)
    (ps : List TypeParam) : (∃ g', addTypeParams redeclared g ps = .ok g') ∨
      ∃ n, addTypeParams redeclared g ps = redeclared n := by
  induction ps generalizing g with
  | nil => exact .inl ⟨g, rfl⟩
  | cons p ps ih =>
    rw [addTypeParams]
    split
    · exact .inr ⟨p.name, rfl⟩
    · exact ih _

theorem addNatParams_cases (redeclared : String → Except Failure Generics) (g : Generics)
    (ns : List String) : (∃ g', addNatParams redeclared g ns = .ok g') ∨
      ∃ n, addNatParams redeclared g ns = redeclared n := by
  induction ns generalizing g with
  | nil => exact .inl ⟨g, rfl⟩
  | cons n ns ih =>
    rw [addNatParams]
    split
    · exact .inr ⟨n, rfl⟩
    · exact ih _

theorem methodSignature_cases (owner : StructDecl) (m : Source.FunctionDef) :
    (∃ s, methodSignature owner m = .ok s) ∨ ∃ r, methodSignature owner m = .error (.rejected r) := by
  rw [methodSignature]
  rcases addTypeParams_cases _ owner.params m.generics.types with ⟨g, types⟩ | ⟨n, types⟩
  · rw [types]
    rcases addNatParams_cases _ g m.generics.nats with ⟨g', nats⟩ | ⟨n, nats⟩
    · exact .inl ⟨_, except_bind_eq_ok.mpr ⟨_, rfl, except_bind_eq_ok.mpr ⟨_, nats, rfl⟩⟩⟩
    · exact .inr ⟨_, except_bind_eq_error.mpr (.inr ⟨_, rfl, except_bind_eq_error.mpr (.inl nats)⟩)⟩
  · exact .inr ⟨_, except_bind_eq_error.mpr (.inl types)⟩

theorem name_of_methodSignature {owner : StructDecl} {m : Source.FunctionDef} {s : Signature}
    (h : methodSignature owner m = .ok s) : s.name = methodName owner.name m.name := by
  obtain ⟨_, -, h⟩ := except_bind_eq_ok.mp h
  obtain ⟨_, -, h⟩ := except_bind_eq_ok.mp h
  cases h
  rfl

end Elaboration

theorem names_of_methodSignatures {owner : StructDecl} {ms : List Source.FunctionDef}
    (signed : ∀ m ∈ ms, ∃ s, methodSignature owner m = .ok s) :
    (ms.filterMap fun m => (methodSignature owner m).toOption).map (·.name) =
      ms.map fun m => methodName owner.name m.name := by
  induction ms with
  | nil => rfl
  | cons m ms ih =>
    obtain ⟨⟨s, hs⟩, others⟩ := List.forall_mem_cons.mp signed
    rw [List.filterMap_cons, hs, List.map_cons, ← ih others, ← name_of_methodSignature hs]
    rfl

/-! ## One header -/

namespace Header

variable {T : SignatureTable} {owner : StructDecl} {seen : List String}
  {ms : List Source.FunctionDef} {d : Source.Def}

theorem checkNew_cases (unfinished : T.finalized = false) (n : String) (location : Location) :
    T.Accepts n ∨ ∃ r, checkNew n location T = .error (.rejected r) T := by
  by_cases taken : (T.find? n).isSome || (T.findStruct? n).isSome
  · refine .inr ⟨⟨.alreadyDefined n, location⟩, ?_⟩
    have hget : (get : Registration SignatureTable) T = .ok T T := rfl
    refine (bind_of_ok hget).trans ?_
    rw [if_pos taken]
    rfl
  · rw [Bool.or_eq_true, not_or, Option.not_isSome_iff_eq_none, Option.not_isSome_iff_eq_none]
      at taken
    exact .inl ⟨taken.1, taken.2, unfinished⟩

/-- What the methods of a struct need to be registered, after some others. -/
structure NewMethods (T : SignatureTable) (owner : StructDecl) (seen : List String)
    (ms : List Source.FunctionDef) : Prop where
  signed : ∀ m ∈ ms, ∃ s, methodSignature owner m = .ok s
  new : ∀ n ∈ ms.map fun m => methodName owner.name m.name, T.Accepts n
  distinct : (ms.map fun m => methodName owner.name m.name).Nodup
  unseen : ∀ n ∈ ms.map fun m => methodName owner.name m.name, n ∉ seen

theorem methodSignatures_of_new (h : NewMethods T owner seen ms) :
    methodSignatures owner seen ms T =
      .ok (ms.filterMap fun m => (methodSignature owner m).toOption) T := by
  induction ms generalizing seen with
  | nil => rfl
  | cons m ms ih =>
    obtain ⟨⟨s, hs⟩, signed⟩ := List.forall_mem_cons.mp h.signed
    obtain ⟨first, new⟩ := List.forall_mem_cons.mp h.new
    obtain ⟨apart, distinct⟩ := List.nodup_cons.mp h.distinct
    obtain ⟨here, unseen⟩ := List.forall_mem_cons.mp h.unseen
    have name := name_of_methodSignature hs
    dsimp only at first apart here
    rw [← name] at first apart here
    have rest := @ih (s.name :: seen) ⟨signed, new, distinct, fun n hn => ?_⟩
    · have signature : (Analysis.ofExcept (methodSignature owner m) : Registration Signature) T =
          .ok s T := ofExcept_eq_ok.mpr ⟨hs, rfl⟩
      refine (bind_of_ok signature).trans ?_
      dsimp only
      rw [if_neg (by simpa using here)]
      refine (bind_of_ok (checkNew_of_accepts first)).trans ((bind_of_ok rest).trans ?_)
      rw [List.filterMap_cons, hs]
      rfl
    · rw [List.mem_cons, not_or]
      exact ⟨fun same => apart (same ▸ hn), unseen n hn⟩

theorem methodSignatures_cases (unfinished : T.finalized = false) (owner : StructDecl)
    (seen : List String) (ms : List Source.FunctionDef) :
    NewMethods T owner seen ms ∨ ∃ r, methodSignatures owner seen ms T = .error (.rejected r) T := by
  induction ms generalizing seen with
  | nil => exact .inl ⟨nofun, nofun, .nil, nofun⟩
  | cons m ms ih =>
    rcases methodSignature_cases owner m with ⟨s, hs⟩ | ⟨r, failed⟩
    · have signature : (Analysis.ofExcept (methodSignature owner m) : Registration Signature) T =
          .ok s T := ofExcept_eq_ok.mpr ⟨hs, rfl⟩
      have name := name_of_methodSignature hs
      rw [methodSignatures, bind_of_ok signature]
      by_cases here : seen.contains s.name
      · refine .inr ⟨⟨.methodTwice s.name, m.location⟩, ?_⟩
        dsimp only
        rw [if_pos here]
        rfl
      · dsimp only
        rw [if_neg here]
        rcases checkNew_cases unfinished s.name m.location with first | ⟨r, taken⟩
        · rcases ih (s.name :: seen) with rest | ⟨r, failed⟩
          · have unseen : ∀ n ∈ ms.map fun m => methodName owner.name m.name,
                n ≠ s.name ∧ n ∉ seen := fun n hn => by
              simpa using rest.unseen n hn
            refine .inl ⟨?_, ?_, ?_, ?_⟩
            · exact List.forall_mem_cons.mpr ⟨⟨s, hs⟩, rest.signed⟩
            · rw [name] at first
              exact List.forall_mem_cons.mpr ⟨first, rest.new⟩
            · refine List.nodup_cons.mpr ⟨fun mem => ?_, rest.distinct⟩
              exact (unseen _ mem).1 name.symm
            · rw [name] at here
              exact List.forall_mem_cons.mpr ⟨by simpa using here, fun n hn => (unseen n hn).2⟩
          · refine .inr ⟨r, ?_⟩
            exact (bind_of_ok (checkNew_of_accepts first)).trans (bind_of_error failed)
        · exact .inr ⟨r, bind_of_error taken⟩
    · refine .inr ⟨r, ?_⟩
      rw [methodSignatures, failed]
      rfl

/-- **A header that nothing stands against** is registered as a whole. -/
theorem register_of_registrable (h : d.Registrable T) :
    register d T = .ok () (T.withHeader d) := by
  cases d with
  | function f => exact register_function (h.new _ (List.mem_singleton_self _))
  | struct s =>
    obtain ⟨first, new⟩ := List.forall_mem_cons.mp h.new
    obtain ⟨apart, distinct⟩ := List.nodup_cons.mp h.distinct
    have signed : ∀ m ∈ s.methods, ∃ sig, methodSignature s.decl m = .ok sig := fun m hm =>
      h.signed (.method hm)
    have names := names_of_methodSignatures signed
    refine (bind_of_ok (checkNew_of_accepts first)).trans ?_
    have methods : NewMethods T s.decl [] s.methods :=
      ⟨signed, new, distinct, fun _ _ => List.not_mem_nil⟩
    refine (bind_of_ok (methodSignatures_of_new methods)).trans ?_
    refine (bind_of_ok (addStruct_of_accepts first)).trans ?_
    refine (forM_add (fun sig hsig => ?_) (names ▸ distinct)).trans ?_
    · have mem := names ▸ List.mem_map_of_mem (f := fun s : Signature => s.name) hsig
      exact (new _ mem).withStruct fun same => apart (same ▸ mem)
    · rw [foldl_withSignature]
      rfl

theorem registrable_or_rejected (unfinished : T.finalized = false) (d : Source.Def) :
    d.Registrable T ∨ ∃ r, register d T = .error (.rejected r) T := by
  cases d with
  | function f =>
    rcases checkNew_cases unfinished f.name f.location with new | ⟨r, taken⟩
    · exact .inl (.function new)
    · exact .inr ⟨r, bind_of_error taken⟩
  | struct s =>
    rcases checkNew_cases unfinished s.decl.name s.location with new | ⟨r, taken⟩
    · rcases methodSignatures_cases unfinished s.decl [] s.methods with methods | ⟨r, failed⟩
      · refine .inl ⟨List.forall_mem_cons.mpr ⟨new, methods.new⟩, ?_, ?_⟩
        · refine List.nodup_cons.mpr ⟨fun mem => ?_, methods.distinct⟩
          obtain ⟨m, -, same⟩ := List.mem_map.mp mem
          exact methodName_ne _ _ same
        · rintro _ _ (_ | hm)
          exact methods.signed _ hm
      · exact .inr ⟨r, (bind_of_ok (checkNew_of_accepts new)).trans (bind_of_error failed)⟩
    · exact .inr ⟨r, bind_of_error taken⟩

end Header

namespace Source.Def.Registrable

variable {T : SignatureTable} {d : Source.Def}

theorem names_signatures (h : d.Registrable T) : d.signatures.map (·.name) = d.names := by
  cases d with
  | function f => rfl
  | struct s =>
    exact congrArg (s.decl.name :: ·) (names_of_methodSignatures fun m hm => h.signed (.method hm))

theorem adds (h : d.Registrable T) : d.Adds T (T.withHeader d) := by
  have names := h.names_signatures
  have distinct : (d.signatures.map (·.name)).Nodup := names ▸ h.distinct
  refine ⟨fun n hn => ⟨(h.new n hn).signature, (h.new n hn).struct⟩, h.distinct, names,
    fun s hs => ?_, fun n hn => ?_, fun e he => ?_, fun n hn => ?_⟩
  · exact (Dict.get?_foldl_insert distinct).mpr (.inl ⟨hs, rfl⟩)
  · refine Option.ext fun s => (Dict.get?_foldl_insert distinct).trans ?_
    rw [names]
    constructor
    · rintro (⟨hs, rfl⟩ | ⟨-, found⟩)
      · exact absurd (names ▸ List.mem_map_of_mem hs) hn
      · exact found
    · exact fun found => .inr ⟨hn, found⟩
  · rw [Option.mem_def] at he
    rw [withHeader, he, findStruct?]
    exact (Dict.get?_insert ..).trans (if_pos rfl)
  · rw [withHeader, findStruct?]
    cases declared : d.struct? with
    | none => rfl
    | some e => exact (Dict.get?_insert ..).trans (if_neg (hn e declared).symm)

theorem accepts_iff (h : d.Registrable T) {n : String} (hn : n ∉ d.names) :
    (T.withHeader d).Accepts n ↔ T.Accepts n := by
  have signature := h.adds.otherSignatures n hn
  have struct : (T.withHeader d).findStruct? n = T.findStruct? n := by
    refine h.adds.otherStructs n fun e he => ?_
    rintro rfl
    cases d with
    | function => cases he
    | struct s =>
      cases he
      exact hn List.mem_cons_self
  exact ⟨fun h => ⟨signature ▸ h.signature, struct ▸ h.struct, h.unfinished⟩,
    fun h => ⟨signature.trans h.signature, struct.trans h.struct, h.unfinished⟩⟩

theorem withHeader_iff (h : d.Registrable T) {d' : Source.Def} (apart : ∀ n ∈ d'.names, n ∉ d.names) :
    d'.Registrable (T.withHeader d) ↔ d'.Registrable T :=
  ⟨fun h' => ⟨fun n hn => (h.accepts_iff (apart n hn)).mp (h'.new n hn), h'.distinct, h'.signed⟩,
    fun h' => ⟨fun n hn => (h.accepts_iff (apart n hn)).mpr (h'.new n hn), h'.distinct, h'.signed⟩⟩

end Source.Def.Registrable

/-! ## All headers -/

/-- Headers are registered one after the other, and those that are rejected leave no trace. -/
inductive Registers : SignatureTable → List (Source.Def × Option Rejection) → SignatureTable → Prop
  | nil {T : SignatureTable} : Registers T [] T
  | accepted {T T' : SignatureTable} {d : Source.Def}
    {headers : List (Source.Def × Option Rejection)} :
    d.Registrable T → Registers (T.withHeader d) headers T' → Registers T ((d, none) :: headers) T'
  | rejected {T T' : SignatureTable} {d : Source.Def} {r : Rejection}
    {headers : List (Source.Def × Option Rejection)} :
    Header.register d T = .error (.rejected r) T → Registers T headers T' →
    Registers T ((d, some r) :: headers) T'

/-- The definitions whose headers have been registered. -/
def acceptedDefs (headers : List (Source.Def × Option Rejection)) : List Source.Def :=
  (headers.filter (·.2.isNone)).map (·.1)

variable {T T' : SignatureTable} {ds : List Source.Def} {d : Source.Def}
  {headers : List (Source.Def × Option Rejection)}

theorem registerHeaders_of_rejected {r : Rejection}
    (hd : Header.register d T = .error (.rejected r) T)
    (h : registerHeaders T ds = .ok (headers, T')) :
    registerHeaders T (d :: ds) = .ok ((d, some r) :: headers, T') := by
  rw [registerHeaders, hd]
  exact except_bind_eq_ok.mpr ⟨_, h, rfl⟩

/-- **Registering headers never fails**: each of them is registered or rejected. -/
theorem exists_registerHeaders (unfinished : T.finalized = false) (ds : List Source.Def) :
    ∃ headers T', registerHeaders T ds = .ok (headers, T') ∧ Registers T headers T' ∧
      headers.map (·.1) = ds ∧ T'.finalized = false := by
  induction ds generalizing T with
  | nil => exact ⟨[], T, rfl, .nil, rfl, unfinished⟩
  | cons d ds ih =>
    rcases Header.registrable_or_rejected unfinished d with registrable | ⟨r, rejected⟩
    · obtain ⟨headers, T', rest, registers, same, unfinished'⟩ := @ih (T.withHeader d) unfinished
      refine ⟨(d, none) :: headers, T', ?_, .accepted registrable registers, by simp [same],
        unfinished'⟩
      exact registerHeaders_of_ok (Header.register_of_registrable registrable) rest
    · obtain ⟨headers, T', rest, registers, same, unfinished'⟩ := ih unfinished
      refine ⟨(d, some r) :: headers, T', ?_, .rejected rejected registers, by simp [same],
        unfinished'⟩
      exact registerHeaders_of_rejected rejected rest

theorem registers_of_registerHeaders (unfinished : T.finalized = false)
    (h : registerHeaders T ds = .ok (headers, T')) :
    Registers T headers T' ∧ headers.map (·.1) = ds := by
  obtain ⟨headers', T'', run, registers, same, -⟩ := exists_registerHeaders unfinished ds
  cases run.symm.trans h
  exact ⟨registers, same⟩

theorem registerHeaders_append {T₁ T₂ : SignatureTable} {ds' : List Source.Def}
    {headers' : List (Source.Def × Option Rejection)}
    (h : registerHeaders T ds = .ok (headers, T₁))
    (h' : registerHeaders T₁ ds' = .ok (headers', T₂)) :
    registerHeaders T (ds ++ ds') = .ok (headers ++ headers', T₂) := by
  induction ds generalizing T headers with
  | nil =>
    cases h
    exact h'
  | cons d ds ih =>
    rw [List.cons_append, registerHeaders]
    rw [registerHeaders] at h
    split at h
    · obtain ⟨⟨rest, T₃⟩, run, h⟩ := except_bind_eq_ok.mp h
      cases h
      exact except_bind_eq_ok.mpr ⟨_, ih run, rfl⟩
    · obtain ⟨⟨rest, T₃⟩, run, h⟩ := except_bind_eq_ok.mp h
      cases h
      exact except_bind_eq_ok.mpr ⟨_, ih run, rfl⟩
    · cases h

namespace Registers

theorem find?_of_find? (h : Registers T headers T') {n : String} {s : Signature}
    (found : T.find? n = some s) : T'.find? n = some s := by
  induction h with
  | nil => exact found
  | @accepted T _ d _ registrable _ ih =>
    refine ih ?_
    rw [registrable.adds.otherSignatures]
    · exact found
    · intro declared
      cases (registrable.adds.new n declared).1.symm.trans found
  | rejected _ _ ih => exact ih found

theorem find? (h : Registers T headers T') (hd : d ∈ acceptedDefs headers) {s : Signature}
    (hs : s ∈ d.signatures) : T'.find? s.name = some s := by
  induction h with
  | nil => cases hd
  | accepted registrable rest ih =>
    rcases List.mem_cons.mp hd with rfl | hd
    · exact rest.find?_of_find? (registrable.adds.signature s hs)
    · exact ih hd
  | rejected _ _ ih => exact ih hd

/-- **No name is declared by two headers that have been registered**, and none of their names was
    there before. -/
theorem distinct (h : Registers T headers T') :
    ((acceptedDefs headers).flatMap (·.names)).Nodup ∧
      ∀ n ∈ (acceptedDefs headers).flatMap (·.names), T.find? n = none := by
  induction h with
  | nil => exact ⟨.nil, nofun⟩
  | rejected _ _ ih => exact ih
  | @accepted T _ d headers registrable _ ih =>
    obtain ⟨distinct, new⟩ := ih
    have adds := registrable.adds
    have known : ∀ n ∈ d.names, ∃ s, (T.withHeader d).find? n = some s := by
      intro n hn
      rw [← adds.names] at hn
      obtain ⟨s, hs, rfl⟩ := List.mem_map.mp hn
      exact ⟨s, adds.signature s hs⟩
    change (d.names ++ (acceptedDefs headers).flatMap (·.names)).Nodup ∧
      ∀ n ∈ d.names ++ (acceptedDefs headers).flatMap (·.names), T.find? n = none
    -- The names of the header are in the table when the others are registered.
    have apart : ∀ n ∈ (acceptedDefs headers).flatMap (·.names), n ∉ d.names := by
      intro n hn declared
      obtain ⟨s, found⟩ := known n declared
      cases (new n hn).symm.trans found
    constructor
    · refine List.nodup_append.mpr ⟨adds.distinct, distinct, ?_⟩
      rintro n declared _ hn rfl
      exact apart n hn declared
    · refine List.forall_mem_append.mpr ⟨fun n hn => (adds.new n hn).1, fun n hn => ?_⟩
      rw [← adds.otherSignatures n (apart n hn)]
      exact new n hn

theorem registrable (h : Registers T headers T') : ∀ d ∈ acceptedDefs headers, d.Registrable T := by
  induction h with
  | nil => exact nofun
  | rejected _ _ ih => exact ih
  | @accepted T _ d headers registrable rest ih =>
    refine List.forall_mem_cons.mpr ⟨registrable, fun d' hd' => ?_⟩
    have distinct := (Registers.accepted registrable rest).distinct.1
    refine (registrable.withHeader_iff fun n hn declared => ?_).mp (ih d' hd')
    exact (List.nodup_append.mp distinct).2.2 n declared n (List.mem_flatMap.mpr ⟨d', hd', hn⟩) rfl

end Registers

theorem registerHeaders_of_registrable (registrable : ∀ d ∈ ds, d.Registrable T)
    (distinct : (ds.flatMap (·.names)).Nodup) :
    registerHeaders T ds = .ok (ds.map (·, none), ds.foldl withHeader T) := by
  induction ds generalizing T with
  | nil => rfl
  | cons d ds ih =>
    obtain ⟨first, others⟩ := List.forall_mem_cons.mp registrable
    rw [List.flatMap_cons, List.nodup_append] at distinct
    obtain ⟨-, distinct, apart⟩ := distinct
    refine registerHeaders_of_ok (Header.register_of_registrable first) (ih (fun d' hd' => ?_) distinct)
    refine (first.withHeader_iff fun n hn declared => ?_).mpr (others d' hd')
    exact apart n declared n (List.mem_flatMap.mpr ⟨d', hd', hn⟩) rfl

end QuantumStatics
