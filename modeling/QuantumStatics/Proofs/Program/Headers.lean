/-
  The table of a program.

  The definitions of a program are checked against one table, which has the prelude and what the
  headers of the definitions declare.  The headers of definitions that are rejected later are among
  them.
-/
import Mathlib.Data.List.Forall2
import QuantumStatics.Program.Checked
import QuantumStatics.Proofs.Signature.Entries

namespace QuantumStatics

variable {d : Source.Def}

/-- The signatures that a definition declares: its own, or those of its constructor and its
    methods. -/
def Source.Def.signatures : Source.Def → List Signature
  | .function f => [Elaboration.functionSignature f]
  | .struct s => s.decl.constructorSignature s.location ::
      s.methods.filterMap fun m => (Elaboration.methodSignature s.decl m).toOption

/-- A definition declares a function, or a method of its struct. -/
inductive Source.Def.Declares : Source.Def → Option StructDecl → Source.FunctionDef → Prop
  | function {f : Source.FunctionDef} : Declares (.function f) none f
  | method {s : Source.StructDef} {m : Source.FunctionDef} (mem : m ∈ s.methods) :
    Declares (.struct s) (some s.decl) m

theorem Source.Def.Declares.mem_signatures {owner : Option StructDecl} {f : Source.FunctionDef}
    {s : Signature} (h : d.Declares owner f) (hs : Elaboration.signatureOf owner f = .ok s) :
    s ∈ d.signatures := by
  cases h with
  | function =>
    cases hs
    exact List.mem_singleton_self _
  | method hm =>
    exact List.mem_cons_of_mem _ (List.mem_filterMap.mpr ⟨f, hm, congrArg Except.toOption hs⟩)

/-! ## Headers -/

namespace Header

open SignatureTable

variable {P : SignatureTable → Prop} {T T' : SignatureTable} {n : String} {f : Source.FunctionDef}
  {sigs : List Signature} {s : Signature}

theorem checkNew_preserves (name : String) (location : Location) :
    Preserves P (checkNew name location) := by
  refine .get fun T _ => ?_
  split
  · exact .reject
  · exact .pure

theorem checkNew_of_accepts {location : Location} (h : T.Accepts n) :
    checkNew n location T = .ok () T := by
  have hget : (get : Registration SignatureTable) T = .ok T T := rfl
  refine (bind_of_ok hget).trans ?_
  rw [h.signature, h.struct]
  rfl

theorem register_function (h : T.Accepts f.name) :
    register (.function f) T = .ok () (T.withSignature (Elaboration.functionSignature f)) :=
  (bind_of_ok (checkNew_of_accepts h)).trans (add_of_accepts h)

theorem register_struct {s : Source.StructDef} (h : T.Accepts s.decl.name) (hm : s.methods = []) :
    register (.struct s) T = .ok () (T.withStruct s.decl s.location) := by
  refine (bind_of_ok (checkNew_of_accepts h)).trans ?_
  rw [hm]
  exact bind_of_ok (addStruct_of_accepts h)

theorem methodSignatures_preserves (owner : StructDecl) (seen : List String)
    (ms : List Source.FunctionDef) : Preserves P (methodSignatures owner seen ms) := by
  induction ms generalizing seen with
  | nil => exact .pure
  | cons m ms ih =>
    refine Preserves.ofExcept.bind fun s => ?_
    dsimp only
    split
    · exact Preserves.reject.bind fun _ =>
        (checkNew_preserves _ _).bind fun _ => (ih _).bind fun _ => .pure
    · exact (checkNew_preserves _ _).bind fun _ => (ih _).bind fun _ => .pure

theorem methodSignatures_eq_ok {owner : StructDecl} {seen : List String}
    {ms : List Source.FunctionDef} (h : methodSignatures owner seen ms T = .ok sigs T') :
    sigs = ms.filterMap fun m => (Elaboration.methodSignature owner m).toOption := by
  induction ms generalizing seen T T' sigs with
  | nil =>
    obtain ⟨rfl, -⟩ := pure_eq_ok.mp h
    rfl
  | cons m ms ih =>
    obtain ⟨s, _, hs, h⟩ := bind_eq_ok.mp h
    obtain ⟨hs, -⟩ := ofExcept_eq_ok.mp hs
    dsimp only at h
    split at h
    · obtain ⟨_, _, h, -⟩ := bind_eq_ok.mp h
      exact absurd h reject_ne_ok
    · obtain ⟨_, _, -, h⟩ := bind_eq_ok.mp h
      obtain ⟨rest, _, hrest, h⟩ := bind_eq_ok.mp h
      obtain ⟨rfl, -⟩ := pure_eq_ok.mp h
      rw [List.filterMap_cons, hs, ih hrest]
      rfl

/-- **Registering a header** keeps what registering its signatures and its struct keeps. -/
theorem register_preserves (add : ∀ s ∈ d.signatures, Preserves P (add s))
    (addStruct : ∀ s, d = .struct s → Preserves P (addStruct s.decl s.location)) :
    Preserves P (register d) := by
  cases d with
  | function f => exact (checkNew_preserves _ _).bind fun _ => add _ List.mem_cons_self
  | struct s =>
    refine (checkNew_preserves _ _).bind fun _ =>
      (methodSignatures_preserves s.decl [] s.methods).bindOf fun sigs T T' h =>
        (addStruct s rfl).bind fun _ => .forM fun sig hsig => add sig ?_
    rw [methodSignatures_eq_ok h] at hsig
    exact List.mem_cons_of_mem _ hsig

theorem register_keeps (d : Source.Def) : Preserves (fun T => T.find? n = some s) (register d) :=
  register_preserves (fun s' _ => add_keeps s') fun s' _ => addStruct_keeps s'.decl s'.location

theorem find?_of_forM_add (h : sigs.forM add T = .ok () T') :
    ∀ s ∈ sigs, ∃ s', T'.find? s.name = some s' ∧ s'.generics = s.generics := by
  induction sigs generalizing T with
  | nil => exact nofun
  | cons s sigs ih =>
    obtain ⟨_, T₁, hs, h⟩ := bind_eq_ok.mp h
    refine List.forall_mem_cons.mpr ⟨?_, ih h⟩
    obtain ⟨s', found, same⟩ := find?_of_add hs
    exact ⟨s', (Preserves.forM fun s'' _ => add_keeps s'').of_ok found h, same⟩

theorem find?_of_register {owner : Option StructDecl} (h : register d T = .ok () T')
    (hf : d.Declares owner f) (hs : Elaboration.signatureOf owner f = .ok s) :
    ∃ s', T'.find? s.name = some s' ∧ s'.generics = s.generics := by
  cases hf with
  | function =>
    cases hs
    obtain ⟨_, _, -, h⟩ := bind_eq_ok.mp h
    exact find?_of_add h
  | method hm =>
    obtain ⟨_, _, -, h⟩ := bind_eq_ok.mp h
    obtain ⟨sigs, _, hsigs, h⟩ := bind_eq_ok.mp h
    obtain ⟨_, _, -, h⟩ := bind_eq_ok.mp h
    refine find?_of_forM_add h s ?_
    rw [methodSignatures_eq_ok hsigs]
    exact List.mem_filterMap.mpr ⟨f, hm, congrArg Except.toOption hs⟩

end Header

open SignatureTable

variable {P : SignatureTable → Prop} {T T' : SignatureTable} {ds : List Source.Def}
  {headers : List (Source.Def × Option Rejection)}

theorem registerHeaders_cons (h : registerHeaders T (d :: ds) = .ok (headers, T')) :
    ∃ outcome rest, headers = (d, outcome) :: rest ∧
      registerHeaders (after (Header.register d) T) ds = .ok (rest, T') ∧
      (outcome = none → Header.register d T = .ok () (after (Header.register d) T)) := by
  rw [registerHeaders] at h
  unfold after
  split at h
  · next hd =>
    obtain ⟨⟨rest, _⟩, hrest, h⟩ := except_bind_eq_ok.mp h
    cases h
    simp only [hd]
    exact ⟨none, rest, rfl, hrest, fun _ => trivial⟩
  · next r _ hd =>
    obtain ⟨⟨rest, _⟩, hrest, h⟩ := except_bind_eq_ok.mp h
    cases h
    simp only [hd]
    exact ⟨some r, rest, rfl, hrest, nofun⟩
  · cases h

theorem registerHeaders_of_ok {T₁ : SignatureTable} (hd : Header.register d T = .ok () T₁)
    (h : registerHeaders T₁ ds = .ok (headers, T')) :
    registerHeaders T (d :: ds) = .ok ((d, none) :: headers, T') := by
  rw [registerHeaders, hd]
  exact except_bind_eq_ok.mpr ⟨_, h, rfl⟩

theorem registerHeaders_structs (ds : List StructDecl) (new : ∀ d ∈ ds, T.Accepts d.name)
    (distinct : (ds.map (·.name)).Nodup) :
    registerHeaders T (ds.map fun d => .struct ⟨{}, d, []⟩) =
      .ok (ds.map fun d => (.struct ⟨{}, d, []⟩, none),
        ds.foldl (fun T d => T.withStruct d {}) T) := by
  induction ds generalizing T with
  | nil => rfl
  | cons d ds ih =>
    obtain ⟨first, others⟩ := List.forall_mem_cons.mp new
    obtain ⟨apart, distinct⟩ := List.nodup_cons.mp distinct
    refine registerHeaders_of_ok (Header.register_struct first rfl)
      (ih (fun d' hd' => ?_) distinct)
    exact (others d' hd').withStruct fun same => apart (List.mem_map.mpr ⟨d', hd', same⟩)

theorem registerHeaders_functions (fs : List Source.FunctionDef)
    (new : ∀ f ∈ fs, T.Accepts f.name) (distinct : (fs.map (·.name)).Nodup) :
    registerHeaders T (fs.map .function) = .ok (fs.map fun f => (.function f, none),
      fs.foldl (fun T f => T.withSignature (Elaboration.functionSignature f)) T) := by
  induction fs generalizing T with
  | nil => rfl
  | cons f fs ih =>
    obtain ⟨first, others⟩ := List.forall_mem_cons.mp new
    obtain ⟨apart, distinct⟩ := List.nodup_cons.mp distinct
    refine registerHeaders_of_ok (Header.register_function first) (ih (fun f' hf' => ?_) distinct)
    exact (others f' hf').withSignature fun same => apart (List.mem_map.mpr ⟨f', hf', same⟩)

theorem findStruct?_functions (fs : List Source.FunctionDef) (n : String) :
    (fs.foldl (fun T f => T.withSignature (Elaboration.functionSignature f)) T).findStruct? n =
      T.findStruct? n := by
  induction fs generalizing T with
  | nil => rfl
  | cons f fs ih => exact ih

theorem preserves_registerHeaders (keep : ∀ d ∈ ds, Preserves P (Header.register d)) (hT : P T)
    (h : registerHeaders T ds = .ok (headers, T')) : P T' := by
  induction ds generalizing T headers with
  | nil =>
    cases h
    exact hT
  | cons d ds ih =>
    obtain ⟨first, others⟩ := List.forall_mem_cons.mp keep
    obtain ⟨_, _, -, hrest, -⟩ := registerHeaders_cons h
    exact ih others (first T hT) hrest

theorem exists_header (h : registerHeaders T ds = .ok (headers, T')) (hd : d ∈ ds) :
    ∃ outcome, (d, outcome) ∈ headers := by
  induction ds generalizing T headers with
  | nil => cases hd
  | cons d' ds ih =>
    obtain ⟨outcome', rest, rfl, hrest, -⟩ := registerHeaders_cons h
    rcases List.mem_cons.mp hd with rfl | hd
    · exact ⟨outcome', List.mem_cons_self⟩
    · obtain ⟨outcome, mem⟩ := ih hrest hd
      exact ⟨outcome, List.mem_cons_of_mem _ mem⟩

theorem find?_of_mem_headers (h : registerHeaders T ds = .ok (headers, T'))
    {outcome : Option Rejection} (hd : (d, outcome) ∈ headers) :
    d ∈ ds ∧ (outcome = none → ∀ {owner f s}, d.Declares owner f →
      Elaboration.signatureOf owner f = .ok s →
      ∃ s', T'.find? s.name = some s' ∧ s'.generics = s.generics) := by
  induction ds generalizing T headers with
  | nil =>
    cases h
    cases hd
  | cons d' ds ih =>
    obtain ⟨outcome', rest, rfl, hrest, accepted⟩ := registerHeaders_cons h
    rcases List.mem_cons.mp hd with heq | hd
    · cases heq
      refine ⟨List.mem_cons_self, fun hnone owner f s hf hs => ?_⟩
      obtain ⟨s', found, same⟩ := Header.find?_of_register (accepted hnone) hf hs
      exact ⟨s', preserves_registerHeaders (fun d _ => Header.register_keeps d) found hrest, same⟩
    · obtain ⟨mem, found⟩ := ih hrest hd
      exact ⟨List.mem_cons_of_mem d' mem, found⟩

/-! ## Programs -/

theorem Prelude.table_eq_after : Prelude.table = SignatureTable.after Prelude.install {} := by
  unfold Prelude.table SignatureTable.after
  cases Prelude.install {} <;> rfl

/-- What is in a table is from the prelude or from the headers of some definitions. -/
structure SignatureTable.From (defs : List Source.Def) (T : SignatureTable) : Prop where
  signature {n : String} {s : Signature} : T.find? n = some s →
    s ∈ Prelude.signatures ∨ ∃ d ∈ defs, s ∈ d.signatures
  struct {n : String} {d : StructDecl} : T.findStruct? n = some d →
    d.name = n ∧ ∃ s, .struct s ∈ defs ∧ s.decl = d

theorem exists_of_mapM_keeping {α β σ : Type} {f : α → Analysis σ β} {Q : σ → Prop} {l : List α}
    {bs : List β} {s s' : σ} (hs : Q s)
    (keeps : ∀ a ∈ l, ∀ {s b s'}, Q s → f a s = .ok b s' → Q s')
    (h : l.mapM f s = .ok bs s') {b : β} (hb : b ∈ bs) :
    ∃ a ∈ l, ∃ s₁ s₂, Q s₁ ∧ f a s₁ = .ok b s₂ := by
  induction l generalizing s bs with
  | nil =>
    rw [List.mapM_nil] at h
    obtain ⟨rfl, -⟩ := pure_eq_ok.mp h
    cases hb
  | cons a l ih =>
    obtain ⟨first, others⟩ := List.forall_mem_cons.mp keeps
    rw [List.mapM_cons] at h
    obtain ⟨b₁, s₁, ha, h⟩ := bind_eq_ok.mp h
    obtain ⟨rest, s₂, hrest, h⟩ := bind_eq_ok.mp h
    obtain ⟨rfl, rfl⟩ := pure_eq_ok.mp h
    rcases List.mem_cons.mp hb with rfl | hb
    · exact ⟨a, List.mem_cons_self, s, s₁, hs, ha⟩
    · obtain ⟨a', ha', run⟩ := ih (first hs ha) others hrest hb
      exact ⟨a', List.mem_cons_of_mem a ha', run⟩

theorem Elaboration.exists_of_elaborate_keeping {Q : CheckerMemory → Prop} {T : SignatureTable}
    {memory memory' : CheckerMemory} {fs : List Typed.Function} {f : Typed.Function}
    (start : Q memory) (keeps : ∀ {owner fd f memory memory'}, d.Declares owner fd → Q memory →
    checkFunction T owner fd memory = .ok f memory' → Q memory')
    (h : d.elaborate T memory = .ok fs memory') (hf : f ∈ fs) :
    ∃ owner fd memory₁ memory₂, d.Declares owner fd ∧ Q memory₁ ∧
      checkFunction T owner fd memory₁ = .ok f memory₂ := by
  cases d with
  | function fd =>
    obtain ⟨_, _, checked, h⟩ := bind_eq_ok.mp h
    obtain ⟨rfl, rfl⟩ := pure_eq_ok.mp h
    cases List.mem_singleton.mp hf
    exact ⟨none, fd, _, _, .function, start, checked⟩
  | struct s =>
    obtain ⟨_, _, hg, h⟩ := bind_eq_ok.mp h
    obtain ⟨-, rfl⟩ := ofExcept_eq_ok.mp hg
    obtain ⟨_, _, hfields, h⟩ := bind_eq_ok.mp h
    obtain ⟨-, rfl⟩ := ofExcept_eq_ok.mp hfields
    obtain ⟨m, hm, memory₁, memory₂, hQ, checked⟩ :=
      exists_of_mapM_keeping start (fun m hm => keeps (.method hm)) h hf
    exact ⟨some s.decl, m, memory₁, memory₂, .method hm, hQ, checked⟩

theorem except_mapM_eq_ok {α β ε : Type} {f : α → Except ε β} {l : List α} {bs : List β} :
    l.mapM f = .ok bs ↔ List.Forall₂ (fun a b => f a = .ok b) l bs := by
  induction l generalizing bs with
  | nil => simp [pure, Except.pure, eq_comm]
  | cons a l ih =>
    rw [List.mapM_cons, except_bind_eq_ok, List.forall₂_cons_left_iff]
    simp only [except_bind_eq_ok, ih, except_pure_eq_ok]
    grind

theorem exists_of_forall₂ {α β : Type} {R : α → β → Prop} {l : List α} {l' : List β}
    (h : List.Forall₂ R l l') : (∀ a ∈ l, ∃ b ∈ l', R a b) ∧ ∀ b ∈ l', ∃ a ∈ l, R a b := by
  induction h with
  | nil => exact ⟨nofun, nofun⟩
  | cons first _ ih => grind

namespace CheckedProgram

variable {options : CheckOptions} {defs : List Source.Def} {p : CheckedProgram}

/-- The verdict on a definition, after its header was registered or rejected. -/
def Judged (T : SignatureTable) (options : CheckOptions) (d : Source.Def) :
    Option Rejection → Verdict → Prop
  | some r, v => v = .rejected r []
  | none, v => d.check T options = .ok v

/-- **How a program is checked**: the headers first, and then the definitions, one by one. -/
theorem check_eq_ok_iff : check options defs = .ok p ↔
    ∃ headers T, registerHeaders Prelude.table defs = .ok (headers, T) ∧ p.table = T.finalize ∧
      List.Forall₂ (fun y x => x.1 = y.1 ∧ Judged p.table options y.1 y.2 x.2) headers
        p.verdicts := by
  have rejected : ∀ (T : SignatureTable) (d : Source.Def) (r : Rejection) (x : Source.Def × Verdict),
      (.ok (d, .rejected r []) : Except Defect _) = .ok x ↔
        x.1 = d ∧ Judged T options d (some r) x.2 := by
    rintro T d r ⟨d', v⟩
    simp only [Except.ok.injEq, Prod.mk.injEq, Judged]
    grind
  have checked : ∀ (T : SignatureTable) (d : Source.Def) (x : Source.Def × Verdict),
      (do return (d, ← d.check T options) : Except Defect _) = .ok x ↔
        x.1 = d ∧ Judged T options d none x.2 := by
    rintro T d ⟨d', v⟩
    simp only [except_bind_eq_ok, except_pure_eq_ok, Prod.mk.injEq, Judged]
    grind
  constructor
  · intro h
    obtain ⟨⟨headers, T⟩, hheaders, h⟩ := except_bind_eq_ok.mp h
    obtain ⟨verdicts, hverdicts, h⟩ := except_bind_eq_ok.mp h
    cases h
    refine ⟨headers, T, hheaders, rfl, (except_mapM_eq_ok.mp hverdicts).imp ?_⟩
    rintro ⟨d, _ | r⟩ x h
    · exact (checked _ d x).mp h
    · exact (rejected _ d r x).mp h
  · rintro ⟨headers, T, hheaders, htable, hverdicts⟩
    obtain ⟨table, verdicts⟩ := p
    subst htable
    refine except_bind_eq_ok.mpr ⟨_, hheaders, except_bind_eq_ok.mpr ⟨verdicts, ?_, rfl⟩⟩
    refine except_mapM_eq_ok.mpr (hverdicts.imp ?_)
    rintro ⟨d, _ | r⟩ x h
    · exact (checked _ d x).mpr h
    · exact (rejected _ d r x).mpr h

theorem check_eq_ok (h : check options defs = .ok p) :
    ∃ headers T, registerHeaders Prelude.table defs = .ok (headers, T) ∧ p.table = T.finalize ∧
      (∀ x ∈ p.verdicts, ∃ outcome, (x.1, outcome) ∈ headers ∧
        Judged p.table options x.1 outcome x.2) ∧
      ∀ y ∈ headers, ∃ v, (y.1, v) ∈ p.verdicts ∧ Judged p.table options y.1 y.2 v := by
  obtain ⟨headers, T, hheaders, htable, judged⟩ := check_eq_ok_iff.mp h
  obtain ⟨forward, backward⟩ := exists_of_forall₂ judged
  refine ⟨headers, T, hheaders, htable, fun x hx => ?_, fun y hy => ?_⟩
  · obtain ⟨⟨d, outcome⟩, mem, same, verdict⟩ := backward x hx
    exact ⟨outcome, same ▸ mem, same ▸ verdict⟩
  · obtain ⟨⟨d, v⟩, mem, same, verdict⟩ := forward y hy
    obtain rfl : d = y.1 := same
    exact ⟨v, mem, verdict⟩

/-- **What registering the prelude and the headers establishes** holds of the table of a program. -/
theorem table_of_check (h : check options defs = .ok p) (empty : P {})
    (add : ∀ s, s ∈ Prelude.signatures ∨ (∃ d ∈ defs, s ∈ d.signatures) → Preserves P (add s))
    (addStruct : ∀ s, .struct s ∈ defs → Preserves P (addStruct s.decl s.location))
    (finalize : ∀ T, P T → P T.finalize) : P p.table := by
  obtain ⟨headers, T, hheaders, htable, -, -⟩ := check_eq_ok h
  rw [htable]
  refine finalize T (preserves_registerHeaders (fun d hd => ?_) ?_ hheaders)
  · exact Header.register_preserves (fun s hs => add s (.inr ⟨d, hd, hs⟩))
      fun s hs => addStruct s (hs ▸ hd)
  · have prelude : Preserves P Prelude.install := .forM fun s hs => add s (.inl hs)
    exact Prelude.table_eq_after ▸ prelude {} empty

theorem registered_of_check (h : check options defs = .ok p) : p.table.Registered :=
  table_of_check h .empty (fun s _ _ hT => .add s hT) (fun _ _ _ hT => .addStruct _ _ hT)
    fun _ hT => .finalize hT

/-- **What is in the table of a program** is from the prelude or from a header. -/
theorem from_check (h : check options defs = .ok p) : p.table.From defs := by
  have add : ∀ s, s ∈ Prelude.signatures ∨ (∃ d ∈ defs, s ∈ d.signatures) →
      Preserves (·.From defs) (add s) := by
    refine fun s hs => add_preserves fun T hT free => ⟨fun {n s'} hs' => ?_, hT.struct⟩
    rw [SignatureTable.find?, Dict.get?_insert] at hs'
    split at hs'
    · cases hs'
      exact hs
    · exact hT.signature hs'
  refine table_of_check h ⟨fun h => (by cases h), fun h => (by cases h)⟩ add (fun s hs => ?_)
    fun T hT => ⟨hT.signature, hT.struct⟩
  refine addStruct_preserves (add _ (.inr ⟨_, hs, List.mem_cons_self⟩)) fun T hT =>
    ⟨hT.signature, fun {n d} hd => ?_⟩
  rw [findStruct?, Dict.get?_insert] at hd
  split at hd
  · next hn =>
    cases hd
    exact ⟨hn.symm, s, hs, rfl⟩
  · exact hT.struct hd

theorem elaborate_of_check {T : SignatureTable} {v : Verdict} (h : d.check T options = .ok v) :
    v.isRejected ∨ ∃ memory, d.elaborate T {} = .ok v.functions memory := by
  unfold Source.Def.check at h
  split at h
  · cases h
  · cases h
    exact .inl rfl
  · next fs memory elaborated =>
    split at h
    · split at h
      all_goals cases h
      · exact .inr ⟨memory, elaborated⟩
      · exact .inl rfl
    · cases h
      exact .inr ⟨memory, elaborated⟩

theorem functions_of_isRejected {v : Verdict} (h : v.isRejected) : v.functions = [] := by
  cases v with
  | accepted => cases h
  | rejected => rfl

/-- **An accepted function has been checked against the table**, in which its header is.  What
    checking functions keeps of the memory holds of the memory that it has been checked with. -/
theorem mem_functions {Q : Elaboration.CheckerMemory → Prop} (h : check options defs = .ok p)
    {f : Typed.Function} (hf : f ∈ p.functions) (start : Q {})
    (keeps : ∀ d ∈ defs, ∀ {owner fd f memory memory'}, d.Declares owner fd → Q memory →
      Elaboration.checkFunction p.table owner fd memory = .ok f memory' → Q memory') :
    ∃ d ∈ defs, ∃ owner fd s memory memory', d.Declares owner fd ∧
      Elaboration.signatureOf owner fd = .ok s ∧
      (∃ s', p.table.find? s.name = some s' ∧ s'.generics = s.generics) ∧ Q memory ∧
      Elaboration.checkFunction p.table owner fd memory = .ok f memory' := by
  obtain ⟨headers, T, hheaders, htable, hverdicts, -⟩ := check_eq_ok h
  obtain ⟨⟨d, v⟩, hv, hf⟩ := List.mem_flatMap.mp hf
  obtain ⟨outcome, hd, verdict⟩ := hverdicts _ hv
  cases outcome with
  | some r =>
    cases verdict
    cases hf
  | none =>
    obtain ⟨mem, found⟩ := find?_of_mem_headers hheaders hd
    have accepted : ¬v.isRejected := fun rejected => by
      dsimp only at hf
      rw [functions_of_isRejected rejected] at hf
      cases hf
    obtain ⟨_, elaborated⟩ := (elaborate_of_check verdict).resolve_left accepted
    obtain ⟨owner, fd, memory, memory', declares, hQ, checked⟩ :=
      Elaboration.exists_of_elaborate_keeping start (keeps d mem) elaborated hf
    obtain ⟨s, _, hs, -⟩ := bind_eq_ok.mp checked
    obtain ⟨hs, -⟩ := ofExcept_eq_ok.mp hs
    have header := found rfl declares hs
    exact ⟨d, mem, owner, fd, s, memory, memory', declares, hs, by rwa [htable], hQ, checked⟩

theorem elaborate_of_ok (h : check options defs = .ok p) (ok : p.ok) (hd : d ∈ defs) :
    ∃ fs memory, d.elaborate p.table {} = .ok fs memory := by
  obtain ⟨headers, T, hheaders, -, -, judged⟩ := check_eq_ok h
  obtain ⟨outcome, mem⟩ := exists_header hheaders hd
  obtain ⟨v, hv, verdict⟩ := judged _ mem
  -- A rejection is told as an error.
  have accepted : ∀ r warnings, v ≠ .rejected r warnings := by
    rintro r warnings rfl
    have told := List.all_eq_true.mp ok (r.toDiagnostic d.name)
      (List.mem_flatMap.mpr ⟨_, hv, List.mem_append_right _ (List.mem_singleton_self _)⟩)
    simp [Rejection.toDiagnostic] at told
  cases outcome with
  | some r => exact absurd verdict (accepted r [])
  | none =>
    cases v with
    | rejected r warnings => exact absurd rfl (accepted r warnings)
    | accepted fs warnings =>
      obtain ⟨memory, elaborated⟩ := (elaborate_of_check verdict).resolve_left nofun
      exact ⟨fs, memory, elaborated⟩

end CheckedProgram

end QuantumStatics
