/-
  Definitions do not disturb each other.

  A definition is checked against the table of all headers and nothing else.  The headers say nothing
  about bodies, and the table does not depend on their order.  So the verdict on a definition depends
  neither on where it stands nor on the bodies of the others.

  There is one exception: where the check of a body runs into a defect, there is no verdict on any
  definition.  The type of a value that is dropped may be left open, and then it has no class.

  * `Source.Def.SameHeader.register_eq`: bodies do not matter for headers;
  * `CheckedProgram.checking_is_isolated`: what reordering definitions and replacing a body change;
  * `CheckedProgram.empty_array_leaves_no_verdict`: a body that leaves the others without verdicts.
-/
import QuantumStatics.Proofs.Evaluation
import QuantumStatics.Proofs.Program.Registration

namespace QuantumStatics

open SignatureTable Elaboration

/-! ## The order of headers -/

namespace SignatureTable

variable {ds ds' : List Source.Def}

theorem foldl_withHeader (ds : List Source.Def) (T : SignatureTable) :
    ds.foldl withHeader T =
      { T with
        signatures := (ds.flatMap (·.signatures)).foldl (fun D s => D.insert s.name s) T.signatures
        structs := (ds.filterMap (·.struct?)).foldl (fun D e => D.insert e.name e) T.structs } := by
  induction ds generalizing T with
  | nil => rfl
  | cons d ds ih =>
    rw [List.foldl_cons, ih, List.flatMap_cons, List.foldl_append, List.filterMap_cons]
    cases declared : d.struct? <;> simp [withHeader, declared]

theorem names_flatMap_signatures {T : SignatureTable} (h : ∀ d ∈ ds, d.Registrable T) :
    (ds.flatMap (·.signatures)).map (·.name) = ds.flatMap (·.names) := by
  rw [List.map_flatMap]
  exact List.flatMap_congr fun d hd => (h d hd).names_signatures

theorem names_filterMap_struct? (ds : List Source.Def) :
    ((ds.filterMap (·.struct?)).map (·.name)).Sublist (ds.flatMap (·.names)) := by
  induction ds with
  | nil => exact .slnil
  | cons d ds ih =>
    rw [List.flatMap_cons, List.filterMap_cons]
    cases d with
    | function f => exact ih.trans (List.sublist_append_right ..)
    | struct s => exact (ih.trans (List.sublist_append_right ..)).cons_cons s.decl.name

/-- **The order of headers does not matter**, if they declare no name twice. -/
theorem foldl_withHeader_perm {T : SignatureTable} (perm : ds.Perm ds')
    (registrable : ∀ d ∈ ds, d.Registrable T) (distinct : (ds.flatMap (·.names)).Nodup) :
    ds.foldl withHeader T = ds'.foldl withHeader T := by
  have signatures := Dict.foldl_insert_perm (perm.flatMap_right (·.signatures))
    (names_flatMap_signatures registrable ▸ distinct) T.signatures
  have structs := Dict.foldl_insert_perm (perm.filterMap (·.struct?))
    ((names_filterMap_struct? ds).nodup distinct) T.structs
  rw [foldl_withHeader, foldl_withHeader, signatures, structs]

end SignatureTable

variable {T T' : SignatureTable} {ds ds' : List Source.Def} {d d' : Source.Def}

theorem registrable_of_registerHeaders (unfinished : T.finalized = false)
    (h : registerHeaders T ds = .ok (ds.map (·, none), T')) :
    (∀ d ∈ ds, d.Registrable T) ∧ (ds.flatMap (·.names)).Nodup ∧ T' = ds.foldl withHeader T := by
  have registers := (registers_of_registerHeaders unfinished h).1
  have all : acceptedDefs (ds.map (·, none)) = ds := by
    simp [acceptedDefs, List.filter_map, Function.comp_def]
  have registrable := all ▸ registers.registrable
  have distinct := all ▸ registers.distinct.1
  refine ⟨registrable, distinct, ?_⟩
  cases h.symm.trans (registerHeaders_of_registrable registrable distinct)
  rfl

/-! ## Bodies -/

/-- Two definitions differ at most in the bodies of their functions. -/
inductive Source.Def.SameHeader : Source.Def → Source.Def → Prop
  | function (f : Source.FunctionDef) (body : List Source.Stmt) :
    SameHeader (.function f) (.function { f with body })
  | struct (s : Source.StructDef) {methods : List Source.FunctionDef} :
    List.Forall₂ (fun m m' => ∃ body, m' = { m with body }) s.methods methods →
    SameHeader (.struct s) (.struct { s with methods })

namespace Source.Def.SameHeader

theorem names_eq (h : d.SameHeader d') : d'.names = d.names := by
  cases h with
  | function f body => rfl
  | struct s methods =>
    refine congrArg (s.decl.name :: ·) (Eq.symm ?_)
    rw [← List.forall₂_eq_eq_eq, List.forall₂_map_left_iff, List.forall₂_map_right_iff]
    refine methods.imp ?_
    rintro m _ ⟨body, rfl⟩
    rfl

theorem register_eq (h : d.SameHeader d') : Header.register d' = Header.register d := by
  cases h with
  | function f body => rfl
  | struct s methods =>
    have signatures : ∀ {seen ms ms'}, List.Forall₂ (fun m m' : Source.FunctionDef =>
        ∃ body, m' = { m with body }) ms ms' →
        Header.methodSignatures s.decl seen ms' = Header.methodSignatures s.decl seen ms := by
      intro seen ms ms' same
      induction same generalizing seen with
      | nil => rfl
      | cons first _ ih =>
        obtain ⟨body, rfl⟩ := first
        rw [Header.methodSignatures, Header.methodSignatures]
        simp only [ih]
        rfl
    rw [Header.register, Header.register, signatures methods]

theorem withHeader_eq (h : d.SameHeader d') (T : SignatureTable) :
    T.withHeader d' = T.withHeader d := by
  have signatures : d'.signatures = d.signatures := by
    cases h with
    | function f body => rfl
    | struct s methods =>
      refine congrArg (s.decl.constructorSignature s.location :: ·) ?_
      generalize s.methods = ms at methods
      induction methods with
      | nil => rfl
      | cons first _ ih =>
        obtain ⟨body, rfl⟩ := first
        rw [List.filterMap_cons, List.filterMap_cons, ih]
        rfl
  have struct : d'.struct? = d.struct? := by cases h <;> rfl
  rw [withHeader, withHeader, signatures, struct]

theorem registrable (h : d.SameHeader d') (registrable : d.Registrable T) : d'.Registrable T := by
  have run := Header.register_of_registrable registrable
  rw [← h.register_eq] at run
  obtain ⟨n, hn⟩ : ∃ n, n ∈ d.names := by cases d <;> exact ⟨_, List.mem_cons_self⟩
  rcases Header.registrable_or_rejected (registrable.new n hn).unfinished d' with
    registrable' | ⟨r, rejected⟩
  · exact registrable'
  · cases run.symm.trans rejected

end Source.Def.SameHeader

/-! ## Verdicts -/

theorem except_mapM_of_forall {α β ε : Type} {f : α → Except ε β} {g : α → β} {l : List α}
    (h : ∀ a ∈ l, f a = .ok (g a)) : l.mapM f = .ok (l.map g) := by
  refine except_mapM_eq_ok.mpr ?_
  rw [List.forall₂_map_right_iff, List.forall₂_same]
  exact h

theorem except_mapM_middle {α β ε : Type} {f : α → Except ε β} {g : α → β} {l l' : List α} (a : α)
    (before : ∀ b ∈ l, f b = .ok (g b)) (after : ∀ b ∈ l', f b = .ok (g b)) :
    (l ++ a :: l').mapM f = (f a).map fun b => l.map g ++ b :: l'.map g := by
  rw [List.mapM_append, except_mapM_of_forall before, List.mapM_cons, except_mapM_of_forall after]
  cases f a <;> rfl

namespace CheckedProgram

variable {options : CheckOptions} {defs : List Source.Def} {p : CheckedProgram}

/-- The verdict on a definition, with the definition. -/
def judge (T : SignatureTable) (options : CheckOptions) (d : Source.Def) :
    Except Defect (Source.Def × Verdict) :=
  return (d, ← d.check T options)

/-- **A program whose headers are all registered** is checked definition by definition. -/
theorem check_of_registered (options : CheckOptions)
    (registered : registerHeaders Prelude.table defs = .ok (defs.map (·, none), T)) :
    check options defs = (defs.mapM (judge T.finalize options)).map fun verdicts =>
      ⟨T.finalize, verdicts⟩ := by
  rw [check, registered]
  change (List.mapM (m := Except Defect) _ (defs.map (·, none)) >>= _) = _
  rw [List.mapM_map]
  change (defs.mapM (judge T.finalize options) >>= _) = _
  cases defs.mapM (judge T.finalize options) <;> rfl

/-- The verdicts on the definitions of a program, as far as there are any. -/
def verdictOf (T : SignatureTable) (options : CheckOptions) (d : Source.Def) : Verdict :=
  (d.check T options).toOption.getD (.accepted [] [])

theorem judge_of_ok {v : Verdict} (h : d.check T options = .ok v) :
    judge T options d = .ok (d, verdictOf T options d) := by
  rw [judge, verdictOf, h]
  rfl

theorem judge_of_check
    (registered : registerHeaders Prelude.table defs = .ok (defs.map (·, none), T))
    (h : check options defs = .ok p) :
    ∀ d ∈ defs, judge T.finalize options d = .ok (d, verdictOf T.finalize options d) := by
  intro d hd
  obtain ⟨headers, T', registered', table, judged⟩ := check_eq_ok_iff.mp h
  cases registered.symm.trans registered'
  obtain ⟨x, -, -, checked⟩ :=
    (exists_of_forall₂ judged).1 (d, none) (List.mem_map_of_mem hd)
  rw [table] at checked
  exact judge_of_ok checked

/-- **Definitions do not disturb each other.**  In a program whose headers are all registered, each
    definition has a verdict of its own.

    * If definitions are reordered, then the table is the same, and so is the verdict on each
      definition.  So the program offers the same functions and structs and tells the same, in the
      new order.
    * If the bodies of a definition are replaced, then only the check of that definition matters:
      if it yields a verdict, then the table and the verdicts on all others are the same, and if it
      runs into a defect, then so does the check of the program. -/
theorem checking_is_isolated
    (registered : registerHeaders Prelude.table defs = .ok (defs.map (·, none), T))
    (checked : check options defs = .ok p) :
    ∃ verdict : Source.Def → Verdict,
      p.verdicts = defs.map (fun d => (d, verdict d)) ∧
      (∀ defs', defs.Perm defs' → ∃ p', check options defs' = .ok p' ∧ p'.table = p.table ∧
        p'.verdicts = defs'.map (fun d => (d, verdict d)) ∧ p.functions.Perm p'.functions ∧
        p.structs.Perm p'.structs ∧ p.diagnostics.Perm p'.diagnostics) ∧
      ∀ before d after d', defs = before ++ d :: after → d.SameHeader d' →
        check options (before ++ d' :: after) = (d'.check p.table options).map fun v =>
          ⟨p.table, before.map (fun d => (d, verdict d)) ++
            (d', v) :: after.map fun d => (d, verdict d)⟩ := by
  have judged := judge_of_check registered checked
  have run := check_of_registered options registered
  rw [except_mapM_of_forall judged, checked] at run
  cases run
  obtain ⟨registrable, distinct, rfl⟩ :=
    registrable_of_registerHeaders Prelude.unfinished registered
  refine ⟨verdictOf (defs.foldl withHeader Prelude.table).finalize options, rfl,
    fun defs' perm => ?_, ?_⟩
  · -- The definitions are registered in any order, with the same table.
    have registered' := registerHeaders_of_registrable
      (fun d hd => registrable d (perm.mem_iff.mpr hd))
      ((perm.flatMap_right (·.names)).nodup_iff.mp distinct)
    rw [← foldl_withHeader_perm perm registrable distinct] at registered'
    have run := check_of_registered options registered'
    rw [except_mapM_of_forall fun d hd => judged d (perm.mem_iff.mpr hd)] at run
    have verdicts := perm.map fun d =>
      (d, verdictOf (defs.foldl withHeader Prelude.table).finalize options d)
    exact ⟨_, run, rfl, rfl, verdicts.flatMap_right _, verdicts.filterMap _,
      verdicts.flatMap_right _⟩
  · rintro before d after d' rfl same
    -- The definition with other bodies has the same place in the table.
    have names : (before ++ d' :: after).flatMap (·.names) =
        (before ++ d :: after).flatMap (·.names) := by
      simp [same.names_eq]
    have table : (before ++ d' :: after).foldl withHeader Prelude.table =
        (before ++ d :: after).foldl withHeader Prelude.table := by
      simp [same.withHeader_eq]
    obtain ⟨first, here, last⟩ := List.forall_mem_append.mp registrable |>.imp_right
      List.forall_mem_cons.mp
    have registered' := registerHeaders_of_registrable
      (List.forall_mem_append.mpr ⟨first, List.forall_mem_cons.mpr ⟨same.registrable here, last⟩⟩)
      (names ▸ distinct)
    rw [table] at registered'
    obtain ⟨judgedBefore, -, judgedAfter⟩ := List.forall_mem_append.mp judged |>.imp_right
      List.forall_mem_cons.mp
    rw [check_of_registered options registered', except_mapM_middle d' judgedBefore judgedAfter,
      judge]
    cases d'.check _ options <;> rfl

/-- A function without parameters and result. -/
def plain (name : String) (body : List Source.Stmt) : Source.FunctionDef :=
  ⟨{}, name, {}, [], none, body⟩

/-- A function that does nothing. -/
def idles : Source.Def := .function (plain "idles" [])

/-- A function that calls `idles`. -/
def calls : Source.Def := .function (plain "calls" [.expr {} (.call {} "idles" [])])

/-- Calls something unknown instead of doing nothing. -/
def strays : Source.Def := .function (plain "idles" [.expr {} (.call {} "missing" [])])

/-- A function with the same name that drops an empty array. -/
def drops : Source.Def := .function (plain "calls" [.expr {} (.array {} [])])

theorem registerHeaders_calls (body body' : List Source.Stmt) :
    let defs := [.function (plain "calls" body), .function (plain "idles" body')]
    registerHeaders Prelude.table defs =
      .ok (defs.map (·, none), defs.foldl withHeader Prelude.table) := by
  have new : ∀ n ∈ ["calls", "idles"], n ∉ Prelude.signatures.map (·.name) := by decide +kernel
  refine registerHeaders_of_registrable ?_ ?_
  · rintro d (_ | ⟨_, _ | ⟨_, ⟨⟩⟩⟩)
    · exact .function (Prelude.table_accepts (new "calls" (by decide)))
    · exact .function (Prelude.table_accepts (new "idles" (by decide)))
  · change ["calls", "idles"].Nodup
    decide

theorem calls_not_disturbed : ∃ p, check {} [calls, idles] = .ok p ∧
    (∃ p', check {} [idles, calls] = .ok p' ∧ p'.table = p.table ∧
      p.functions.Perm p'.functions) ∧
    ∃ v rejection warnings, check {} [calls, strays] =
      .ok ⟨p.table, [(calls, v), (strays, .rejected rejection warnings)]⟩ ∧
      (calls, v) ∈ p.verdicts := by
  have run : (check {} [calls, idles]).toOption.any (fun p =>
      match strays.check p.table {} with
      | .ok (.rejected _ _) => true
      | _ => false) = true := by
    rw [check, calls, idles, registerHeaders_calls, Prelude.table_eq]
    cbv
  obtain ⟨p, checked, test⟩ := exists_of_any run
  obtain ⟨verdict, verdicts, reordered, replaced⟩ :=
    checking_is_isolated (registerHeaders_calls _ _) checked
  obtain ⟨p', checked', table, -, functions, -⟩ := reordered [idles, calls] (List.Perm.swap ..)
  have isolated := replaced [calls] idles [] strays rfl (.function _ _)
  refine ⟨p, checked, ⟨p', checked', table, functions⟩, verdict calls, ?_⟩
  split at test
  · rename_i rejection warnings strayed
    rw [strayed] at isolated
    exact ⟨rejection, warnings, isolated, verdicts ▸ List.mem_cons_self⟩
  · cases test

theorem empty_array_leaves_no_verdict :
    (∃ T, registerHeaders Prelude.table [calls, idles] = .ok ([calls, idles].map (·, none), T)) ∧
    (∃ p, check {} [calls, idles] = .ok p ∧ p.functions.map (·.name) = ["calls", "idles"]) ∧
    calls.SameHeader drops ∧
    check {} [drops, idles] = .error (.unclassified 1) := by
  refine ⟨⟨_, registerHeaders_calls _ _⟩, ?_, .function _ _, ?_⟩
  · have run : (check {} [calls, idles]).toOption.any
        (fun p => p.functions.map (·.name) == ["calls", "idles"]) = true := by
      rw [check, calls, idles, registerHeaders_calls, Prelude.table_eq]
      cbv
    obtain ⟨p, checked, names⟩ := exists_of_any run
    exact ⟨p, checked, beq_iff_eq.mp names⟩
  · rw [check, drops, idles, registerHeaders_calls, Prelude.table_eq]
    cbv

end CheckedProgram

end QuantumStatics
