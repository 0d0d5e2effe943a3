/-
  What becomes of a body.

  The typed body of a function is its source body with types: no statement and no argument is lost,
  doubled or moved, also where the body cannot be reached.

  A statement ends with a look at what it has bound, so the types of bound values are determined in
  the end.  If the parameters have determined types, all bindings have: paths are joined with the
  type that a binding has on the first of them.
-/
import QuantumStatics.Proofs.Elaboration.Accounts

namespace QuantumStatics

namespace Typed

mutual

/-- The types of bound values and of the variables of loops, at any depth. -/
def Stmt.bound : Stmt → List Ty
  | .assign _ _ value | .tupleAssign _ _ value => [value.type]
  | .branch _ _ thenBody elseBody => Stmt.boundAll thenBody ++ Stmt.boundAll elseBody
  | .whileLoop _ _ body => Stmt.boundAll body
  | .forLoop _ _ varType _ body => varType :: Stmt.boundAll body
  | .expr _ _ | .ret _ _ | .breakLoop _ | .continueLoop _ => []

/-- The same for some statements. -/
def Stmt.boundAll : List Stmt → List Ty
  | [] => []
  | s :: ss => s.bound ++ Stmt.boundAll ss

end

end Typed

namespace Elaboration

open Check
open Typed (Expr Stmt UseKind)

/-! ## Joining paths -/

section

variable {H : Prop} {location : Location} {env : Env} {u : Unit} {l : List (String × Ty)}

theorem unifyOr_notes {onError : UnificationError → Substitution → Rejection} {l r : Ty}
    (hl : H → l.Ground) : Fixes H (fun t => H → t.Ground) (unifyOr onError l r) := by
  intro s t s' hS hs h
  obtain ⟨inferred, equal⟩ := unifyOr_eq_ok h
  refine ⟨inferred.later hS hs, fun hH => ?_, fun _ _ _ _ => trivial⟩
  rw [(equal hS).2, Ty.subst_of_determined (hl hH)]
  exact hl hH

theorem mergeEach_notes {l : List (String × Option Ty × Option Ty)}
    (hl : H → ∀ p ∈ l, (∀ t ∈ p.2.1, t.Ground) ∧ ∀ t ∈ p.2.2, t.Ground) :
    Fixes H (fun ts => H → ∀ p ∈ ts, p.2.Ground) (mergeEach location l) := by
  induction l with
  | nil => exact .pure (fun _ => List.forall_mem_nil _) fun _ _ => trivial
  | cons p l ih =>
    obtain ⟨x, a, b⟩ := p
    have known := fun h => List.forall_mem_cons.mp (hl h)
    have rest := ih fun h => (known h).2
    have kept : ∀ {t : Ty}, (H → t.Ground) → Fixes H (fun ts => H → ∀ p ∈ ts, p.2.Ground)
        (do return (x, t) :: (← mergeEach location l)) := fun ht =>
      rest.after fun _ hts => .pure (fun h => List.forall_mem_cons.mpr ⟨ht h, hts h⟩)
        fun _ _ => trivial
    cases a with
    | none =>
      cases b with
      | none => exact rest
      | some t => exact kept fun h => (known h).1.2 t rfl
    | some t =>
      cases b with
      | none => exact kept fun h => (known h).1.1 t rfl
      | some r => exact (unifyOr_notes fun h => (known h).1.1 t rfl).after fun u hu => kept hu

/-- **Joined paths have determined bindings**, if the paths do. -/
theorem merge_notes {l r : Env} (hl : H → l.Determined) (hr : H → r.Determined) :
    Fixes H (fun m => H → m.Determined) (merge location l r) := by
  unfold merge
  split
  · refine (mergeEach_notes fun h p hp => ?_).after fun ts hts =>
      .pure (fun h => forall_get?_ofListFirst (hts h)) fun _ _ => trivial
    obtain ⟨x, a, b⟩ := p
    obtain ⟨rfl, rfl, -⟩ := Dict.mem_align.mp hp
    exact ⟨fun _ ht => hl h ht, fun _ ht => hr h ht⟩
  · exact .pure hl fun _ _ => trivial
  · exact .pure hr fun _ _ => trivial
  · exact .pure (fun h => forall_get?_union (hl h) (hr h)) fun _ _ => trivial

theorem mergeAll_notes {l : Env} {rs : List Env} (hl : H → l.Determined)
    (hrs : H → ∀ r ∈ rs, r.Determined) :
    Fixes H (fun m => H → m.Determined) (mergeAll location l rs) := by
  induction rs generalizing l with
  | nil => exact .pure hl fun _ _ => trivial
  | cons r rs ih =>
    have known := fun h => List.forall_mem_cons.mp (hrs h)
    exact (merge_notes hl fun h => (known h).1).after fun m hm => ih hm fun h => (known h).2

theorem setEnv_notes (h : H → env.Determined) :
    Fixes H (fun _ => True) (modify fun s => { s with env }) :=
  .modify (fun _ => rfl) (fun _ => rfl) fun _ hH fixed => ⟨h hH, fixed.jumps⟩

theorem jump_notes : Fixes H (fun _ => True) jump :=
  .modify (fun _ => rfl) (fun _ => rfl) fun _ _ fixed => ⟨fixed.env, fixed.jumps⟩

/-! ## Parts of statements -/

variable {α β : Type} {D : α → Prop} {P : Substitution → ClassMemo → α → Prop} {check : Check α}
  {s s' : BodyState}

/-- All bindings have determined types but those of the current statement. -/
structure Pending (s : BodyState) : Prop where
  env : ∀ n t, s.env.bindings.get? n = some t → t.Ground ∨ ∃ b ∈ s.bound, b.name = n
  jumps : ∀ frame ∈ s.loops, ∀ e ∈ frame.breaks ++ frame.continues, e.Determined

theorem Fixed.pending (h : Fixed s) : Pending s :=
  ⟨fun _ _ ht => .inl (h.env ht), h.jumps⟩

theorem resolvePending_fixes (h : resolvePending s = .ok u s') :
    s.memo.Grows s'.memo ∧ (Pending s → Fixed s') := by
  obtain ⟨s₁, inferred, hb⟩ := resolvePending_runs h
  obtain ⟨bindings, rfl, resolved⟩ := resolveBindings_cases hb
  refine ⟨inferred.memo, fun pending => ⟨fun {n t} ht => ?_, inferred.loops ▸ pending.jumps⟩⟩
  rcases resolved n t ht with determined | ⟨old, others⟩
  · exact Ty.ground_iff.mpr determined
  · rw [inferred.env] at old
    rcases pending.env n t old with ground | ⟨b, hb, name⟩
    · exact ground
    · exact absurd name (others b hb)

/-- **The types of the bindings of a statement are determined in the end.** -/
theorem groundIn_of_resolvePending {S : Substitution} (hS : s.subs.Solved)
    (h : resolvePending s = .ok u s') (hr : s'.subs.Refines S) :
    ∀ b ∈ s.bound, ∀ t, s.env.bindings.get? b.name = some t → t.GroundIn S := by
  intro b hb t ht
  have unseen := (resolvePending_settles _ _ _ h).steps hS S hr
  obtain ⟨s₁, -, h⟩ := resolvePending_runs h
  obtain ⟨bindings, rfl, resolved⟩ := resolveBindings_cases h
  have seen := congrFun unseen b.name
  simp only [view, ht, Option.map_some] at seen
  obtain ⟨u, hu, same⟩ := Option.map_eq_some_iff.mp seen.symm
  rcases resolved b.name u hu with determined | ⟨-, others⟩
  · rw [Ty.GroundIn, ← same]
    exact (Ty.ground_iff.mpr determined).groundIn
  · exact absurd rfl (others b hb)

theorem statement_fixes (h : ∀ s a s', s.subs.Solved → (H → Fixed s) → check s = .ok a s' →
      (s.subs.Advances s'.subs ∧ s.memo.Grows s'.memo ∧ (H → Pending s')) ∧ D a ∧
      ∀ S M, s'.subs.Refines S → s'.memo.Grows M →
        (∀ b ∈ s'.bound, ∀ t, s'.env.bindings.get? b.name = some t → t.GroundIn S) → P S M a) :
    Notes H D P (statement check) := by
  intro s a s' hS hs ha
  obtain ⟨s₁, s₂, hcheck, hresolve, rfl⟩ := statement_runs ha
  obtain ⟨⟨advances, memo, pending⟩, hD, hP⟩ := h { s with calls := [], bound := [] } a s₁ hS
    (fun hH => ⟨(hs hH).env, (hs hH).jumps⟩) hcheck
  obtain ⟨memo', fixes⟩ := resolvePending_fixes hresolve
  have settled := (resolvePending_settles _ _ _ hresolve).advances advances.solved
  refine ⟨⟨advances.trans settled, memo.trans memo', fun hH => ?_⟩, hD, fun S M hr hm => ?_⟩
  · exact ⟨(fixes (pending hH)).env, (fixes (pending hH)).jumps⟩
  · exact hP S M (settled.refines.trans hr) (memo'.trans hm)
      (groundIn_of_resolvePending advances.solved hresolve hr)

theorem statement_notes (h : Notes H D P check) : Notes H D P (statement check) := by
  refine statement_fixes fun s a s' hS hs ha => ?_
  obtain ⟨later, hD, hP⟩ := h s a s' hS hs ha
  exact ⟨⟨later.advances, later.memo, fun hH => (later.fixed hH).pending⟩, hD,
    fun S M hr hm _ => hP S M hr hm⟩

theorem pending_of_forM_bind {u : PUnit}
    (h : (l.forM fun (target, t) => Check.bind target t location) s = .ok u s') (hs : Pending s) :
    Pending s' := by
  induction l generalizing s with
  | nil =>
    obtain ⟨-, rfl⟩ := pure_eq_ok.mp h
    exact hs
  | cons p l ih =>
    obtain ⟨_, s₁, hb, h⟩ := bind_eq_ok.mp h
    cases modify_eq_ok.mp hb
    refine ih h ⟨fun n t ht => ?_, hs.jumps⟩
    rw [Dict.get?_insert] at ht
    split at ht
    · rename_i same
      exact .inr ⟨_, List.mem_append_right _ (List.mem_singleton_self _), same.symm⟩
    · refine (hs.env n t ht).imp_right ?_
      rintro ⟨b, hb, name⟩
      exact ⟨b, List.mem_append_left _ hb, name⟩

theorem forM_bind_bound {u : PUnit} (distinct : (l.map (·.1)).Nodup)
    (h : (l.forM fun (target, t) => Check.bind target t location) s = .ok u s') :
    s.bound ⊆ s'.bound ∧
      (∀ p ∈ l, (∃ b ∈ s'.bound, b.name = p.1) ∧ s'.env.bindings.get? p.1 = some p.2) ∧
      ∀ n, n ∉ l.map (·.1) → s'.env.bindings.get? n = s.env.bindings.get? n := by
  induction l generalizing s with
  | nil =>
    obtain ⟨-, rfl⟩ := pure_eq_ok.mp h
    exact ⟨List.Subset.refl _, List.forall_mem_nil _, fun _ _ => rfl⟩
  | cons p l ih =>
    obtain ⟨fresh, distinct⟩ := List.nodup_cons.mp distinct
    obtain ⟨_, s₁, hb, h⟩ := bind_eq_ok.mp h
    cases modify_eq_ok.mp hb
    obtain ⟨kept, bound, others⟩ := ih distinct h
    have here := kept (List.mem_append_right _ (List.mem_singleton_self _))
    refine ⟨fun b hb => kept (List.mem_append_left _ hb),
      List.forall_mem_cons.mpr ⟨⟨⟨_, here, rfl⟩, ?_⟩, bound⟩, fun n hn => ?_⟩
    · rw [others p.1 fresh]
      simp [Dict.get?_insert]
    · obtain ⟨hne, hn⟩ := List.ne_and_not_mem_of_not_mem_cons hn
      rw [others n hn]
      simp [Dict.get?_insert, hne]

theorem binding_notes {x : Check α} {binds : α → List (String × Ty)} {result : α → β}
    {Q : Substitution → ClassMemo → β → Prop} (hx : Notes H D P x)
    (distinct : ∀ a, D a → ((binds a).map (·.1)).Nodup)
    (hQ : ∀ S M a, D a → P S M a → (∀ p ∈ binds a, p.2.GroundIn S) → Q S M (result a)) :
    Notes H (fun _ => True) Q (statement do
      let a ← x
      (binds a).forM fun (target, t) => Check.bind target t location
      return result a) := by
  refine statement_fixes fun s b s' hS hs h => ?_
  obtain ⟨a, s₁, ha, h⟩ := bind_eq_ok.mp h
  obtain ⟨_, s₂, hb, h⟩ := bind_eq_ok.mp h
  obtain ⟨rfl, rfl⟩ := pure_eq_ok.mp h
  obtain ⟨later, hD, hP⟩ := hx s a s₁ hS hs ha
  have pending := pending_of_forM_bind hb
  obtain ⟨-, binds, -⟩ := forM_bind_bound (distinct a hD) hb
  obtain ⟨bound, rfl⟩ := forM_bind_eq_ok hb
  refine ⟨⟨later.advances, later.memo, fun hH => pending (later.fixed hH).pending⟩, trivial,
    fun S M hr hm ground => hQ S M a hD (hP S M hr hm) fun p hp => ?_⟩
  obtain ⟨⟨b, hb, name⟩, type⟩ := binds p hp
  exact ground b hb p.2 (name ▸ type)

theorem branch_notes (henv : H → env.Determined) (h : Notes H D P check) :
    Notes H (fun r => H → r.2.Determined) (fun S M r => P S M r.1) (branch env check) :=
  (setEnv_notes henv).after fun _ _ => h.bind fun _ _ => Notes.get.after fun _ hs =>
    .pure (fun hH => (hs hH).env) fun _ _ known => known

theorem update_notes {E : β → Prop} {Q : Substitution → ClassMemo → β → Prop}
    {f : BodyState → BodyState} {g : BodyState → Check β} (subs : ∀ s, (f s).subs = s.subs)
    (memo : ∀ s, (f s).memo = s.memo) (fixed : ∀ s, Fixed s → Fixed (f s))
    (hg : ∀ s, (H → Fixed s) → Notes H E Q (g s)) :
    Notes H E Q (do
      let s ← get
      set (f s)
      g s) := by
  intro s b s' hS hs h
  obtain ⟨_, _, hget, h⟩ := bind_eq_ok.mp h
  obtain ⟨rfl, rfl⟩ := get_eq_ok.mp hget
  obtain ⟨_, _, hset, h⟩ := bind_eq_ok.mp h
  cases set_eq_ok.mp hset
  obtain ⟨later, known⟩ := hg s hs _ b s' (subs s ▸ hS) (fun hH => fixed s (hs hH)) h
  exact ⟨⟨subs s ▸ later.advances, memo s ▸ later.memo, later.fixed⟩, known⟩

theorem loop_notes (h : Notes H D P check) : Notes H D P (loop location check) := by
  refine Notes.get.after fun entry hentry => ?_
  refine Notes.after (.modify (fun _ => rfl) (fun _ => rfl) fun s _ fixed => ⟨fixed.env, ?_⟩)
    fun _ _ => h.bind fun a ha => ?_
  · exact List.forall_mem_cons.mpr ⟨List.forall_mem_nil _, fixed.jumps⟩
  refine update_notes (fun _ => rfl) (fun _ => rfl) (fun s fixed => ⟨fixed.env, fun f hf => ?_⟩)
    fun s hs => ?_
  · exact fixed.jumps f (List.mem_of_mem_tail hf)
  have jumps := fun hH => List.forall_mem_append.mp (forall_mem_headD (hs hH).jumps)
  refine (merge_notes (fun hH => (hentry hH).env) fun hH => (hs hH).env).after fun m hm => ?_
  refine (mergeAll_notes hm fun hH => (jumps hH).2).after fun m hm => ?_
  refine (mergeAll_notes hm fun hH => (jumps hH).1).after fun m hm => ?_
  exact (setEnv_notes hm).after fun _ _ => .pure ha fun _ _ known => known

theorem inLoop_notes {what : String} {f : LoopFrame → LoopFrame}
    (hf : H → ∀ frame, (∀ e ∈ frame.breaks ++ frame.continues, e.Determined) →
      ∀ e ∈ (f frame).breaks ++ (f frame).continues, e.Determined) :
    Fixes H (fun _ => True) (inLoop location what f) := by
  intro s _ s' hS hs h
  obtain ⟨frame, loops, hl, rfl⟩ := inLoop_eq_ok h
  refine ⟨⟨.refl hS, .refl _, fun hH => ⟨(hs hH).env, ?_⟩⟩, trivial, fun _ _ _ _ => trivial⟩
  have jumps := (hs hH).jumps
  rw [hl, List.forall_mem_cons] at jumps
  exact List.forall_mem_cons.mpr ⟨hf hH frame jumps.1, jumps.2⟩

end

/-! ## Statements -/

/-- What is known of a checked statement. -/
structure StmtAccount (Γ : Scope) (H : Prop) (S : Substitution) (M : ClassMemo) (s : Source.Stmt)
    (typed : Stmt) : Prop where
  noted : ∀ x ∈ typed.operands, AllNoted H S M x.1 x.2
  bound : ∀ t ∈ typed.bound, t.GroundIn S
  faithful : Γ.table.Keyed → StmtElaboratesTo Γ.table Γ.generics s (typed.subst S)

/-- What is known of a checked block. -/
structure BlockAccount (Γ : Scope) (H : Prop) (S : Substitution) (M : ClassMemo)
    (ss : List Source.Stmt) (typed : List Stmt) : Prop where
  noted : ∀ x ∈ Stmt.operandsAll typed, AllNoted H S M x.1 x.2
  bound : ∀ t ∈ Stmt.boundAll typed, t.GroundIn S
  faithful : Γ.table.Keyed →
    List.Forall₂ (StmtElaboratesTo Γ.table Γ.generics) ss (Stmt.substAll S typed)

section

variable {H : Prop} {Γ : Scope} {location : Location}

/-- A statement with one expression. -/
theorem StmtAccount.one {S : Substitution} {M : ClassMemo} {s : Source.Stmt} {typed : Stmt}
    {context : UseKind} {e : Source.Expr} {e' : Expr} (h : Account Γ H S M context e e')
    (operands : typed.operands = [(context, e')]) (bound : ∀ t ∈ typed.bound, t.GroundIn S)
    (faithful : ElaboratesTo Γ.table Γ.generics e (e'.subst S) →
      StmtElaboratesTo Γ.table Γ.generics s (typed.subst S)) : StmtAccount Γ H S M s typed :=
  ⟨operands ▸ List.forall_mem_singleton.mpr h.noted, bound,
    fun keyed => faithful (h.faithful keyed)⟩

theorem condition_notes (e : Source.Expr) :
    Notes H (fun _ => True) (fun S M typed => Account Γ H S M .borrow e typed) (condition Γ e) :=
  (checkExpr_notes _ .borrow e).bind fun typed _ =>
    (Notes.infers fun _ => expect_infers typed _ _ _).after fun _ _ =>
      .pure trivial fun _ _ h => h

theorem annotatedValue_notes (what : String) (stated : Option Ty) (value : Source.Expr) :
    Notes H (fun _ => True) (fun S M typed => Account Γ H S M .consume value typed ∧
        ((stated.getD typed.type).GroundIn S → typed.type.GroundIn S))
      (annotatedValue Γ location what stated value) := by
  cases stated with
  | none => exact (checkExpr_notes none .consume value).mono fun _ _ _ h => ⟨h, id⟩
  | some t =>
    refine (Notes.infers fun _ => Infers.ofExcept).after fun _ _ => ?_
    refine (checkExpr_notes (some t) .consume value).bind fun typed _ => ?_
    exact (expect_notes typed t what).bind fun _ _ =>
      .pure trivial fun _ _ equal h => ⟨h, fun ground => ground.equal equal⟩

/-- The types of the targets of a tuple assignment, and its value. -/
def tupleValue (Γ : Scope) (location : Location) (targets : List String) (value : Source.Expr) :
    Check (List Ty × Typed.Expr) := do
  let types ← targetTypes location [] targets
  let typed ← checkExpr Γ (some (.tuple types)) .consume value
  expect typed (.tuple types) location "tuple assignment"
  return (types, typed)

theorem checkStmt_tupleAssign {targets : List String} {value : Source.Expr} :
    checkStmt Γ (.tupleAssign location targets value) = statement (do
      let p ← tupleValue Γ location targets value
      (targets.zip p.1).forM fun (target, t) => Check.bind target t location
      return .tupleAssign location targets p.2) := by
  simp only [checkStmt, tupleValue, bind_assoc, pure_bind]

theorem targetTypes_returns (seen targets : List String) :
    Returns (fun types => (targets.Nodup ∧ ∀ n ∈ targets, n ∉ seen) ∧
      types.length = targets.length) (targetTypes location seen targets) := by
  induction targets generalizing seen with
  | nil => exact .pure ⟨⟨.nil, List.forall_mem_nil _⟩, rfl⟩
  | cons target targets ih =>
    rw [targetTypes]
    split
    · exact Returns.reject.bind (P := fun _ => False) fun _ h => h.elim
    · rename_i fresh
      refine Returns.after fun t => (ih _).bind fun types known => .pure ?_
      obtain ⟨⟨distinct, others⟩, count⟩ := known
      have apart := fun n hn => List.ne_and_not_mem_of_not_mem_cons (others n hn)
      refine ⟨⟨List.nodup_cons.mpr ⟨fun hm => (apart target hm).1 rfl, distinct⟩, ?_⟩,
        congrArg (· + 1) count⟩
      exact List.forall_mem_cons.mpr ⟨by simpa using fresh, fun n hn => (apart n hn).2⟩

theorem tupleValue_notes (targets : List String) (value : Source.Expr) :
    Notes H (fun p => targets.Nodup ∧ p.1.length = targets.length)
      (fun S M p => Account Γ H S M .consume value p.2 ∧
        ((∀ t ∈ p.1, t.GroundIn S) → p.2.type.GroundIn S))
      (tupleValue Γ location targets value) := by
  refine (Notes.of_infers (fun _ => targetTypes_infers location [] targets)
    (targetTypes_returns [] targets)).after fun types known => ?_
  refine (checkExpr_notes _ .consume value).bind fun typed _ => ?_
  exact (expect_notes typed _ _).bind fun _ _ => .pure ⟨known.1.1, known.2⟩ fun _ _ equal h =>
    ⟨h, fun ground => Ty.GroundIn.equal (Ty.groundIn_tuple.mpr ground) equal⟩

theorem loopVarType_returns (loopVar : String) (iterable : Expr) :
    Returns Ty.Ground (loopVarType location loopVar iterable) := by
  have checked : ∀ t : Ty, Returns Ty.Ground (do
      if t.hasUndetermined then
        .reject location (.loopVariableType loopVar)
      return t : Check Ty) := by
    intro t
    split
    · exact Returns.reject.bind (P := fun _ => False) fun _ h => h.elim
    · rename_i determined
      exact .pure (Ty.ground_iff.mpr (Bool.not_eq_true _ ▸ determined))
  refine Returns.after fun t => ?_
  split
  · exact Returns.after checked
  · exact Returns.after checked
  · exact Returns.after checked

mutual

/-- **What is known of a checked statement.**  It is the source statement with types. -/
theorem checkStmt_notes : ∀ s : Source.Stmt, Notes H (fun _ => True)
    (fun S M typed => StmtAccount Γ H S M s typed) (checkStmt Γ s)
  | .assign location target value stated => by
    have one : ∀ t, Check.bind target t location =
        [(target, t)].forM fun (target, t) => Check.bind target t location := fun t =>
      (bind_pure_unit (m := Check)).symm
    rw [checkStmt]
    simp only [one]
    refine binding_notes (annotatedValue_notes target stated value) (fun _ _ => by simp)
      fun S M typed _ h ground => .one h.1 rfl ?_ .assign
    exact List.forall_mem_singleton.mpr (h.2 (ground _ (List.mem_singleton_self _)))
  | .tupleAssign location targets value => by
    rw [checkStmt_tupleAssign]
    refine binding_notes (tupleValue_notes targets value) (fun p h => ?_)
      fun S M p known h ground => .one h.1 rfl (List.forall_mem_singleton.mpr (h.2 ?_)) .tupleAssign
    · rw [List.map_fst_zip (Nat.le_of_eq h.2.symm)]
      exact h.1
    · rw [← List.map_snd_zip (Nat.le_of_eq known.2)]
      exact List.forall_mem_map.mpr ground
  | .expr location value =>
    statement_notes ((checkExpr_notes none .consume value).bind fun _ _ =>
      .pure trivial fun _ _ h => .one h rfl (List.forall_mem_nil _) .expr)
  | .ret location (some value) => by
    refine statement_notes ((checkExpr_notes _ .consume value).bind fun typed _ => ?_)
    refine (Notes.infers fun _ => expect_infers typed _ location _).after fun _ _ => ?_
    exact jump_notes.after fun _ _ =>
      .pure trivial fun _ _ h => .one h rfl (List.forall_mem_nil _) .ret
  | .ret location none => by
    refine statement_notes ?_
    refine (Notes.infers fun _ => unifyAt_infers location Γ.function Γ.result .none).after
      fun _ _ => ?_
    exact jump_notes.after fun _ _ =>
      .pure trivial fun _ _ => ⟨List.forall_mem_nil _, List.forall_mem_nil _, fun _ => .retNone⟩
  | .branch location cond thenBody elseBody => by
    rw [checkStmt]
    refine statement_notes ((condition_notes cond).bind fun cond' _ => ?_)
    refine Notes.get.after fun before hbefore => ?_
    refine (branch_notes (fun hH => (hbefore hH).env) (checkBlock_notes thenBody)).bind
      fun first hfirst => ?_
    refine (branch_notes (fun hH => (hbefore hH).env) (checkBlock_notes elseBody)).bind
      fun other hother => ?_
    refine (merge_notes hfirst hother).after fun env henv => ?_
    refine (setEnv_notes henv).after fun _ _ => .pure trivial fun S M helse hthen hcond => ?_
    exact ⟨List.forall_mem_cons.mpr
        ⟨hcond.noted, List.forall_mem_append.mpr ⟨hthen.noted, helse.noted⟩⟩,
      List.forall_mem_append.mpr ⟨hthen.bound, helse.bound⟩,
      fun keyed => .branch (hcond.faithful keyed) (hthen.faithful keyed) (helse.faithful keyed)⟩
  | .whileLoop location cond body => by
    rw [checkStmt]
    refine statement_notes ((condition_notes cond).bind fun cond' _ => ?_)
    refine (loop_notes (checkBlock_notes body)).bind fun body' _ => .pure trivial ?_
    exact fun S M hbody hcond => ⟨List.forall_mem_cons.mpr ⟨hcond.noted, hbody.noted⟩, hbody.bound,
      fun keyed => .whileLoop (hcond.faithful keyed) (hbody.faithful keyed)⟩
  | .forLoop location loopVar iterable body => by
    rw [checkStmt]
    refine statement_notes ((checkExpr_notes none .consume iterable).bind fun iterable' _ => ?_)
    refine (Notes.of_infers (fun _ => loopVarType_infers location loopVar iterable')
      (loopVarType_returns loopVar iterable')).after fun t ht => ?_
    refine Notes.get.after fun before hbefore => ?_
    refine Notes.after (.modify (fun _ => rfl) (fun _ => rfl) fun s _ fixed =>
      ⟨forall_get?_insert fixed.env ht, fixed.jumps⟩) fun _ _ => ?_
    refine (loop_notes (checkBlock_notes body)).bind fun body' _ => ?_
    refine Notes.get.after fun behind hbehind => ?_
    refine (merge_notes (fun hH => (hbefore hH).env) fun hH => (hbehind hH).env).after
      fun env henv => ?_
    refine (setEnv_notes henv).after fun _ _ => .pure trivial fun S M hbody hiterable => ?_
    exact ⟨List.forall_mem_cons.mpr ⟨hiterable.noted, hbody.noted⟩,
      List.forall_mem_cons.mpr ⟨ht.groundIn, hbody.bound⟩,
      fun keyed => .forLoop (hiterable.faithful keyed) (hbody.faithful keyed)⟩
  | .breakLoop location => by
    rw [checkStmt]
    refine statement_notes (Notes.get.after fun s hs => ?_)
    refine (inLoop_notes fun hH frame =>
      forall_mem_addBreak (P := Env.Determined) (hs hH).env).after fun _ _ => ?_
    exact jump_notes.after fun _ _ =>
      .pure trivial fun _ _ => ⟨List.forall_mem_nil _, List.forall_mem_nil _, fun _ => .breakLoop⟩
  | .continueLoop location => by
    rw [checkStmt]
    refine statement_notes (Notes.get.after fun s hs => ?_)
    refine (inLoop_notes fun hH frame =>
      forall_mem_addContinue (P := Env.Determined) (hs hH).env).after fun _ _ => ?_
    exact jump_notes.after fun _ _ => .pure trivial fun _ _ =>
      ⟨List.forall_mem_nil _, List.forall_mem_nil _, fun _ => .continueLoop⟩

theorem checkBlock_notes : ∀ ss : List Source.Stmt, Notes H (fun _ => True)
    (fun S M typed => BlockAccount Γ H S M ss typed) (checkBlock Γ ss)
  | [] => .pure trivial fun _ _ => ⟨List.forall_mem_nil _, List.forall_mem_nil _, fun _ => .nil⟩
  | s :: ss =>
    (checkStmt_notes s).bind fun _ _ => (checkBlock_notes ss).bind fun _ _ =>
      .pure trivial fun _ _ rest first =>
        ⟨List.forall_mem_append.mpr ⟨first.noted, rest.noted⟩,
          List.forall_mem_append.mpr ⟨first.bound, rest.bound⟩,
          fun keyed => .cons (first.faithful keyed) (rest.faithful keyed)⟩

end

end

/-! ## Functions -/

section

variable {T : SignatureTable} {owner : Option StructDecl} {d : Source.FunctionDef}
  {f : Typed.Function} {memory memory' : CheckerMemory}

/-- **What is known of a checked function** before what has been found out is put in. -/
theorem checkFunction_notes {sig : Signature} (signature : signatureOf owner d = .ok sig)
    (h : checkFunction T owner d memory = .ok f memory') :
    ∃ (checked : Typed.Function) (S : Substitution), f = checked.subst S ∧ checked.generics = sig.generics ∧
      BlockAccount (bodyScope T sig d.body) (∀ p ∈ sig.params, p.type.Ground) S memory'.memo d.body
        checked.body := by
  obtain ⟨checked, final, -, run⟩ := exists_checked signature h
  have start : (∀ p ∈ sig.params, p.type.Ground) →
      Fixed { toCheckerMemory := memory, env := paramEnv sig.params } := fun ground =>
    ⟨eachType_paramEnv ground, List.forall_mem_nil _⟩
  obtain ⟨later, -, known⟩ := checkBlock_notes d.body _ _ _ Substitution.solved_empty start run.body
  refine ⟨checked, final.subs, run.typed, run.header.1, ?_⟩
  rw [run.memory]
  exact known _ _ later.advances.solved.refines (.refl _)

theorem BlockAccount.site {Γ : Scope} {H : Prop} {S : Substitution} {M : ClassMemo}
    {ss : List Source.Stmt} (h : BlockAccount Γ H S M ss f.body) {c : UseKind} {n : Expr}
    (site : f.Site c n) : Noted H S M c n := by
  obtain ⟨x, hx, site⟩ := site
  exact h.noted x hx c n site

theorem passed_of_argUses {ownership : List Ownership} {args : List Expr}
    (count : ownership.length = args.length)
    (h : ∀ x ∈ Typed.argUses ownership args, x.1 = .borrow → x.2.use? ≠ some .consume) :
    Typed.Passed ownership args := by
  induction ownership generalizing args with
  | nil =>
    cases List.length_eq_zero_iff.mp count.symm
    exact .nil
  | cons o os ih =>
    cases args with
    | nil => cases count
    | cons e es =>
      obtain ⟨first, rest⟩ := List.forall_mem_cons.mp h
      refine .cons (fun borrowed => first ?_) (ih (Nat.succ.inj count) rest)
      rw [List.headD_cons, borrowed]
      rfl

theorem Noted.use {H : Prop} {S : Substitution} {M : ClassMemo} {c : UseKind} {e : Expr}
    {use : UseKind} (h : Noted H S M c e) (hu : e.use? = some use) :
    Recorded S M c e.type use := by
  cases e <;> cases hu
  all_goals exact h.2

/-- **The calls of a checked function pass their arguments as their callees take them.** -/
theorem passes_of_checkFunction (h : checkFunction T owner d memory = .ok f memory') :
    ∀ n ∈ f.nodes, n.Passes := by
  obtain ⟨sig, -, -, signature, -⟩ := checkFunction_eq_ok h
  obtain ⟨checked, S, rfl, -, known⟩ := checkFunction_notes signature h
  intro n hn
  obtain ⟨c, site⟩ := Typed.Function.exists_site hn
  obtain ⟨m, rfl, raw⟩ := Typed.Function.site_of_subst site
  cases m with
  | call location t target args =>
    have count : target.ownership.length = args.length := (known.site raw).1
    refine passed_of_argUses ?_ fun x hx lent used => ?_
    · rw [Expr.substAll_eq_map, List.length_map]
      exact count
    obtain ⟨m, hm, raw⟩ := Typed.Function.site_of_subst (Typed.Function.Site.operand site hx)
    rw [hm, Expr.use?_subst] at used
    rw [lent] at raw
    rcases ((known.site raw).use used).use_eq with h | h <;> cases h
  | _ => trivial

end

end Elaboration

end QuantumStatics
