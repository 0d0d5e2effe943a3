/-
  Checked functions are well typed.

  Statements add to what expressions do that bindings are made, that paths join, and that the
  environments at jumps are kept with the loop.  All of these keep a property of types that the
  checker keeps.

  * `statement_yields`, `branch_yields`, `loop_yields`: what holds of the check of a part holds of
    the check of the whole;
  * `checkStmt_yields`, `checkBlock_yields`: checked statements are well typed;
  * `checkFunction_yields`: so is a checked function.
-/
import QuantumStatics.Proofs.Elaboration.Elaborated
import QuantumStatics.Proofs.Elaboration.Typing
import QuantumStatics.Proofs.Evaluation
import QuantumStatics.Proofs.Ty.Determined
import QuantumStatics.Proofs.Typed.Parts

namespace QuantumStatics.Elaboration

open Check TypeDiscipline

section Parts

variable {T : SignatureTable} {K : TypeDiscipline T} {α β : Type} {location : Location}
  {env : Env}

/-- A computation that keeps the property and whose result does not matter. -/
abbrev Kept (K : TypeDiscipline T) (x : Check α) : Prop :=
  K.Yields (fun _ => True) (fun _ _ => True) x

/-! ## States -/

theorem Ready.withEnv {s : BodyState} (hs : K.Ready s) (h : K.Binds env) : K.Ready { s with env } :=
  ⟨hs.solved, hs.images, h, hs.jumps⟩

theorem update_yields {D : β → Prop} {P : Substitution → β → Prop} {f : BodyState → BodyState}
    {g : BodyState → Check β} (hf : ∀ s, (f s).subs = s.subs) (hr : ∀ s, K.Ready s → K.Ready (f s))
    (hg : ∀ s, K.Ready s → K.Yields D P (g s)) :
    K.Yields D P (do
      let s ← get
      set (f s)
      g s) := by
  intro s b s' hs h
  obtain ⟨_, _, hget, h⟩ := bind_eq_ok.mp h
  obtain ⟨rfl, rfl⟩ := get_eq_ok.mp hget
  obtain ⟨_, _, hset, h⟩ := bind_eq_ok.mp h
  cases set_eq_ok.mp hset
  have := hg s hs _ b s' (hr s hs) h
  rwa [hf] at this

theorem setEnv_yields (h : K.Binds env) : Kept K (modify fun s => { s with env }) :=
  .modify (fun _ => rfl) fun _ hs => Ready.withEnv hs h

theorem bind_yields {n : String} {t : Ty} (ht : K.holds t) : Kept K (Check.bind n t location) := by
  refine .modify (fun _ => rfl) fun s hs => ?_
  exact ⟨hs.solved, hs.images, forall_get?_insert hs.env ht, hs.jumps⟩

theorem jump_yields : Kept K jump :=
  .modify (fun _ => rfl) fun _ hs => ⟨hs.solved, hs.images, hs.env, hs.jumps⟩

theorem forM_yields {f : α → Check PUnit} {l : List α} (hf : ∀ a ∈ l, Kept K (f a)) :
    Kept K (l.forM f) := by
  induction l with
  | nil => exact .pure trivial fun _ => trivial
  | cons a l ih =>
    obtain ⟨ha, hl⟩ := List.forall_mem_cons.mp hf
    refine ha.bind fun _ _ => (ih hl).mono (fun _ => id) fun _ _ _ _ _ => trivial

/-! ## Joining paths -/

theorem mergeEach_yields {l : List (String × Option Ty × Option Ty)}
    (hl : ∀ p ∈ l, (∀ t ∈ p.2.1, K.holds t) ∧ ∀ t ∈ p.2.2, K.holds t) :
    K.Yields (fun ts => ∀ p ∈ ts, K.holds p.2) (fun _ _ => True) (mergeEach location l) := by
  induction l with
  | nil => exact .pure nofun fun _ => trivial
  | cons p l ih =>
    obtain ⟨x, a, b⟩ := p
    obtain ⟨⟨ha, hb⟩, hrest⟩ := List.forall_mem_cons.mp hl
    have kept : ∀ {t : Ty}, K.holds t → K.Yields (fun ts => ∀ p ∈ ts, K.holds p.2)
        (fun _ _ => True) (do return (x, t) :: (← mergeEach location l)) := fun ht =>
      (ih hrest).bind fun _ hts => .pure (List.forall_mem_cons.mpr ⟨ht, hts⟩) fun _ _ => trivial
    cases a with
    | none =>
      cases b with
      | none => exact ih hrest
      | some t => exact kept (hb t rfl)
    | some t =>
      cases b with
      | none => exact kept (ha t rfl)
      | some r =>
        refine (unifyOr_yields (ha t rfl) (hb r rfl)).bind fun u hu => ?_
        exact (kept hu).mono (fun _ => id) fun _ _ _ _ _ => trivial

/-- **The bindings of joined paths have the property**, if those of the paths do. -/
theorem merge_yields {l r : Env} (hl : K.Binds l) (hr : K.Binds r) :
    K.Yields K.Binds (fun _ _ => True) (merge location l r) := by
  unfold merge
  split
  · refine (mergeEach_yields fun p hp => ?_).bind fun ts hts => .pure ?_ fun _ _ => trivial
    · obtain ⟨x, a, b⟩ := p
      obtain ⟨rfl, rfl, -⟩ := Dict.mem_align.mp hp
      exact ⟨fun _ ht => hl ht, fun _ ht => hr ht⟩
    · exact forall_get?_ofListFirst hts
  · exact .pure hl fun _ => trivial
  · exact .pure hr fun _ => trivial
  · exact .pure (forall_get?_union hl hr) fun _ => trivial

theorem mergeAll_yields {l : Env} {rs : List Env} (hl : K.Binds l) (hrs : ∀ r ∈ rs, K.Binds r) :
    K.Yields K.Binds (fun _ _ => True) (mergeAll location l rs) := by
  induction rs generalizing l with
  | nil => exact .pure hl fun _ => trivial
  | cons r rs ih =>
    obtain ⟨hr, hrs⟩ := List.forall_mem_cons.mp hrs
    refine (merge_yields hl hr).bind fun m hm => ?_
    exact (ih hm hrs).mono (fun _ => id) fun _ _ _ _ _ => trivial

/-! ## Ends of statements -/

theorem resolveTypeArgs_yields (call : PendingCall) (ps : List TypeParam) (ts : List Ty) :
    Kept K (resolveTypeArgs call ps ts) := by
  induction ps generalizing ts with
  | nil => exact .pure trivial fun _ => trivial
  | cons p ps ih =>
    cases ts with
    | nil => exact .pure trivial fun _ => trivial
    | cons t ts =>
      have resolved : Kept K (resolve t) :=
        Yields.get.bind fun _ _ => .pure trivial fun _ _ => trivial
      refine resolved.bind fun t _ => .guard fun _ => ?_
      refine (classify_yields t).bind fun c _ => .ensure fun _ => ?_
      exact (ih ts).mono (fun _ => id) fun _ _ _ _ _ _ => trivial

theorem resolveNatArgs_yields (call : PendingCall) (ps : List String) (ns : List NatTerm) :
    Kept K (resolveNatArgs call ps ns) := by
  induction ps generalizing ns with
  | nil => exact .pure trivial fun _ => trivial
  | cons p ps ih =>
    cases ns with
    | nil => exact .pure trivial fun _ => trivial
    | cons n ns =>
      refine Yields.get.bind fun s _ => .guard fun _ => ?_
      exact (ih ns).mono (fun _ => id) fun _ _ _ _ _ => trivial

theorem resolveBinding_yields (b : PendingBinding) : Kept K (resolveBinding b) := by
  refine (binding?_yields b.name).bind fun t? ht => ?_
  split
  · exact .pure trivial fun _ _ => trivial
  · refine (resolve_yields (ht _ rfl)).bind fun t ht => .guard fun _ => ?_
    refine Yields.mono (.modify (fun _ => rfl) fun s hs => ?_) (fun _ => id)
      fun _ _ _ _ _ _ => trivial
    exact Ready.withEnv hs (forall_get?_insert hs.env ht)

theorem resolvePending_yields : Kept K resolvePending := by
  refine Yields.get.bind fun s _ => ?_
  refine (forM_yields fun call _ => ?_).bind fun _ _ => ?_
  · exact (resolveTypeArgs_yields call _ _).bind fun _ _ =>
      (resolveNatArgs_yields call _ _).mono (fun _ => id) fun _ _ _ _ _ => trivial
  · exact (forM_yields fun b _ => resolveBinding_yields b).mono (fun _ => id)
      fun _ _ _ _ _ _ => trivial

/-! ## Parts of statements -/

variable {D : α → Prop} {P : Substitution → α → Prop} {check : Check α}

theorem statement_yields (h : K.Yields D P check) : K.Yields D P (statement check) := by
  refine update_yields (fun _ => rfl) (fun s hs => ⟨hs.solved, hs.images, hs.env, hs.jumps⟩)
    fun saved _ => h.bind fun a ha => resolvePending_yields.bind fun _ _ => ?_
  refine Yields.bind (.modify (fun _ => rfl) fun s hs => ?_) fun _ _ => .pure ha fun S _ _ hP => hP
  exact ⟨hs.solved, hs.images, hs.env, hs.jumps⟩

theorem branch_yields (henv : K.Binds env) (h : K.Yields D P check) :
    K.Yields (fun r => D r.1 ∧ K.Binds r.2) (fun S r => P S r.1) (branch env check) := by
  refine (setEnv_yields henv).bind fun _ _ => h.bind fun a ha => ?_
  exact Yields.get.bind fun s hs => .pure ⟨ha, hs.env⟩ fun S _ hP _ => hP

theorem forall_mem_headD {P : Env → Prop} {loops : List LoopFrame}
    (h : ∀ frame ∈ loops, ∀ e ∈ frame.breaks ++ frame.continues, P e) :
    ∀ e ∈ (loops.headD {}).breaks ++ (loops.headD {}).continues, P e := by
  cases loops with
  | nil => exact nofun
  | cons frame loops => exact h frame (List.mem_cons_self ..)

theorem forall_mem_addBreak {P : Env → Prop} {frame : LoopFrame} (henv : P env)
    (h : ∀ e ∈ frame.breaks ++ frame.continues, P e) :
    ∀ e ∈ (frame.breaks ++ [env]) ++ frame.continues, P e := by
  obtain ⟨breaks, continues⟩ := List.forall_mem_append.mp h
  refine List.forall_mem_append.mpr ⟨List.forall_mem_append.mpr ⟨breaks, ?_⟩, continues⟩
  exact List.forall_mem_singleton.mpr henv

theorem forall_mem_addContinue {P : Env → Prop} {frame : LoopFrame} (henv : P env)
    (h : ∀ e ∈ frame.breaks ++ frame.continues, P e) :
    ∀ e ∈ frame.breaks ++ (frame.continues ++ [env]), P e := by
  rw [← List.append_assoc]
  exact List.forall_mem_append.mpr ⟨h, List.forall_mem_singleton.mpr henv⟩

theorem loop_yields (h : K.Yields D P check) : K.Yields D P (loop location check) := by
  refine Yields.get.bind fun entry hentry => ?_
  refine Yields.bind (.modify (fun _ => rfl) fun s hs => ?_) fun _ _ => ?_
  · exact ⟨hs.solved, hs.images, hs.env, List.forall_mem_cons.mpr ⟨nofun, hs.jumps⟩⟩
  refine h.bind fun a ha => update_yields (fun _ => rfl) (fun s hs => ?_) fun s hs => ?_
  · exact ⟨hs.solved, hs.images, hs.env, fun f hf => hs.jumps f (List.mem_of_mem_tail hf)⟩
  obtain ⟨breaks, continues⟩ := List.forall_mem_append.mp (forall_mem_headD hs.jumps)
  refine (merge_yields hentry.env hs.env).bind fun m hm => ?_
  refine (mergeAll_yields hm continues).bind fun m hm => ?_
  refine (mergeAll_yields hm breaks).bind fun m hm => ?_
  exact (setEnv_yields hm).bind fun _ _ => .pure ha fun S _ _ _ _ hP _ _ => hP

theorem inLoop_yields {what : String} {f : LoopFrame → LoopFrame}
    (hf : ∀ frame, (∀ e ∈ frame.breaks ++ frame.continues, K.Binds e) →
      ∀ e ∈ (f frame).breaks ++ (f frame).continues, K.Binds e) :
    Kept K (inLoop location what f) := by
  intro s _ s' hs h
  obtain ⟨frame, loops, hl, rfl⟩ := inLoop_eq_ok h
  obtain ⟨hframe, hloops⟩ := List.forall_mem_cons.mp (hl ▸ hs.jumps)
  exact ⟨⟨hs.solved, hs.images, hs.env, List.forall_mem_cons.mpr ⟨hf frame hframe, hloops⟩⟩,
    .refl hs.solved, trivial, fun _ _ => trivial⟩

theorem targetTypes_yields (seen targets : List String) :
    K.Yields (fun types => (∀ t ∈ types, K.holds t) ∧ types.length = targets.length)
      (fun _ _ => True) (targetTypes location seen targets) := by
  induction targets generalizing seen with
  | nil => exact .pure ⟨nofun, rfl⟩ fun _ => trivial
  | cons target targets ih =>
    rw [targetTypes]
    refine .guard fun _ => ?_
    refine freshType_yields.bind fun t ht => ?_
    refine (ih _).bind fun types htypes => .pure ?_ fun _ _ _ => trivial
    exact ⟨List.forall_mem_cons.mpr ⟨ht, htypes.1⟩, congrArg (· + 1) htypes.2⟩

theorem loopVarType_yields {iterable : Typed.Expr} (hi : Holds K iterable) (loopVar : String) :
    K.Yields K.holds
      (fun S t => (∃ n, iterable.type.subst S = .array (t.subst S) n) ∨
        (iterable.type.subst S).equal .range ∧ t.subst S = .int)
      (loopVarType location loopVar iterable) := by
  refine (resolve_yields hi.type).bind fun t ht => ?_
  have checked : ∀ {P : Substitution → Ty → Prop} {t : Ty}, K.holds t → (∀ S, P S t) →
      K.Yields K.holds P (do
        if t.hasUndetermined then
          .reject location (.loopVariableType loopVar)
        return t) := fun ht hP => .guard fun _ => .pure ht hP
  split
  · rename_i elem length
    refine checked (K.component ht (List.mem_singleton_self _)) fun S same => .inl ?_
    exact ⟨length.subst S, by rw [← same, Ty.subst_array]⟩
  · refine checked K.prim fun S same => .inr ⟨?_, rfl⟩
    rw [← same]
    exact equal_prim_of_primName? rfl
  · exact .reject

end Parts

/-! ## Statements -/

section Statements

variable {Γ : Scope} {K : TypeDiscipline Γ.table} {location : Location}

theorem condition_yields {e : Source.Expr} (he : e.EachType K.holds) :
    K.Yields (Holds K)
      (fun S typed => Sound Γ.table S typed ∧ (typed.subst S).type.equal .bool)
      (condition Γ e) := by
  refine (checkExpr_yields (forall_mem_some K.prim) .borrow e he).bind fun typed ht => ?_
  refine (expect_yields ht K.prim e.location _).bind fun _ _ => .pure ht fun S same sound => ?_
  refine ⟨sound, ?_⟩
  rw [Typed.Expr.type_subst]
  exact Ty.equal_symm same

theorem annotatedValue_yields {what : String} {stated : Option Ty} {value : Source.Expr}
    (hv : value.EachType K.holds) (ht : ∀ t ∈ stated, K.holds t) :
    K.Yields (Holds K) (Sound Γ.table) (annotatedValue Γ location what stated value) := by
  unfold annotatedValue
  split
  · exact checkExpr_yields forall_mem_none .consume value hv
  · refine Yields.ofExcept.bind fun _ _ => ?_
    refine (checkExpr_yields (forall_mem_some (ht _ rfl)) .consume value hv).bind fun typed h => ?_
    exact (expect_yields h (ht _ rfl) location what).bind fun _ _ =>
      .pure h fun S _ sound _ => sound

/-- A statement is well typed, with what has been found out put in. -/
abbrev StmtSound (Γ : Scope) (S : Substitution) (s : Typed.Stmt) : Prop :=
  (s.subst S).WellTyped Γ.table (Γ.result.subst S)

theorem forall_mem_stmtSubstAll {S : Substitution} {p : Typed.Stmt → Prop} {ss : List Typed.Stmt}
    (h : ∀ s ∈ ss, p (s.subst S)) : ∀ s ∈ Typed.Stmt.substAll S ss, p s := by
  induction ss with
  | nil => exact nofun
  | cons s ss ih =>
    obtain ⟨hs, hss⟩ := List.forall_mem_cons.mp h
    exact List.forall_mem_cons.mpr ⟨hs, ih hss⟩

theorem tupleAssign_yields {targets : List String} {value : Source.Expr}
    (hv : value.EachType K.holds) :
    K.Yields (·.EachType K.holds) (StmtSound Γ)
      (checkStmt Γ (.tupleAssign location targets value)) := by
  rw [checkStmt]
  refine statement_yields ((targetTypes_yields [] targets).bind fun types htypes => ?_)
  have expected : K.holds (.tuple types) := K.tuple htypes.1
  refine (checkExpr_yields (forall_mem_some expected) .consume value hv).bind fun typed ht => ?_
  refine (expect_yields ht expected location _).bind fun _ _ => ?_
  refine (forM_yields fun p hp => ?_).bind fun _ _ => .pure ht fun S _ same sound _ => ?_
  · exact bind_yields (htypes.1 p.2 (List.of_mem_zip hp).2)
  · rw [Ty.subst_tuple] at same
    obtain ⟨elems, type, skeletons⟩ := Ty.eq_tuple_of_equal (Ty.equal_symm same)
    have count := congrArg List.length skeletons
    rw [StmtSound, Typed.Stmt.subst]
    refine .tupleAssign sound (by rw [Typed.Expr.type_subst, type]) ?_
    simpa [htypes.2] using count

mutual

/-- **A checked statement is well typed**, once what is found out has been put in. -/
theorem checkStmt_yields (hresult : K.holds Γ.result) : ∀ s : Source.Stmt, s.EachType K.holds →
    K.Yields (·.EachType K.holds) (StmtSound Γ) (checkStmt Γ s)
  | .assign location target value stated, h => by
    rw [checkStmt]
    refine statement_yields ((annotatedValue_yields h.1 h.2).bind fun typed ht => ?_)
    have bound : K.holds (stated.getD typed.type) := by
      cases hs : stated with
      | none => exact ht.type
      | some t => exact h.2 t hs
    refine (bind_yields bound).bind fun _ _ => .pure ht fun S _ sound => ?_
    rw [StmtSound, Typed.Stmt.subst]
    exact .assign sound
  | .tupleAssign location targets value, h => tupleAssign_yields h
  | .expr location value, h => by
    rw [checkStmt]
    refine statement_yields ((checkExpr_yields forall_mem_none .consume value h).bind
      fun typed ht => .pure ht fun S sound => ?_)
    rw [StmtSound, Typed.Stmt.subst]
    exact .expr sound
  | .ret location (some value), h => by
    rw [checkStmt]
    refine statement_yields ?_
    refine (checkExpr_yields (forall_mem_some hresult) .consume value (h _ rfl)).bind
      fun typed ht => ?_
    refine (expect_yields ht hresult location _).bind fun _ _ => ?_
    refine jump_yields.bind fun _ _ => .pure (forall_mem_some ht) fun S _ same sound => ?_
    rw [StmtSound, Typed.Stmt.subst]
    refine .ret sound ?_
    rw [Typed.Expr.type_subst]
    exact Ty.equal_symm same
  | .ret location none, _ => by
    rw [checkStmt]
    refine statement_yields ((unifyAt_yields hresult K.prim).bind fun _ _ => ?_)
    refine jump_yields.bind fun _ _ => .pure nofun fun S _ same => ?_
    rw [StmtSound, Typed.Stmt.subst]
    exact .retNone same
  | .branch location cond thenBody elseBody, h => by
    rw [checkStmt]
    refine statement_yields ((condition_yields h.1).bind fun cond hcond => ?_)
    refine Yields.get.bind fun before hbefore => ?_
    refine (branch_yields hbefore.env (checkBlock_yields hresult thenBody h.2.1)).bind
      fun first hfirst => ?_
    refine (branch_yields hbefore.env (checkBlock_yields hresult elseBody h.2.2)).bind
      fun other hother => ?_
    refine (merge_yields hfirst.2 hother.2).bind fun m hm => (setEnv_yields hm).bind fun _ _ => ?_
    refine .pure ⟨hcond, hfirst.1, hother.1⟩ fun S _ _ otherwise first _ cond => ?_
    rw [StmtSound, Typed.Stmt.subst]
    exact .branch cond.1 cond.2 (forall_mem_stmtSubstAll first) (forall_mem_stmtSubstAll otherwise)
  | .whileLoop location cond body, h => by
    rw [checkStmt]
    refine statement_yields ((condition_yields h.1).bind fun cond hcond => ?_)
    refine (loop_yields (checkBlock_yields hresult body h.2)).bind fun body hbody => ?_
    refine .pure ⟨hcond, hbody⟩ fun S body cond => ?_
    rw [StmtSound, Typed.Stmt.subst]
    exact .whileLoop cond.1 cond.2 (forall_mem_stmtSubstAll body)
  | .forLoop location loopVar iterable body, h => by
    rw [checkStmt]
    refine statement_yields ?_
    refine (checkExpr_yields forall_mem_none .consume iterable h.1).bind fun iterable hi => ?_
    refine (loopVarType_yields hi loopVar).bind fun t ht => ?_
    refine Yields.get.bind fun before hbefore => ?_
    refine Yields.bind (.modify (fun _ => rfl) fun s hs => ?_) fun _ _ => ?_
    · exact Ready.withEnv hs (forall_get?_insert hs.env ht)
    refine (loop_yields (checkBlock_yields hresult body h.2)).bind fun body hbody => ?_
    refine Yields.get.bind fun s hs => (merge_yields hbefore.env hs.env).bind fun m hm => ?_
    refine (setEnv_yields hm).bind fun _ _ =>
      .pure ⟨ht, hi, hbody⟩ fun S _ _ _ body _ _ runs sound => ?_
    rw [StmtSound, Typed.Stmt.subst]
    refine .forLoop sound ?_ (forall_mem_stmtSubstAll body)
    rwa [Typed.Expr.type_subst]
  | .breakLoop location, _ => by
    rw [checkStmt]
    refine statement_yields (Yields.get.bind fun s hs => ?_)
    refine (inLoop_yields fun _ => forall_mem_addBreak (P := K.Binds) hs.env).bind fun _ _ =>
      jump_yields.bind fun _ _ => .pure trivial fun S _ _ _ => ?_
    rw [StmtSound, Typed.Stmt.subst]
    exact .breakLoop
  | .continueLoop location, _ => by
    rw [checkStmt]
    refine statement_yields (Yields.get.bind fun s hs => ?_)
    refine (inLoop_yields fun _ => forall_mem_addContinue (P := K.Binds) hs.env).bind fun _ _ =>
      jump_yields.bind fun _ _ => .pure trivial fun S _ _ _ => ?_
    rw [StmtSound, Typed.Stmt.subst]
    exact .continueLoop

theorem checkBlock_yields (hresult : K.holds Γ.result) : ∀ ss : List Source.Stmt,
    Source.Stmt.EachTypeAll K.holds ss →
    K.Yields (Typed.Stmt.EachTypeAll K.holds) (fun S typed => ∀ s ∈ typed, StmtSound Γ S s)
      (checkBlock Γ ss)
  | [], _ => .pure trivial fun _ => nofun
  | s :: ss, h => by
    refine (checkStmt_yields hresult s h.1).bind fun typed ht => ?_
    refine (checkBlock_yields hresult ss h.2).bind fun rest hrest =>
      .pure ⟨ht, hrest⟩ fun S later sound => ?_
    exact List.forall_mem_cons.mpr ⟨sound, later⟩

end

end Statements

/-! ## Functions -/

variable {owner : Option StructDecl} {f : Source.FunctionDef} {T : SignatureTable} {s : Signature}
  {P : Ty → Prop} {params : List Param} {n : String} {typed : Typed.Function}
  {memory memory' : CheckerMemory}

theorem signatureOf_eq_ok (h : signatureOf owner f = .ok s) :
    s.params = f.params ∧ s.result = f.result.getD .none := by
  unfold signatureOf at h
  split at h
  · obtain ⟨_, -, h⟩ := except_bind_eq_ok.mp h
    obtain ⟨_, -, h⟩ := except_bind_eq_ok.mp h
    cases h
    exact ⟨rfl, rfl⟩
  · cases h
    exact ⟨rfl, rfl⟩

theorem eachType_paramEnv (h : ∀ p ∈ params, P p.type) {t : Ty}
    (ht : (paramEnv params).bindings.get? n = some t) : P t := by
  rw [get?_paramEnv] at ht
  obtain ⟨p, hp, rfl⟩ := Option.map_eq_some_iff.mp ht
  exact h p (List.mem_reverse.mp (List.mem_of_find?_eq_some hp))

theorem ready_paramEnv {K : TypeDiscipline T} (h : ∀ p ∈ params, K.holds p.type)
    (memory : CheckerMemory) : K.Ready { toCheckerMemory := memory, env := paramEnv params } :=
  ⟨Substitution.solved_empty, nofun, eachType_paramEnv h, nofun⟩

theorem eachType_signatureOf {sig : Signature} (unit : P .none) (hf : f.EachType P)
    (h : signatureOf owner f = .ok sig) : (∀ p ∈ sig.params, P p.type) ∧ P sig.result := by
  obtain ⟨params, result⟩ := signatureOf_eq_ok h
  rw [params, result]
  refine ⟨hf.params, ?_⟩
  cases hr : f.result with
  | none => exact unit
  | some t => exact hf.result t hr

/-- **A checked function is well typed, and all its types have the property**, if the types that it
    declares and states have a property that the checker keeps. -/
theorem checkFunction_yields (K : TypeDiscipline T) (hf : f.EachType K.holds)
    (h : checkFunction T owner f memory = .ok typed memory') :
    typed.WellTyped T ∧ typed.EachType K.holds := by
  obtain ⟨sig, checked, final, signature, params, result, -, hblock, rfl⟩ := checkFunction_eq_ok h
  obtain ⟨hparams, hresult⟩ := eachType_signatureOf K.prim hf signature
  obtain ⟨ready, advances, holds, sound⟩ :=
    checkBlock_yields hresult f.body hf.body _ _ _ (ready_paramEnv hparams memory) hblock
  have put : ∀ t, K.holds t → K.holds (t.subst final.subs) := fun _ => K.subst ready.images
  constructor
  · rw [Typed.Function.WellTyped, Typed.Function.subst, result]
    exact forall_mem_stmtSubstAll (sound final.subs advances.solved.refines)
  · exact Typed.Function.EachType.subst put ⟨params ▸ hparams, result ▸ hresult, holds⟩

theorem wellTyped_of_discipline (K : TypeDiscipline T) (hf : f.EachType K.holds)
    (h : checkFunction T owner f memory = .ok typed memory') : typed.WellTyped T :=
  (checkFunction_yields K hf h).1

/-- Signatures leave nothing to be inferred. -/
def DeterminedSignatures (T : SignatureTable) : Prop :=
  ∀ {n s}, T.find? n = some s → (∀ p ∈ s.params, p.type.determined) ∧ s.result.determined

/-- What declarations mention is a property that the checker keeps. -/
def declaredDiscipline {T : SignatureTable} (keyed : T.Keyed)
    (determined : DeterminedSignatures T) :
    TypeDiscipline T where
  holds t := t.declared
  prim := rfl
  undet := rfl
  tuple h := Ty.declaredAll_iff.mpr h
  array h := h
  component h hu := Ty.declared_of_mem_components h hu
  subst hS h := Ty.declared_subst hS h
  keyed := keyed
  fnRef {n s} hs _ := by
    obtain ⟨params, result⟩ := determined hs
    refine Bool.and_eq_true_iff.mpr ⟨Ty.declaredParams_iff.mpr ?_, Ty.declared_of_determined result⟩
    exact List.forall_mem_map.mpr fun p hp => Ty.declared_of_determined (params p hp)
  signature {n s I} hs hI := by
    obtain ⟨params, result⟩ := determined hs
    have apply : ∀ {t : Ty}, t.determined → (I.apply t).declared := fun ht => by
      rw [Instantiation.apply_eq]
      exact Ty.declared_inst hI (Ty.declared_of_determined ht)
    exact ⟨fun p hp => apply (params p hp), apply result⟩
  determined {n s} hs := by
    obtain ⟨params, result⟩ := determined hs
    exact ⟨fun p hp => Ty.not_isUndetermined_of_determined (params p hp),
      Ty.not_isUndetermined_of_determined result⟩
  fields hd h := StructDecl.declared_of_instantiateFields hd h
  declared hd f hf := Ty.not_isUndetermined_of_determined
    (StructDecl.determined_iff.mp (Bool.and_eq_true_iff.mp hd).1 f hf)

/-- **Elaboration is sound.**  Every node of a function that the checker accepts is well typed:
    calls fit the signatures of their callees for the generic arguments that were inferred, fields
    and elements have the types that structs and arrays give them, conditions are truth values and
    returned values have the type of the result.

    The table may be any that registration leads to, and neither its signatures nor the types that
    the definition declares or states mention anything that is to be inferred. -/
theorem checkFunction_wellTyped {T : SignatureTable} (registered : T.Registered)
    (signatures : DeterminedSignatures T) {owner : Option StructDecl} {f : Source.FunctionDef}
    (declared : f.EachType (·.determined)) {typed : Typed.Function}
    {memory memory' : CheckerMemory} (h : checkFunction T owner f memory = .ok typed memory') :
    typed.WellTyped T :=
  wellTyped_of_discipline (declaredDiscipline registered.keyed signatures)
    (declared.mono fun _ ht => Ty.declared_of_determined ht) h

/-- A struct with one field of any type. -/
def box : StructDecl :=
  ⟨"Box", ⟨[⟨"T", false, false⟩], []⟩, [⟨"v", .var ⟨"T", false, false⟩⟩]⟩

/-- The struct `Box`. -/
def boxTable : SignatureTable := SignatureTable.after (SignatureTable.addStruct box {}) {}

/-- Puts an integer into a box and takes it out again. -/
def unboxes : Source.FunctionDef where
  name := "unboxes"
  params := []
  result := some .int
  body :=
    [.assign {} "b" (.call {} "Box" [.int {} 1]) none,
      .ret {} (some (.field {} (.name {} "b") "v"))]

/-- What becomes of `unboxes`: the argument of the constructor has been inferred. -/
def unboxesTyped : Typed.Function where
  name := "unboxes"
  params := []
  result := .int
  body :=
    [.assign {} "b" (.call {} (.struct box [.int] [])
        { callee := "Box", kind := .constructor, ownership := [.owned]
          typeArgs := [.int], natArgs := [] }
        [.int {} .int 1]),
      .ret {} (some (.field {} .int (.name {} (.struct box [.int] []) "b" .read) "v" 0 .read))]

theorem find?_boxTable (h : boxTable.find? n = some s) : s = box.constructorSignature {} := by
  have single : boxTable.signatures.entries = [("Box", box.constructorSignature {})] := by cbv
  rw [SignatureTable.find?, Dict.get?, single, lookup_entry] at h
  split at h
  · exact (Option.some.inj h).symm
  · cases h

theorem determinedSignatures_boxTable : DeterminedSignatures boxTable := by
  intro n s h
  rw [find?_boxTable h]
  decide

theorem unboxes_wellTyped :
    boxTable.Registered ∧ DeterminedSignatures boxTable ∧ unboxes.EachType (·.determined) ∧
      (∃ memory, checkFunction boxTable none unboxes {} = .ok unboxesTyped memory) ∧
      unboxesTyped.WellTyped boxTable := by
  have registered : boxTable.Registered := .addStruct box {} .empty
  have body : Source.Stmt.EachTypeAll (·.determined) unboxes.body :=
    ⟨⟨⟨trivial, trivial⟩, nofun⟩, by rintro _ ⟨⟩; trivial, trivial⟩
  have declared : unboxes.EachType (·.determined) := ⟨nofun, by decide, body⟩
  have elaborated : checkFunction boxTable none unboxes {} =
      .ok unboxesTyped ⟨2, ⟨.ofList [("Box[int]", .copyable), ("int", .copyable)]⟩⟩ := by cbv
  exact ⟨registered, determinedSignatures_boxTable, declared, ⟨_, elaborated⟩,
    checkFunction_wellTyped registered determinedSignatures_boxTable declared elaborated⟩

end QuantumStatics.Elaboration
