/-
  The calls that the analysis of a function comes to.
-/
import QuantumStatics.Proofs.Consumption.Followed
import QuantumStatics.Proofs.Typed.Nodes

namespace QuantumStatics.Consumption

open Typed

theorem onSuccess_of_ok {α β : Type} {x : Follow α} {s s' : FlowState} {a : α}
    {next : α → FlowState → List β} (h : x s = .ok a s') : onSuccess x s next = next a s' := by
  rw [onSuccess, h]

/-! ## Calls of an expression -/

/-- A call, and the state in which the evaluation of its arguments starts. -/
structure CallSite where
  target : CallTarget
  args : List Expr
  before : FlowState

/-- Evaluates the arguments of a call, up to where the callee runs. -/
def CallSite.evaluateArgs (k : CallSite) : EStateM.Result Failure FlowState Unit :=
  Consumption.evaluateArgs k.target.callee [] k.target.ownership k.args k.before

/-- The calls while a place is used, if its base is a value. -/
def callsPlace (e : Expr) (use : UseKind) (base : FlowState → List CallSite) (s : FlowState) :
    List CallSite :=
  onSuccess (if use = .consume then Follow.checkMoveOut e else pure ()) s fun _ s₁ =>
    match e.root? with
    | some _ => []
    | none => base s₁

mutual

/-- The calls in the evaluation of an expression. -/
def calls : Expr → FlowState → List CallSite
  | .tuple _ _ elems, s | .array _ _ elems, s => callsAll elems s
  | .call _ _ target args, s =>
    ⟨target, args, s⟩ :: callsArgs target.callee [] target.ownership args s
  | .field location t object label index use, s =>
    callsIndices object s ++
    onSuccess (evaluateIndices object) s fun _ s₁ =>
      callsPlace (.field location t object label index use) use (callsBase object) s₁
  | .subscript location t indexed index use, s =>
    callsIndices indexed s ++
    onSuccess (evaluateIndices indexed) s fun _ s₁ =>
      calls index s₁ ++
      onSuccess (evaluate index) s₁ fun _ s₂ =>
        callsPlace (.subscript location t indexed index use) use (callsBase indexed) s₂
  | .int _ _ _, _ | .float _ _, _ | .bool _ _, _ | .name _ _ _ _, _ | .natParam _ _, _
  | .fnRef _ _ _, _ => []

/-- The calls in the indices of a place. -/
def callsIndices : Expr → FlowState → List CallSite
  | .field _ _ object _ _ _, s => callsIndices object s
  | .subscript _ _ indexed index _, s =>
    callsIndices indexed s ++ onSuccess (evaluateIndices indexed) s fun _ s₁ => calls index s₁
  | _, _ => []

/-- The calls in the evaluation of what a chain of projections starts from. -/
def callsBase : Expr → FlowState → List CallSite
  | .field _ _ object _ _ _, s => callsBase object s
  | .subscript _ _ indexed _ _, s => callsBase indexed s
  | .tuple _ _ elems, s | .array _ _ elems, s => callsAll elems s
  | .call _ _ target args, s =>
    ⟨target, args, s⟩ :: callsArgs target.callee [] target.ownership args s
  | _, _ => []

/-- The calls while some expressions are evaluated. -/
def callsAll : List Expr → FlowState → List CallSite
  | [], _ => []
  | e :: es, s => calls e s ++ onSuccess (evaluate e) s fun _ s₁ => callsAll es s₁

/-- The calls while the arguments of a call are checked. -/
def callsArgs (callee : String) (roots : List String) (ownership : List Ownership) :
    List Expr → FlowState → List CallSite
  | [], _ => []
  | e :: es, s =>
    onSuccess (Follow.checkArg callee roots (ownership.headD .borrowed) e) s fun roots s₁ =>
      calls e s₁ ++
      onSuccess (evaluate e) s₁ fun _ s₂ => callsArgs callee roots ownership.tail es s₂

end

/-- Some calls are those among some expressions, and their arguments evaluate. -/
structure Visits (nodes : List Expr) (ks : List CallSite) : Prop where
  node : ∀ k ∈ ks, ∃ location t, .call location t k.target k.args ∈ nodes
  evaluates : ∀ k ∈ ks, ∃ after, k.evaluateArgs = .ok () after
  complete {location : Location} {t : Ty} {target : CallTarget} {args : List Expr} :
    .call location t target args ∈ nodes → ∃ k ∈ ks, k.target = target ∧ k.args = args

namespace Visits

variable {nodes nodes' : List Expr} {ks ks' : List CallSite}

theorem nil : Visits [] [] := ⟨nofun, nofun, nofun⟩

theorem append (h : Visits nodes ks) (h' : Visits nodes' ks') :
    Visits (nodes ++ nodes') (ks ++ ks') where
  node := by
    refine List.forall_mem_append.mpr ⟨fun k hk => ?_, fun k hk => ?_⟩
    · obtain ⟨location, t, hn⟩ := h.node k hk
      exact ⟨location, t, List.mem_append_left _ hn⟩
    · obtain ⟨location, t, hn⟩ := h'.node k hk
      exact ⟨location, t, List.mem_append_right _ hn⟩
  evaluates := List.forall_mem_append.mpr ⟨h.evaluates, h'.evaluates⟩
  complete hn := by
    rcases List.mem_append.mp hn with hn | hn
    · obtain ⟨k, hk, hc⟩ := h.complete hn
      exact ⟨k, List.mem_append_left _ hk, hc⟩
    · obtain ⟨k, hk, hc⟩ := h'.complete hn
      exact ⟨k, List.mem_append_right _ hk, hc⟩

theorem perm (h : Visits nodes ks) (hn : nodes.Perm nodes') (hk : ks.Perm ks') :
    Visits nodes' ks' where
  node k hk' := by
    obtain ⟨location, t, hm⟩ := h.node k (hk.mem_iff.mpr hk')
    exact ⟨location, t, hn.mem_iff.mp hm⟩
  evaluates k hk' := h.evaluates k (hk.mem_iff.mpr hk')
  complete hm := by
    obtain ⟨k, hk', hc⟩ := h.complete (hn.mem_iff.mpr hm)
    exact ⟨k, hk.mem_iff.mp hk', hc⟩

theorem cons {e : Expr} (h : Visits nodes ks)
    (he : ∀ location t target args, e ≠ .call location t target args) :
    Visits (e :: nodes) ks where
  node k hk := by
    obtain ⟨location, t, hn⟩ := h.node k hk
    exact ⟨location, t, List.mem_cons_of_mem _ hn⟩
  evaluates := h.evaluates
  complete hn := by
    rcases List.mem_cons.mp hn with rfl | hn
    · exact (he _ _ _ _ rfl).elim
    · exact h.complete hn

theorem call {location : Location} {t : Ty} {k : CallSite} {after : FlowState}
    (h : Visits nodes ks) (hk : k.evaluateArgs = .ok () after) :
    Visits (.call location t k.target k.args :: nodes) (k :: ks) where
  node := by
    refine List.forall_mem_cons.mpr ⟨⟨location, t, List.mem_cons_self ..⟩, fun k' hk' => ?_⟩
    obtain ⟨location', t', hn⟩ := h.node k' hk'
    exact ⟨location', t', List.mem_cons_of_mem _ hn⟩
  evaluates := List.forall_mem_cons.mpr ⟨⟨after, hk⟩, h.evaluates⟩
  complete hn := by
    rcases List.mem_cons.mp hn with hn | hn
    · cases hn
      exact ⟨k, List.mem_cons_self .., rfl, rfl⟩
    · obtain ⟨k', hk', hc⟩ := h.complete hn
      exact ⟨k', List.mem_cons_of_mem _ hk', hc⟩

end Visits

section Evaluation

variable {st st₁ : FlowState} {e : Expr} {use : UseKind} {base : Follow Unit}

theorem callee_eq_ok {location : Location} {target : CallTarget} {args : Follow Unit}
    (h : (do
      if target.kind = .localValue then
        let _ ← Follow.definedBinding target.callee location
      args : Follow Unit) st = .ok () st₁) : args st = .ok () st₁ := by
  dsimp only at h
  split at h
  · obtain ⟨b, s, hb, h⟩ := bind_eq_ok.mp h
    obtain ⟨-, -, rfl⟩ := definedBinding_eq_ok hb
    exact h
  · exact h

theorem usePlace_eq_ok (h : Follow.usePlace e use base st = .ok () st₁) :
    ∃ s, (if use = .consume then Follow.checkMoveOut e else pure ()) st = .ok () s ∧
      (e.root? = none → ∃ s₁, base s = .ok () s₁) := by
  have fromBase : ∀ {s}, (match e.root? with
      | some root => Follow.useName root (if use = .consume then use else .borrow) e.location
      | none => do
        base
        unless use = .consume do
          if (← Follow.classify e.base.type) = .linear then
            .reject e.location (.droppedTemporary e.base.type) : Follow Unit) s = .ok () st₁ →
      e.root? = none → ∃ s₁, base s = .ok () s₁ := by
    intro s h hr
    rw [hr] at h
    obtain ⟨_, s₁, hbase, -⟩ := bind_eq_ok.mp h
    exact ⟨s₁, hbase⟩
  unfold Follow.usePlace at h
  by_cases hu : use = .consume
  · rw [if_pos hu] at h ⊢
    obtain ⟨_, s, hs, h⟩ := bind_eq_ok.mp h
    exact ⟨s, hs, fromBase h⟩
  · rw [if_neg hu] at h ⊢
    exact ⟨st, rfl, fromBase h⟩

theorem base_of_root {root : String} (h : e.root? = some root) :
    ∃ location t use, e.base = .name location t root use := by
  induction e using Expr.root?.induct with
  | case1 location t n use =>
    cases h
    exact ⟨location, t, use, rfl⟩
  | case2 _ _ object _ _ _ ih => exact ih h
  | case3 _ _ indexed _ _ ih => exact ih h
  | case4 e hname hfield hsubscript =>
    rw [Expr.root?] at h
    · cases h
    · exact hname
    · exact hfield
    · exact hsubscript

theorem callsPlace_visits {object : Expr} {ks : FlowState → List CallSite}
    (h : Follow.usePlace e use base st = .ok () st₁) (hroot : e.root? = object.root?)
    (hbase : ∀ {s s₁}, base s = .ok () s₁ → Visits object.base.nodes (ks s)) :
    Visits object.base.nodes (callsPlace e use ks st) := by
  obtain ⟨s, hs, hnone⟩ := usePlace_eq_ok h
  rw [callsPlace, onSuccess_of_ok hs]
  split
  · rename_i root hr
    obtain ⟨location, t, use', hname⟩ := base_of_root (hroot ▸ hr)
    rw [hname]
    exact Visits.nil.cons nofun
  · rename_i hr
    obtain ⟨s₁, hs₁⟩ := hnone hr
    exact hbase hs₁

mutual

/-- **The arguments of the calls in an expression evaluate if the expression does**, and all calls
    within it are among them. -/
theorem evaluate_visits : ∀ (e : Expr) {s s₁ : FlowState}, evaluate e s = .ok () s₁ →
    Visits e.nodes (calls e s)
  | .int _ _ _, _, _, _ | .float _ _, _, _, _ | .bool _ _, _, _, _ | .name _ _ _ _, _, _, _
  | .natParam _ _, _, _, _ | .fnRef _ _ _, _, _, _ => Visits.nil.cons nofun
  | .tuple _ _ elems, _, _, h | .array _ _ elems, _, _, h =>
    (evaluateAll_visits elems h).cons nofun
  | .call _ _ target args, s, _, h => by
    rw [evaluate] at h
    have hargs := callee_eq_ok h
    exact (evaluateArgs_visits _ _ _ args hargs).call (k := ⟨target, args, s⟩) hargs
  | .field location t object label index use, s, _, h => by
    rw [evaluate] at h
    obtain ⟨_, s₁, hi, h⟩ := bind_eq_ok.mp h
    rw [calls, onSuccess_of_ok hi]
    refine (evaluateIndices_visits object hi ?_).cons nofun
    exact callsPlace_visits h rfl (evaluateBase_visits object)
  | .subscript location t indexed index use, s, _, h => by
    rw [evaluate] at h
    obtain ⟨_, s₁, hi, h⟩ := bind_eq_ok.mp h
    obtain ⟨_, s₂, hx, h⟩ := bind_eq_ok.mp h
    rw [calls, onSuccess_of_ok hi, onSuccess_of_ok hx]
    have hindex := evaluate_visits index hx
    have hplace := callsPlace_visits h rfl (evaluateBase_visits indexed)
    -- The index is evaluated before the place is used, and stands behind what is indexed.
    refine (((evaluateIndices_visits indexed hi hplace).append hindex).perm (.refl _) ?_).cons nofun
    rw [List.append_assoc]
    exact List.perm_append_comm.append_left _

theorem evaluateIndices_visits : ∀ (e : Expr) {s s₁ : FlowState} {ks : List CallSite},
    evaluateIndices e s = .ok () s₁ → Visits e.base.nodes ks →
    Visits e.nodes (callsIndices e s ++ ks)
  | .field _ _ object _ _ _, _, _, _, h, hb => (evaluateIndices_visits object h hb).cons nofun
  | .subscript _ _ indexed index _, s, _, ks, h, hb => by
    rw [evaluateIndices] at h
    obtain ⟨_, s₁, hi, h⟩ := bind_eq_ok.mp h
    rw [callsIndices, onSuccess_of_ok hi]
    have hindex := evaluate_visits index h
    refine (((evaluateIndices_visits indexed hi hb).append hindex).perm (.refl _) ?_).cons nofun
    rw [List.append_assoc, List.append_assoc]
    exact List.perm_append_comm.append_left _
  | .int _ _ _, _, _, _, _, hb | .float _ _, _, _, _, _, hb | .bool _ _, _, _, _, _, hb
  | .name _ _ _ _, _, _, _, _, hb | .natParam _ _, _, _, _, _, hb | .fnRef _ _ _, _, _, _, _, hb
  | .tuple _ _ _, _, _, _, _, hb | .array _ _ _, _, _, _, _, hb | .call _ _ _ _, _, _, _, _, hb =>
    hb

theorem evaluateBase_visits : ∀ (e : Expr) {s s₁ : FlowState}, evaluateBase e s = .ok () s₁ →
    Visits e.base.nodes (callsBase e s)
  | .field _ _ object _ _ _, _, _, h => evaluateBase_visits object h
  | .subscript _ _ indexed _ _, _, _, h => evaluateBase_visits indexed h
  | .tuple _ _ elems, _, _, h | .array _ _ elems, _, _, h =>
    (evaluateAll_visits elems h).cons nofun
  | .call _ _ target args, s, _, h => by
    rw [evaluateBase] at h
    have hargs := callee_eq_ok h
    exact (evaluateArgs_visits _ _ _ args hargs).call (k := ⟨target, args, s⟩) hargs
  | .int _ _ _, _, _, _ | .float _ _, _, _, _ | .bool _ _, _, _, _ | .name _ _ _ _, _, _, _
  | .natParam _ _, _, _, _ | .fnRef _ _ _, _, _, _ => Visits.nil.cons nofun

theorem evaluateAll_visits : ∀ (es : List Expr) {s s₁ : FlowState}, evaluateAll es s = .ok () s₁ →
    Visits (Expr.nodesAll es) (callsAll es s)
  | [], _, _, _ => .nil
  | e :: es, _, _, h => by
    rw [evaluateAll] at h
    obtain ⟨_, s₁, he, h⟩ := bind_eq_ok.mp h
    rw [Expr.nodesAll, callsAll, onSuccess_of_ok he]
    exact (evaluate_visits e he).append (evaluateAll_visits es h)

theorem evaluateArgs_visits (callee : String) (roots : List String) (ownership : List Ownership) :
    ∀ (es : List Expr) {s s₁ : FlowState}, evaluateArgs callee roots ownership es s = .ok () s₁ →
    Visits (Expr.nodesAll es) (callsArgs callee roots ownership es s)
  | [], _, _, _ => .nil
  | e :: es, _, _, h => by
    rw [evaluateArgs] at h
    obtain ⟨roots', s₁, hroots, h⟩ := bind_eq_ok.mp h
    obtain ⟨_, s₂, he, h⟩ := bind_eq_ok.mp h
    rw [Expr.nodesAll, callsArgs, onSuccess_of_ok hroots, onSuccess_of_ok he]
    exact (evaluate_visits e he).append (evaluateArgs_visits callee roots' ownership.tail es h)

end

end Evaluation

/-! ## Expressions of a function -/

mutual

/-- The expressions that are evaluated where the bindings are followed through a statement, and
    the states that they are evaluated from. -/
def evaluationsStmt (name : String) : Stmt → FlowState → List (Expr × FlowState)
  | .assign _ _ value, s | .tupleAssign _ _ value, s | .expr _ value, s
  | .ret _ (some value), s => [(value, s)]
  | .ret _ none, _ | .breakLoop _, _ | .continueLoop _, _ => []
  | .branch _ condition thenBody elseBody, s =>
    (condition, s) :: onSuccess (evaluate condition) s fun _ s₁ =>
      evaluationsBlock name thenBody s₁ ++
      onSuccess (checkBlock name thenBody) s₁ fun _ s₂ =>
        evaluationsBlock name elseBody { s₂ with flow := s₁.flow }
  | .whileLoop _ condition body, s =>
    (condition, s) :: onSuccess (evaluate condition) s fun _ s₁ =>
      evaluationsBlock name body { s₁ with loops := { entry := s₁.flow } :: s₁.loops }
  | .forLoop location loopVar varType iterable body, s =>
    (iterable, s) :: onSuccess (enterFor location loopVar varType iterable) s fun frame s₁ =>
      evaluationsBlock name body { s₁ with loops := frame :: s₁.loops }

/-- The expressions that are evaluated where the bindings are followed through a block. -/
def evaluationsBlock (name : String) : List Stmt → FlowState → List (Expr × FlowState)
  | [], _ => []
  | s :: ss, st =>
    if st.flow.reachable then
      evaluationsStmt name s st ++
      onSuccess (checkStmt name s) st fun _ st₁ => evaluationsBlock name ss st₁
    else []

end

/-- The expressions that are evaluated where the bindings are followed through a function. -/
def evaluationsFunction (f : Function) (memo : ClassMemo) : List (Expr × FlowState) :=
  onSuccess (bindParams f.params) { memo } fun _ s => evaluationsBlock f.qualifiedName f.body s

/-- Expressions of a program that evaluate. -/
def Evaluated (nodes : List Expr) (evaluations : List (Expr × FlowState)) : Prop :=
  ∀ p ∈ evaluations, p.1.nodes ⊆ nodes ∧ ∃ after, evaluate p.1 p.2 = .ok () after

namespace Evaluated

variable {nodes nodes' : List Expr} {ps ps' : List (Expr × FlowState)}

theorem single {e : Expr} {s s₁ : FlowState} (h : evaluate e s = .ok () s₁) :
    Evaluated e.nodes [(e, s)] :=
  List.forall_mem_singleton.mpr ⟨List.Subset.refl _, s₁, h⟩

theorem append (h : Evaluated nodes ps) (h' : Evaluated nodes' ps') :
    Evaluated (nodes ++ nodes') (ps ++ ps') :=
  List.forall_mem_append.mpr
    ⟨fun p hp => ⟨List.subset_append_of_subset_left _ (h p hp).1, (h p hp).2⟩,
      fun p hp => ⟨List.subset_append_of_subset_right _ (h' p hp).1, (h' p hp).2⟩⟩

end Evaluated

section Statements

variable {name : String}

mutual

theorem evaluated_stmt : ∀ (s : Stmt) {st st₁ : FlowState}, checkStmt name s st = .ok () st₁ →
    Evaluated s.nodes (evaluationsStmt name s st)
  | .assign _ _ _, _, _, h | .tupleAssign _ _ _, _, _, h | .expr _ _, _, _, h
  | .ret _ (some _), _, _, h => by
    rw [checkStmt] at h
    obtain ⟨_, s₁, he, -⟩ := bind_eq_ok.mp h
    exact .single he
  | .ret _ none, _, _, _ | .breakLoop _, _, _, _ | .continueLoop _, _, _, _ => nofun
  | .branch _ _ thenBody elseBody, _, _, h => by
    obtain ⟨s₁, s₂, s₃, m, he, hthen, helse, -, -⟩ := checkStmt_branch_eq_ok h
    rw [evaluationsStmt, onSuccess_of_ok he, onSuccess_of_ok hthen]
    exact (Evaluated.single he).append
      ((evaluated_block thenBody hthen).append (evaluated_block elseBody helse))
  | .whileLoop _ _ body, _, _, h => by
    obtain ⟨s₁, he, h⟩ := checkStmt_whileLoop_eq_ok h
    obtain ⟨s₂, m, hbody, -, -⟩ := loop_eq_ok h
    rw [evaluationsStmt, onSuccess_of_ok he]
    exact (Evaluated.single he).append (evaluated_block body hbody)
  | .forLoop _ _ _ _ body, _, _, h => by
    obtain ⟨frame, s₁, henter, h⟩ := checkStmt_forLoop_eq_ok h
    obtain ⟨s₂, m, hbody, -, -⟩ := loop_eq_ok h
    obtain ⟨_, s₃, he, -⟩ := bind_eq_ok.mp henter
    rw [evaluationsStmt, onSuccess_of_ok henter]
    exact (Evaluated.single he).append (evaluated_block body hbody)

theorem evaluated_block : ∀ (ss : List Stmt) {st st₁ : FlowState},
    checkBlock name ss st = .ok () st₁ → Evaluated (Stmt.nodesAll ss) (evaluationsBlock name ss st)
  | [], _, _, _ => nofun
  | s :: ss, st, _, h => by
    rw [checkBlock] at h
    obtain ⟨_, _, hget, h⟩ := bind_eq_ok.mp h
    obtain ⟨rfl, rfl⟩ := get_eq_ok.mp hget
    by_cases hr : st.flow.reachable
    · rw [if_pos hr] at h
      obtain ⟨_, s₁, hstmt, h⟩ := bind_eq_ok.mp h
      rw [evaluationsBlock, if_pos hr, onSuccess_of_ok hstmt]
      exact (evaluated_stmt s hstmt).append (evaluated_block ss h)
    · rw [evaluationsBlock, if_neg hr]
      exact nofun

end

theorem evaluated_of_checkFunction {f : Function} {memo final : ClassMemo} {ws : List Diagnostic}
    (h : checkFunction f memo = .ok ws final) :
    Evaluated f.nodes (evaluationsFunction f memo) := by
  unfold checkFunction at h
  split at h
  · rename_i s hf
    obtain ⟨_, s₁, hparams, h⟩ := bind_eq_ok.mp hf
    obtain ⟨_, s₂, hbody, -⟩ := bind_eq_ok.mp h
    rw [evaluationsFunction, onSuccess_of_ok hparams]
    exact evaluated_block f.body hbody
  · cases h

end Statements

end QuantumStatics.Consumption
