/-
  Jumps stand inside of loops.

  The checker keeps one frame for every loop around the current statement, and refuses a jump where
  there is none.  `Nests n P` is about computations that start and end inside of `n` loops.
-/
import QuantumStatics.Proofs.Elaboration.Elaborated

namespace QuantumStatics

namespace Typed

mutual

/-- Every jump of a statement inside of `depth` loops stands inside of a loop. -/
def Stmt.JumpsIn (depth : Nat) : Stmt → Prop
  | .breakLoop _ | .continueLoop _ => 0 < depth
  | .branch _ _ thenBody elseBody => Stmt.JumpsInAll depth thenBody ∧ Stmt.JumpsInAll depth elseBody
  | .whileLoop _ _ body | .forLoop _ _ _ _ body => Stmt.JumpsInAll (depth + 1) body
  | .assign _ _ _ | .tupleAssign _ _ _ | .expr _ _ | .ret _ _ => True

/-- The same for some statements. -/
def Stmt.JumpsInAll (depth : Nat) : List Stmt → Prop
  | [] => True
  | s :: ss => s.JumpsIn depth ∧ Stmt.JumpsInAll depth ss

end

mutual

theorem Stmt.JumpsIn.subst {S : Substitution} : ∀ {depth : Nat} {s : Stmt}, s.JumpsIn depth →
    (s.subst S).JumpsIn depth
  | _, .breakLoop _, h | _, .continueLoop _, h => h
  | _, .branch _ _ _ _, h => ⟨Stmt.JumpsInAll.subst h.1, Stmt.JumpsInAll.subst h.2⟩
  | _, .whileLoop _ _ _, h | _, .forLoop _ _ _ _ _, h => Stmt.JumpsInAll.subst h
  | _, .assign _ _ _, _ | _, .tupleAssign _ _ _, _ | _, .expr _ _, _ | _, .ret _ _, _ => trivial

theorem Stmt.JumpsInAll.subst {S : Substitution} : ∀ {depth : Nat} {ss : List Stmt},
    Stmt.JumpsInAll depth ss → Stmt.JumpsInAll depth (Stmt.substAll S ss)
  | _, [], _ => trivial
  | _, _ :: _, h => ⟨Stmt.JumpsIn.subst h.1, Stmt.JumpsInAll.subst h.2⟩

end

end Typed

namespace Elaboration

open Check

variable {α β : Type} {n : Nat} {P : α → Prop} {Q : β → Prop} {location : Location}

/-- A computation that starts inside of `n` loops ends there, with a result that satisfies `P`. -/
def Nests (n : Nat) (P : α → Prop) (x : Check α) : Prop :=
  ∀ s a s', s.loops.length = n → x s = .ok a s' → s'.loops.length = n ∧ P a

namespace Nests

theorem pure {a : α} (h : P a) : Nests n P (pure a) := by
  rintro s _ _ hs ⟨⟩
  exact ⟨hs, h⟩

theorem bind {x : Check α} {f : α → Check β} (hx : Nests n P x) (hf : ∀ a, P a → Nests n Q (f a)) :
    Nests n Q (x >>= f) := by
  intro s b s' hs h
  obtain ⟨a, s₁, ha, hb⟩ := bind_eq_ok.mp h
  obtain ⟨hs₁, hP⟩ := hx s a s₁ hs ha
  exact hf a hP s₁ b s' hs₁ hb

theorem of_loops {x : Check α} (h : ∀ s a s', x s = .ok a s' → s'.loops = s.loops) :
    Nests n (fun _ => True) x := by
  intro s a s' hs ha
  rw [h s a s' ha]
  exact ⟨hs, trivial⟩

theorem modify {f : BodyState → BodyState} (h : ∀ s, (f s).loops = s.loops) :
    Nests n (fun _ => True) (modify f) :=
  of_loops fun s _ _ h' => by cases modify_eq_ok.mp h'; exact h s

theorem get : Nests n (fun _ => True) get :=
  of_loops fun s _ _ h => by obtain ⟨-, rfl⟩ := get_eq_ok.mp h; rfl

theorem infer {x : Check α} {P : Env → α → Prop} (h : ∀ env, Infers env (P env) x) :
    Nests n (fun _ => True) x :=
  of_loops fun s a s' ha => (h s.env s a s' rfl ha).1.loops

theorem statement {check : Check α} (h : Nests n P check) : Nests n P (statement check) := by
  intro s a s' hs ha
  obtain ⟨s₁, s₂, hcheck, settled, rfl⟩ := statement_eq_ok ha
  obtain ⟨hs₁, hP⟩ := h { s with calls := [], bound := [] } a s₁ hs hcheck
  exact ⟨(congrArg List.length settled.loops).trans hs₁, hP⟩

theorem branch {env : Env} {check : Check α} (h : Nests n P check) :
    Nests n (fun r => P r.1) (branch env check) := by
  intro s r s' hs hr
  exact h { s with env } r.1 s' hs (branch_eq_ok hr).1

theorem loop {check : Check α} (h : Nests (n + 1) P check) : Nests n P (loop location check) := by
  intro s a s' hs ha
  obtain ⟨s₃, s₄, m, hcheck, rfl, inferred, -⟩ := loop_eq_ok ha
  obtain ⟨hs₃, hP⟩ := h _ a s₃ (congrArg (· + 1) hs) hcheck
  refine ⟨(congrArg List.length inferred.loops).trans ?_, hP⟩
  rw [List.length_tail, hs₃, Nat.add_sub_cancel]

theorem inLoop {what : String} {f : LoopFrame → LoopFrame} :
    Nests n (fun _ => 0 < n) (inLoop location what f) := by
  rintro s _ s' rfl h
  obtain ⟨frame, loops, hl, rfl⟩ := inLoop_eq_ok h
  rw [hl]
  exact ⟨rfl, Nat.succ_pos _⟩

end Nests

theorem merge_nests {l r : Env} : Nests n (fun _ => True) (merge location l r) :=
  .of_loops fun _ _ _ h => (merge_eq_ok h).1.loops

theorem jump_nests : Nests n (fun _ => True) jump := .modify fun _ => rfl

theorem condition_nests {Γ : Scope} {e : Source.Expr} : Nests n (fun _ => True) (condition Γ e) :=
  .of_loops fun _ _ _ h => (stepped_condition h).loops

theorem forM_bind_nests {l : List (String × Ty)} : Nests n (fun _ => True)
    (l.forM fun (target, t) => Check.bind target t location) := by
  refine .of_loops fun s _ s' h => ?_
  obtain ⟨bound, rfl⟩ := forM_bind_eq_ok h
  rfl

section Statements

variable {Γ : Scope}

mutual

theorem checkStmt_nests : ∀ (n : Nat) (s : Source.Stmt),
    Nests n (·.JumpsIn n) (checkStmt Γ s)
  | n, .assign location target value stated => by
    rw [checkStmt]
    refine .statement (Nests.bind (.of_loops fun _ _ _ h => (annotatedValue_eq_ok h).1.loops)
      fun _ _ => ?_)
    exact Nests.bind (.modify fun _ => rfl) fun _ _ => .pure trivial
  | n, .tupleAssign location targets value => by
    rw [checkStmt]
    refine .statement ((Nests.infer fun _ => targetTypes_infers location [] targets).bind
      fun types _ => ?_)
    refine (Nests.infer fun _ => checkExpr_infers Γ _ .consume value).bind fun typed _ => ?_
    refine (Nests.infer fun _ => expect_infers typed _ location _).bind fun _ _ => ?_
    exact forM_bind_nests.bind fun _ _ => .pure trivial
  | n, .expr location value => by
    rw [checkStmt]
    exact .statement ((Nests.infer fun _ => checkExpr_infers Γ _ .consume value).bind
      fun _ _ => .pure trivial)
  | n, .ret location (some value) => by
    rw [checkStmt]
    refine .statement ((Nests.infer fun _ => checkExpr_infers Γ _ .consume value).bind
      fun typed _ => ?_)
    refine (Nests.infer fun _ => expect_infers typed _ location _).bind fun _ _ => ?_
    exact jump_nests.bind fun _ _ => .pure trivial
  | n, .ret location none => by
    rw [checkStmt]
    refine .statement ((Nests.infer fun _ => unifyAt_infers location _ _ _).bind fun _ _ => ?_)
    exact jump_nests.bind fun _ _ => .pure trivial
  | n, .branch location cond thenBody elseBody => by
    rw [checkStmt]
    refine .statement (condition_nests.bind fun cond _ => Nests.get.bind fun _ _ => ?_)
    refine (checkBlock_nests n thenBody).branch.bind fun first hfirst => ?_
    refine (checkBlock_nests n elseBody).branch.bind fun other hother => ?_
    refine merge_nests.bind fun _ _ => Nests.bind (.modify fun _ => rfl) fun _ _ => ?_
    exact .pure ⟨hfirst, hother⟩
  | n, .whileLoop location cond body => by
    rw [checkStmt]
    refine .statement (condition_nests.bind fun cond _ => ?_)
    exact (checkBlock_nests (n + 1) body).loop.bind fun body hbody => .pure hbody
  | n, .forLoop location loopVar iterable body => by
    rw [checkStmt]
    refine .statement ((Nests.infer fun _ => checkExpr_infers Γ _ .consume iterable).bind
      fun iterable _ => ?_)
    refine (Nests.infer fun _ => loopVarType_infers location loopVar iterable).bind fun t _ => ?_
    refine Nests.get.bind fun _ _ => Nests.bind (.modify fun _ => rfl) fun _ _ => ?_
    refine (checkBlock_nests (n + 1) body).loop.bind fun body hbody => ?_
    refine Nests.get.bind fun _ _ => merge_nests.bind fun _ _ => ?_
    exact Nests.bind (.modify fun _ => rfl) fun _ _ => .pure hbody
  | n, .breakLoop location | n, .continueLoop location => by
    rw [checkStmt]
    refine .statement (Nests.get.bind fun _ _ => Nests.inLoop.bind fun _ inside => ?_)
    exact jump_nests.bind fun _ _ => .pure inside

theorem checkBlock_nests : ∀ (n : Nat) (ss : List Source.Stmt),
    Nests n (Typed.Stmt.JumpsInAll n) (checkBlock Γ ss)
  | _, [] => .pure trivial
  | n, s :: ss =>
    (checkStmt_nests n s).bind fun _ hs => (checkBlock_nests n ss).bind fun _ hss => .pure ⟨hs, hss⟩

end

end Statements

theorem jumpsIn_of_checkFunction {T : SignatureTable} {owner : Option StructDecl}
    {f : Source.FunctionDef} {typed : Typed.Function} {memory memory' : CheckerMemory}
    (h : checkFunction T owner f memory = .ok typed memory') :
    Typed.Stmt.JumpsInAll 0 typed.body := by
  obtain ⟨sig, checked, final, -, -, -, -, hblock, rfl⟩ := checkFunction_eq_ok h
  exact .subst (checkBlock_nests 0 f.body _ _ _ rfl hblock).2

end Elaboration

end QuantumStatics
