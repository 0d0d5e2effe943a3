/-
  Checking expressions.

  While an expression is checked, inference may find something out, but the bindings stay as
  they are.  `Infers env P x` says so of a computation `x` in the environment `env`, together
  with what is true of its result.
-/
import QuantumStatics.Elaboration.Expr
import QuantumStatics.Proofs.Classification.Memo
import QuantumStatics.Proofs.Execution.Control
import QuantumStatics.Proofs.Unification.Sound

namespace QuantumStatics

/-! ## Names -/

namespace Typed

mutual

/-- Every name in an expression has the type that is known of it. -/
def Expr.NamesTyped (types : String → Option Ty) : Expr → Prop
  | .int _ _ _ | .float _ _ | .bool _ _ | .natParam _ _ | .fnRef _ _ _ => True
  | .name _ t n _ => types n = some t
  | .tuple _ _ elems | .array _ _ elems | .call _ _ _ elems => Expr.NamesTypedAll types elems
  | .field _ _ object _ _ _ => object.NamesTyped types
  | .subscript _ _ indexed index _ => indexed.NamesTyped types ∧ index.NamesTyped types

/-- The same for some expressions. -/
def Expr.NamesTypedAll (types : String → Option Ty) : List Expr → Prop
  | [] => True
  | e :: es => e.NamesTyped types ∧ Expr.NamesTypedAll types es

end

end Typed

namespace Execution

open Typed

/-- A use records the type that is given for its name, if it records one. -/
def Use.Typed (types : String → Option Ty) (u : Use) : Prop :=
  ∀ t, u.type = some t → types u.name = some t

theorem typed_of_mem_calleeUses {types : String → Option Ty} {target : CallTarget} :
    ∀ u ∈ calleeUses target, u.Typed types := by
  intro u hu t ht
  unfold calleeUses at hu
  split at hu
  · cases List.mem_singleton.mp hu
    cases ht
  · cases hu

mutual

theorem typed_of_mem_uses {types : String → Option Ty} : ∀ {e : Typed.Expr}, e.NamesTyped types →
    ∀ u ∈ uses e, u.Typed types
  | .int _ _ _, _ | .float _ _, _ | .bool _ _, _ | .natParam _ _, _ | .fnRef _ _ _, _ => nofun
  | .name _ _ _ _, h => by
    rintro u hu _ ht
    cases List.mem_singleton.mp hu
    cases ht
    exact h
  | .tuple _ _ elems, h | .array _ _ elems, h => typed_of_mem_usesAll (l := elems) h
  | .call _ _ _ args, h =>
    List.forall_mem_append.mpr ⟨typed_of_mem_calleeUses, typed_of_mem_usesAll (l := args) h⟩
  | .field _ _ object _ _ _, h =>
    List.forall_mem_append.mpr
      ⟨typed_of_mem_indexUses (e := object) h, typed_of_mem_baseUses (e := object) h⟩
  | .subscript _ _ _ _ _, h =>
    List.forall_mem_append.mpr ⟨List.forall_mem_append.mpr
      ⟨typed_of_mem_indexUses h.1, typed_of_mem_uses h.2⟩, typed_of_mem_baseUses h.1⟩

theorem typed_of_mem_indexUses {types : String → Option Ty} : ∀ {e : Typed.Expr},
    e.NamesTyped types → ∀ u ∈ indexUses e, u.Typed types
  | .int _ _ _, _ | .float _ _, _ | .bool _ _, _ | .natParam _ _, _ | .fnRef _ _ _, _
  | .name _ _ _ _, _ | .tuple _ _ _, _ | .array _ _ _, _ | .call _ _ _ _, _ => nofun
  | .field _ _ object _ _ _, h => typed_of_mem_indexUses (e := object) h
  | .subscript _ _ _ _ _, h =>
    List.forall_mem_append.mpr ⟨typed_of_mem_indexUses h.1, typed_of_mem_uses h.2⟩

theorem typed_of_mem_baseUses {types : String → Option Ty} {use : UseKind} :
    ∀ {e : Typed.Expr}, e.NamesTyped types → ∀ u ∈ baseUses use e, u.Typed types
  | .int _ _ _, _ | .float _ _, _ | .bool _ _, _ | .natParam _ _, _ | .fnRef _ _ _, _ => nofun
  | .name _ _ _ _, h => by
    rintro u hu _ ht
    cases List.mem_singleton.mp hu
    cases ht
    exact h
  | .tuple _ _ elems, h | .array _ _ elems, h => typed_of_mem_usesAll (l := elems) h
  | .call _ _ _ args, h =>
    List.forall_mem_append.mpr ⟨typed_of_mem_calleeUses, typed_of_mem_usesAll (l := args) h⟩
  | .field _ _ object _ _ _, h => typed_of_mem_baseUses (e := object) h
  | .subscript _ _ indexed _ _, h => typed_of_mem_baseUses (e := indexed) h.1

theorem typed_of_mem_usesAll {types : String → Option Ty} : ∀ {l : List Typed.Expr},
    Expr.NamesTypedAll types l → ∀ u ∈ usesAll l, u.Typed types
  | [], _ => nofun
  | _ :: _, h => List.forall_mem_append.mpr ⟨typed_of_mem_uses h.1, typed_of_mem_usesAll h.2⟩

end

end Execution

/-! ## Inference -/

namespace Elaboration

/-- What may change while an expression is checked: more may be found out, and more classes be
    remembered. -/
structure Inferred (s s' : BodyState) : Prop where
  advances : s.subs.Solved → s.subs.Advances s'.subs
  memo : s.memo.Grows s'.memo
  env : s'.env = s.env
  loops : s'.loops = s.loops

namespace Inferred

variable {s s₁ s' : BodyState}

/-- Nothing has been found out. -/
theorem of_eq (subs : s'.subs = s.subs) (memo : s.memo.Grows s'.memo) (env : s'.env = s.env)
    (loops : s'.loops = s.loops) : Inferred s s' :=
  ⟨fun h => by rw [subs]; exact .refl h, memo, env, loops⟩

theorem refl (s : BodyState) : Inferred s s := .of_eq rfl (.refl _) rfl rfl

theorem trans (h₁ : Inferred s s₁) (h₂ : Inferred s₁ s') : Inferred s s' where
  advances hS :=
    have first := h₁.advances hS
    first.trans (h₂.advances first.solved)
  memo := h₁.memo.trans h₂.memo
  env := h₂.env.trans h₁.env
  loops := h₂.loops.trans h₁.loops

end Inferred

/-- A computation in the environment `env` changes nothing but what is found out, and its
    result is such as `P` says. -/
def Infers {α : Type} (env : Env) (P : α → Prop) (x : Check α) : Prop :=
  ∀ s a s', s.env = env → x s = .ok a s' → Inferred s s' ∧ P a

namespace Infers

variable {α β : Type} {env : Env} {P : α → Prop} {Q : β → Prop} {location : Location}
  {cause : Cause}

theorem pure {a : α} (h : P a) : Infers env P (pure a) := by
  rintro s _ _ - ⟨⟩
  exact ⟨.refl s, h⟩

theorem bind {x : Check α} {f : α → Check β} (hx : Infers env P x)
    (hf : ∀ a, P a → Infers env Q (f a)) : Infers env Q (x >>= f) := by
  intro s b s' hs h
  obtain ⟨a, s₁, ha, hb⟩ := bind_eq_ok.mp h
  obtain ⟨first, hP⟩ := hx s a s₁ hs ha
  obtain ⟨second, hQ⟩ := hf a hP s₁ b s' (first.env.trans hs) hb
  exact ⟨first.trans second, hQ⟩

theorem get : Infers env (fun s => s.env = env) get := by
  rintro s _ _ hs ⟨⟩
  exact ⟨.refl s, hs⟩

theorem modify {f : BodyState → BodyState} (h : ∀ s, Inferred s (f s)) :
    Infers env (fun _ => True) (modify f) := by
  rintro s _ _ - ⟨⟩
  exact ⟨h s, trivial⟩

theorem modifyGet {f : BodyState → α × BodyState} (h : ∀ s, Inferred s (f s).2) :
    Infers env (fun _ => True) (modifyGet f) := by
  rintro s _ _ - ⟨⟩
  exact ⟨h s, trivial⟩

theorem reject : Infers env P (Analysis.reject location cause) := nofun

theorem ofExcept {x : Except Failure α} : Infers env (fun _ => True) (Analysis.ofExcept x) := by
  intro s a s' _ h
  obtain ⟨-, rfl⟩ := ofExcept_eq_ok.mp h
  exact ⟨.refl s, trivial⟩

theorem ofDefect {x : Except Defect α} : Infers env (fun _ => True) (Analysis.ofDefect x) := by
  intro s a s' _ h
  obtain ⟨-, rfl⟩ := ofDefect_eq_ok.mp h
  exact ⟨.refl s, trivial⟩

theorem guard {c : Prop} [Decidable c] {f : PUnit → Check β} (hf : Infers env Q (f ⟨⟩)) :
    Infers env Q (if c then Analysis.reject location cause >>= f else f ⟨⟩) := by
  split
  · exact reject.bind (P := fun _ => True) fun _ _ => hf
  · exact hf

theorem ensure {c : Prop} [Decidable c] {f : PUnit → Check β} (hf : Infers env Q (f ⟨⟩)) :
    Infers env Q (if c then f ⟨⟩ else Analysis.reject location cause >>= f) := by
  split
  · exact hf
  · exact reject.bind (P := fun _ => True) fun _ _ => hf

end Infers

namespace Check

variable {env : Env} {s s' : BodyState} {location : Location}

/-! ## Types -/

theorem resolve_eq_ok {t u : Ty} (h : resolve t s = .ok u s') : u = t.subst s.subs ∧ s' = s := by
  obtain ⟨_, _, hget, h⟩ := bind_eq_ok.mp h
  obtain ⟨rfl, rfl⟩ := get_eq_ok.mp hget
  obtain ⟨rfl, rfl⟩ := pure_eq_ok.mp h
  exact ⟨Substitution.apply_eq .., rfl⟩

theorem resolve_infers (t : Ty) : Infers env (fun _ => True) (resolve t) :=
  Infers.get.bind fun _ _ => .pure trivial

theorem freshType_infers : Infers env (fun _ => True) freshType :=
  .modifyGet fun _ => .of_eq rfl (.refl _) rfl rfl

theorem freshArgs_infers (g : Generics) : Infers env (fun _ => True) (freshArgs g) :=
  .modifyGet fun _ => .of_eq rfl (.refl _) rfl rfl

theorem classify_infers (t : Ty) : Infers env (fun _ => True) (classify t) := by
  intro s c s' _ h
  unfold classify at h
  split at h
  · rename_i hc
    cases h
    exact ⟨.of_eq rfl (ClassMemo.classify_grows hc) rfl rfl, trivial⟩
  · cases h

theorem unifyOr_eq_ok {onError : UnificationError → Substitution → Rejection} {l r t : Ty}
    (h : unifyOr onError l r s = .ok t s') :
    Inferred s s' ∧ (s.subs.Solved → (l.subst s'.subs).equal (r.subst s'.subs) ∧
      t = l.subst s'.subs) := by
  unfold unifyOr at h
  split at h
  · rename_i t subs hu
    cases h
    exact ⟨⟨fun hS => (unify_eq_ok hS hu).1, .refl _, rfl, rfl⟩, fun hS => (unify_eq_ok hS hu).2⟩
  · cases h

theorem unifyAt_eq_ok {what : String} {l r : Ty} {u : Unit}
    (h : unifyAt location what l r s = .ok u s') :
    Inferred s s' ∧ (s.subs.Solved → (l.subst s'.subs).equal (r.subst s'.subs)) := by
  obtain ⟨t, s₁, ht, h⟩ := bind_eq_ok.mp h
  cases h
  obtain ⟨inferred, equal⟩ := unifyOr_eq_ok ht
  exact ⟨inferred, fun hS => (equal hS).1⟩

theorem unifyAt_infers (location : Location) (what : String) (l r : Ty) :
    Infers env (fun _ => True) (unifyAt location what l r) :=
  fun _ _ _ _ h => ⟨(unifyAt_eq_ok h).1, trivial⟩

theorem expect_infers (e : Typed.Expr) (t : Ty) (location : Location) (what : String) :
    Infers env (fun _ => True) (expect e t location what) :=
  unifyAt_infers location what t e.type

theorem placeUse_infers (t : Ty) (context : Typed.UseKind) :
    Infers env (fun _ => True) (placeUse t context) := by
  refine (resolve_infers t).bind fun t _ => ?_
  split
  · exact .pure trivial
  · exact (classify_infers t).bind fun _ _ => .pure trivial

theorem binding?_infers (name : String) :
    Infers env (fun t => env.bindings.get? name = t) (binding? name) :=
  Infers.get.bind fun s hs => .pure (by rw [hs])

/-! ## Parts of expressions -/

/-- Every name in an expression has its type in the environment. -/
abbrev Named (env : Env) (e : Typed.Expr) : Prop := e.NamesTyped env.bindings.get?

/-- The same for some expressions. -/
abbrev NamedAll (env : Env) (l : List Typed.Expr) : Prop :=
  Typed.Expr.NamesTypedAll env.bindings.get? l

theorem setUse_infers {context : Typed.UseKind} {e : Typed.Expr} (h : Named env e) :
    Infers env (Named env) (setUse context e) := by
  unfold setUse
  split
  · exact (placeUse_infers _ context).bind fun _ _ => .pure h
  · exact (placeUse_infers _ context).bind fun _ _ => .pure h
  · exact (placeUse_infers _ context).bind fun _ _ => .pure h
  · exact .pure h

theorem lookupName_infers (Γ : Scope) (location : Location) (name : String)
    (context : Typed.UseKind) : Infers env (Named env) (lookupName Γ location name context) := by
  refine (binding?_infers name).bind fun t? ht => ?_
  split
  · exact (placeUse_infers _ context).bind fun _ _ => .pure ht
  · refine .guard ?_
    split
    · exact .pure trivial
    · split
      · exact .guard (.pure trivial)
      · exact .reject

theorem checkArity_infers (location : Location) (callee : String) (expected given : Nat) :
    Infers env (fun _ => True) (checkArity location callee expected given) := by
  unfold checkArity
  split
  · exact .pure trivial
  · exact .reject

theorem expectResult_infers (location : Location) (callee : String) (expected : Option Ty)
    (result : Ty) : Infers env (fun _ => True) (expectResult location callee expected result) := by
  unfold expectResult
  split
  · exact unifyAt_infers location callee _ result
  · exact .pure trivial

/-- Every name in the receiver of a call has its type. -/
def OpenCall.Named (env : Env) (call : OpenCall) : Prop :=
  ∀ r ∈ call.receiver, Check.Named env r.1

theorem openSignature_infers (location : Location) (s : Signature) (kind : Typed.CallKind)
    (count : Nat) (expected : Option Ty) :
    Infers env (OpenCall.Named env) (openSignature location s kind count expected) := by
  refine (checkArity_infers location s.name _ count).bind fun _ _ => ?_
  refine (freshArgs_infers s.generics).bind fun inst _ => ?_
  refine (expectResult_infers location s.name expected _).bind fun _ _ => ?_
  exact .pure nofun

theorem openLocalCall_infers (location : Location) (callee : String) (type : Ty) (count : Nat)
    (expected : Option Ty) :
    Infers env (OpenCall.Named env) (openLocalCall location callee type count expected) := by
  refine (resolve_infers type).bind fun t _ => ?_
  split
  · refine (checkArity_infers location callee _ count).bind fun _ _ => ?_
    refine (expectResult_infers location callee expected _).bind fun _ _ => ?_
    exact .pure nofun
  · exact .reject

theorem lookup_infers (T : SignatureTable) (name : String) (location : Location) :
    Infers env (fun _ => True) (T.lookup name location) := by
  unfold SignatureTable.lookup
  split
  · exact .pure trivial
  · exact .reject

theorem openCall_infers (Γ : Scope) (location : Location) (callee : String) (count : Nat)
    (expected : Option Ty) :
    Infers env (OpenCall.Named env) (openCall Γ location callee count expected) := by
  refine (binding?_infers callee).bind fun t? _ => ?_
  split
  · exact openLocalCall_infers location callee _ count expected
  · refine .guard ?_
    refine (lookup_infers Γ.table callee location).bind fun s _ => ?_
    exact openSignature_infers location s _ count expected

theorem openMethodCall_infers {Γ : Scope} {receiver : Typed.Expr} {method : String} {count : Nat}
    {expected : Option Ty} (h : Named env receiver) :
    Infers env (OpenCall.Named env) (openMethodCall Γ location receiver method count expected) := by
  refine (resolve_infers receiver.type).bind fun t _ => ?_
  split
  · exact .guard .reject
  · refine (openSignature_infers location _ _ _ expected).bind fun call hcall => ?_
    split
    · refine (expect_infers receiver _ location _).bind fun _ _ => ?_
      refine (setUse_infers h).bind fun r hr => .pure ?_
      rintro _ ⟨⟩
      exact hr
    · exact .pure hcall

theorem closeCall_infers {call : OpenCall} {args : List Typed.Expr} (hcall : call.Named env)
    (hargs : NamedAll env args) : Infers env (Named env) (closeCall location call args) := by
  unfold closeCall
  extract_lets typeArgs natArgs ownership finish
  have finished : ∀ u, Infers env (Named env) (finish u) := by
    intro u
    dsimp only [finish]
    split
    · rename_i hr
      exact .pure ⟨hcall _ hr, hargs⟩
    · exact .pure hargs
  split
  · exact finished ()
  · refine Infers.bind (.modify ?_) fun u _ => finished u
    exact fun _ => .of_eq rfl (.refl _) rfl rfl

theorem fieldOf_infers (location : Location) (object : Typed.Expr) (label : String) :
    Infers env (fun _ => True) (fieldOf location object label) := by
  refine (resolve_infers object.type).bind fun t _ => ?_
  split
  · split
    · exact .reject
    · refine Infers.ofDefect.bind fun fields _ => ?_
      split
      · exact .pure trivial
      · exact .reject
  · exact .reject

theorem elementOf_infers (location : Location) (indexed : Typed.Expr) :
    Infers env (fun _ => True) (elementOf location indexed) := by
  refine (resolve_infers indexed.type).bind fun t _ => ?_
  split
  · exact .pure trivial
  · exact .reject

theorem checkIndex_infers (location : Location) (index : Typed.Expr) :
    Infers env (fun _ => True) (checkIndex location index) := by
  refine (resolve_infers index.type).bind fun t _ => ?_
  split
  · exact .pure trivial
  · split
    · exact expect_infers index _ location _
    · exact .reject

theorem literalType_infers (expected : Option Ty) (value : Int64) :
    Infers env (fun _ => True) (literalType expected value) := by
  unfold literalType
  split
  · exact .pure trivial
  · exact (resolve_infers _).bind fun _ _ => .pure trivial

theorem tupleHints_infers (expected : Option Ty) (count : Nat) :
    Infers env (fun _ => True) (tupleHints expected count) := by
  unfold tupleHints
  split
  · exact .pure trivial
  · refine (resolve_infers _).bind fun t _ => ?_
    split
    · exact .pure trivial
    · exact .pure trivial

theorem arrayHint_infers (expected : Option Ty) :
    Infers env (fun _ => True) (arrayHint expected) := by
  unfold arrayHint
  split
  · exact freshType_infers
  · refine (resolve_infers _).bind fun t _ => ?_
    split
    · exact .pure trivial
    · exact freshType_infers

theorem checkOperator_infers (Γ : Scope) (location : Location) (op method : String)
    (left : Typed.Expr) :
    Infers env (fun _ => True) (checkOperator Γ location op method left) := by
  refine (resolve_infers left.type).bind fun t _ => ?_
  split
  · exact .pure trivial
  · exact .reject

theorem operatorMethod_infers (location : Location) (op : String) (method? : Option String) :
    Infers env (fun _ => True) (operatorMethod location op method?) := by
  unfold operatorMethod
  split
  · exact .pure trivial
  · exact .reject

end Check

/-! ## Expressions -/

open Check

mutual

/-- **Checking an expression leaves the bindings as they are, and every name in the typed
    expression has the type of its binding.** -/
theorem checkExpr_infers {env : Env} (Γ : Scope) (expected : Option Ty)
    (context : Typed.UseKind) :
    ∀ e : Source.Expr, Infers env (Named env) (checkExpr Γ expected context e)
  | .int location value =>
    (literalType_infers expected value).bind fun _ _ => .pure trivial
  | .float location value => .pure trivial
  | .bool location value => .pure trivial
  | .name location n => lookupName_infers Γ location n context
  | .tuple location elems =>
    (tupleHints_infers expected elems.length).bind fun hints _ =>
      (checkElems_infers Γ hints elems).bind fun _ h => .pure h
  | .array location elems =>
    (arrayHint_infers expected).bind fun elem _ =>
      (checkMembers_infers Γ elem elems).bind fun _ h =>
        (resolve_infers elem).bind fun _ _ => .pure h
  | .call location callee args =>
    (openCall_infers Γ location callee args.length expected).bind fun call hcall =>
      (checkArgs_infers Γ call.callee call.params args).bind fun _ h => closeCall_infers hcall h
  | .methodCall location receiver method args =>
    (checkExpr_infers Γ none .borrow receiver).bind fun _ hr =>
      (openMethodCall_infers hr).bind fun call hcall =>
        (checkArgs_infers Γ call.callee call.params args).bind fun _ h => closeCall_infers hcall h
  | .field location object label =>
    (checkExpr_infers Γ none .borrow object).bind fun object h =>
      (fieldOf_infers location object label).bind fun ⟨_, t⟩ _ =>
        (placeUse_infers t context).bind fun _ _ => .pure h
  | .subscript location indexed index =>
    (checkExpr_infers Γ none .borrow indexed).bind fun typed h =>
      (elementOf_infers location typed).bind fun elem _ =>
        (checkExpr_infers Γ none .borrow index).bind fun position hi =>
          (checkIndex_infers index.location position).bind fun _ _ =>
            (placeUse_infers elem context).bind fun _ _ => .pure ⟨h, hi⟩
  | .binary location op left right => by
    refine (operatorMethod_infers location op _).bind fun method _ => ?_
    refine (checkExpr_infers Γ _ .borrow left).bind fun left hl => ?_
    refine (checkOperator_infers Γ location op method left).bind fun _ _ => ?_
    refine (openMethodCall_infers hl).bind fun call hcall => ?_
    split
    · rename_i p _ _
      refine (checkExpr_infers Γ (some p.type) _ right).bind fun typed hr => ?_
      refine (expect_infers typed p.type _ _).bind fun _ _ => ?_
      exact closeCall_infers hcall ⟨hr, trivial⟩
    · exact closeCall_infers hcall trivial
  | .unary location op operand =>
    (operatorMethod_infers location op _).bind fun method _ =>
      (checkExpr_infers Γ expected .borrow operand).bind fun operand h =>
        (checkOperator_infers Γ location op method operand).bind fun _ _ =>
          (openMethodCall_infers h).bind fun _ hcall => closeCall_infers hcall trivial
  | .annotated location expr t =>
    Infers.ofExcept.bind fun _ _ =>
      (checkExpr_infers Γ (some t) context expr).bind fun typed h =>
        (expect_infers typed t location _).bind fun _ _ => .pure h

theorem checkArgs_infers {env : Env} (Γ : Scope) (callee : String) :
    ∀ (params : List ParamType) (args : List Source.Expr),
      Infers env (NamedAll env) (checkArgs Γ callee params args)
  | p :: ps, e :: es =>
    (checkExpr_infers Γ (some p.type) _ e).bind fun typed h =>
      (expect_infers typed p.type e.location callee).bind fun _ _ =>
        (checkArgs_infers Γ callee ps es).bind fun _ hs => .pure ⟨h, hs⟩
  | [], [] | [], _ :: _ | _ :: _, [] => .pure trivial

theorem checkElems_infers {env : Env} (Γ : Scope) :
    ∀ (hints : List (Option Ty)) (elems : List Source.Expr),
      Infers env (NamedAll env) (checkElems Γ hints elems)
  | hint :: hints, e :: es =>
    (checkExpr_infers Γ hint .consume e).bind fun _ h =>
      (checkElems_infers Γ hints es).bind fun _ hs => .pure ⟨h, hs⟩
  | [], [] | [], _ :: _ | _ :: _, [] => .pure trivial

theorem checkMembers_infers {env : Env} (Γ : Scope) (elem : Ty) :
    ∀ elems : List Source.Expr, Infers env (NamedAll env) (checkMembers Γ elem elems)
  | [] => .pure trivial
  | e :: es =>
    (checkExpr_infers Γ (some elem) .consume e).bind fun typed h =>
      (expect_infers typed elem e.location _).bind fun _ _ =>
        (checkMembers_infers Γ elem es).bind fun _ hs => .pure ⟨h, hs⟩

end

end Elaboration

end QuantumStatics
