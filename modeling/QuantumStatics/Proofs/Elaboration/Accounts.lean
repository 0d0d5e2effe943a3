/-
  What becomes of each expression of a body.

  A checked expression is the source expression with types (`ElaboratesTo`).  Annotations are
  dropped, operators become calls of the methods that the types of their left operands have for
  them, and the receiver of a method call becomes its first argument.

  A place records how it is used (`Recorded`): a copyable value is read, and any other is used as
  the context says.  The class of a value is asked for when the place is checked.  If its type is
  not determined by then, the place is used as the context says, whatever the type turns out to be.

  `Notes` is about computations: what is true of the result under all that may be found out later.
-/
import Mathlib.Data.List.Forall2
import QuantumStatics.Proofs.Elaboration.KeptBodies
import QuantumStatics.Proofs.Typed.Nodes

namespace QuantumStatics

namespace Typed

/-- How a place is used. -/
def Expr.use? : Expr → Option UseKind
  | .name _ _ _ use | .field _ _ _ _ _ use | .subscript _ _ _ _ use => some use
  | _ => none

/-- The arguments go to the parameters one by one, and no place is given away to a parameter
    that borrows. -/
def Passed (ownership : List Ownership) (args : List Expr) : Prop :=
  List.Forall₂ (fun o e => o = .borrowed → e.use? ≠ some .consume) ownership args

/-- A call passes its arguments as its callee takes them. -/
def Expr.Passes : Expr → Prop
  | .call _ _ target args => Passed target.ownership args
  | _ => True

theorem Expr.use?_subst (S : Substitution) (e : Expr) : (e.subst S).use? = e.use? := by
  cases e <;> rfl

end Typed

namespace Elaboration

open Check
open Typed (CallTarget Expr Stmt UseKind)

/-! ## Source and typed programs -/

/-- A call by name: of a local binding, of the constructor of a struct or of another registered
    function. -/
structure CallsByName (T : SignatureTable) (callee : String) (target : CallTarget) : Prop where
  named : target.callee = callee
  kind : target.kind = .localValue ∨ (T.find? callee).isSome ∧
    target.kind = if (T.findStruct? callee).isSome then .constructor else .function

/-- A call of the method that a type has under a name. -/
structure CallsMethod (T : SignatureTable) (receiver : Ty) (method : String) (target : CallTarget) :
    Prop where
  kind : target.kind = .method
  selected : ∃ s, T.findMethod? receiver method = some s ∧ target.callee = s.name

/-- A typed expression is a source expression with types: names, literals, fields, locations and
    the order of elements and arguments are the same. -/
inductive ElaboratesTo (T : SignatureTable) (g : Generics) : Source.Expr → Typed.Expr → Prop
  | int {location value t} : ElaboratesTo T g (.int location value) (.int location t value)
  | float {location value} : ElaboratesTo T g (.float location value) (.float location value)
  | bool {location value} : ElaboratesTo T g (.bool location value) (.bool location value)
  | name {location n t use} : ElaboratesTo T g (.name location n) (.name location t n use)
  | natParam {location n} : g.hasNat n → ElaboratesTo T g (.name location n) (.natParam location n)
  | fnRef {location n t} : (T.find? n).isSome →
    ElaboratesTo T g (.name location n) (.fnRef location t n)
  | tuple {location t elems elems'} : List.Forall₂ (ElaboratesTo T g) elems elems' →
    ElaboratesTo T g (.tuple location elems) (.tuple location t elems')
  | array {location t elems elems'} : List.Forall₂ (ElaboratesTo T g) elems elems' →
    ElaboratesTo T g (.array location elems) (.array location t elems')
  | call {location callee t target args args'} : List.Forall₂ (ElaboratesTo T g) args args' →
    CallsByName T callee target →
    ElaboratesTo T g (.call location callee args) (.call location t target args')
  | methodCall {location receiver receiver' method t target args args'} :
    ElaboratesTo T g receiver receiver' → List.Forall₂ (ElaboratesTo T g) args args' →
    CallsMethod T receiver'.type method target →
    ElaboratesTo T g (.methodCall location receiver method args)
      (.call location t target (receiver' :: args'))
  | field {location t object object' label index use} : ElaboratesTo T g object object' →
    ElaboratesTo T g (.field location object label) (.field location t object' label index use)
  | subscript {location t indexed indexed' index index' use} : ElaboratesTo T g indexed indexed' →
    ElaboratesTo T g index index' →
    ElaboratesTo T g (.subscript location indexed index) (.subscript location t indexed' index' use)
  | binary {location op method t target left left' right right'} : binaryMethod? op = some method →
    ElaboratesTo T g left left' → ElaboratesTo T g right right' →
    CallsMethod T left'.type method target →
    ElaboratesTo T g (.binary location op left right) (.call location t target [left', right'])
  | unary {location op method t target operand operand'} : unaryMethod? op = some method →
    ElaboratesTo T g operand operand' → CallsMethod T operand'.type method target →
    ElaboratesTo T g (.unary location op operand) (.call location t target [operand'])
  | annotated {location e e' t} : ElaboratesTo T g e e' →
    ElaboratesTo T g (.annotated location e t) e'

/-- A typed statement is a source statement with types: targets, loop variables, locations and the
    order of the statements within are the same. -/
inductive StmtElaboratesTo (T : SignatureTable) (g : Generics) : Source.Stmt → Typed.Stmt → Prop
  | assign {location target value value' stated} : ElaboratesTo T g value value' →
    StmtElaboratesTo T g (.assign location target value stated) (.assign location target value')
  | tupleAssign {location targets value value'} : ElaboratesTo T g value value' →
    StmtElaboratesTo T g (.tupleAssign location targets value) (.tupleAssign location targets value')
  | expr {location value value'} : ElaboratesTo T g value value' →
    StmtElaboratesTo T g (.expr location value) (.expr location value')
  | ret {location value value'} : ElaboratesTo T g value value' →
    StmtElaboratesTo T g (.ret location (some value)) (.ret location (some value'))
  | retNone {location} : StmtElaboratesTo T g (.ret location none) (.ret location none)
  | branch {location condition condition' thenBody thenBody' elseBody elseBody'} :
    ElaboratesTo T g condition condition' →
    List.Forall₂ (StmtElaboratesTo T g) thenBody thenBody' →
    List.Forall₂ (StmtElaboratesTo T g) elseBody elseBody' →
    StmtElaboratesTo T g (.branch location condition thenBody elseBody)
      (.branch location condition' thenBody' elseBody')
  | whileLoop {location condition condition' body body'} : ElaboratesTo T g condition condition' →
    List.Forall₂ (StmtElaboratesTo T g) body body' →
    StmtElaboratesTo T g (.whileLoop location condition body) (.whileLoop location condition' body')
  | forLoop {location loopVar t iterable iterable' body body'} : ElaboratesTo T g iterable iterable' →
    List.Forall₂ (StmtElaboratesTo T g) body body' →
    StmtElaboratesTo T g (.forLoop location loopVar iterable body)
      (.forLoop location loopVar t iterable' body')
  | breakLoop {location} : StmtElaboratesTo T g (.breakLoop location) (.breakLoop location)
  | continueLoop {location} : StmtElaboratesTo T g (.continueLoop location) (.continueLoop location)

/-- A place with another use. -/
def withUse (use : UseKind) : Typed.Expr → Typed.Expr
  | .name location t n _ => .name location t n use
  | .field location t object label index _ => .field location t object label index use
  | .subscript location t indexed index _ => .subscript location t indexed index use
  | e => e

theorem type_withUse (use : UseKind) (e : Typed.Expr) : (withUse use e).type = e.type := by
  cases e <;> rfl

theorem subst_withUse (S : Substitution) (use : UseKind) (e : Typed.Expr) :
    (withUse use e).subst S = withUse use (e.subst S) := by
  cases e <;> rfl

theorem ElaboratesTo.withUse {T : SignatureTable} {g : Generics} (use : UseKind) {e : Source.Expr}
    {typed : Typed.Expr} : ElaboratesTo T g e typed → ElaboratesTo T g e (withUse use typed)
  | .name => .name
  | .field object => .field object
  | .subscript indexed index => .subscript indexed index
  | .annotated h => .annotated (h.withUse use)
  | .int => .int
  | .float => .float
  | .bool => .bool
  | .natParam known => .natParam known
  | .fnRef known => .fnRef known
  | .tuple elems => .tuple elems
  | .array elems => .array elems
  | .call args calls => .call args calls
  | .methodCall receiver args calls => .methodCall receiver args calls
  | .binary op left right calls => .binary op left right calls
  | .unary op operand calls => .unary op operand calls

/-! ## Records -/

/-- What the use of a place says about its type, in a run that ends with the substitution `S` and
    the memory `M`. -/
def Recorded (S : Substitution) (M : ClassMemo) (context : UseKind) (t : Ty) (use : UseKind) :
    Prop :=
  (¬ t.Ground ∧ use = context) ∨ ∃ m m' c, m.Grows M ∧
    ClassMemo.classify (t.subst S) m = .ok c m' ∧ use = if c = .copyable then .read else context

/-- What is known of an expression that is used as `context`, apart from its operands.  If `H`
    holds, the types of bindings are determined. -/
def Noted (H : Prop) (S : Substitution) (M : ClassMemo) (context : UseKind) : Expr → Prop
  | .int _ t value => t = .int ∨ t = .nat ∧ 0 ≤ value
  | .call _ _ target args => target.ownership.length = args.length ∧
    (target.kind = .localValue → H → ∀ e ∈ args, e.type.GroundIn S)
  | .name _ t _ use => (H → t.Ground) ∧ Recorded S M context t use
  | .field _ t object _ _ use =>
    (object.type.Ground → (∀ d ts ns, object.type = .struct d ts ns → d.plain) → t.Ground) ∧
      Recorded S M context t use
  | .subscript _ t indexed _ use =>
    (indexed.type.Ground → t.Ground) ∧ Recorded S M context t use
  | _ => True

/-- What is known of an expression that is used as `context`, and of the expressions within it. -/
def AllNoted (H : Prop) (S : Substitution) (M : ClassMemo) (context : UseKind) (e : Expr) : Prop :=
  ∀ c n, e.Site context c n → Noted H S M c n

section

variable {H : Prop} {S : Substitution} {M : ClassMemo} {context c use : UseKind} {t : Ty} {e : Expr}

theorem Recorded.use_eq (h : Recorded S M context t use) : use = .read ∨ use = context := by
  rcases h with ⟨-, h⟩ | ⟨m, m', c, -, -, h⟩
  · exact .inr h
  · split at h
    · exact .inl h
    · exact .inr h

theorem allNoted_iff : AllNoted H S M context e ↔
    Noted H S M context e ∧ ∀ x ∈ e.operands, AllNoted H S M x.1 x.2 := by
  refine ⟨fun h => ⟨h _ _ .self, fun x hx c n site => h c n (Expr.site_iff.mpr (.inr ⟨x, hx, site⟩))⟩,
    fun h c n site => ?_⟩
  rcases Expr.site_iff.mp site with ⟨rfl, rfl⟩ | ⟨x, hx, site⟩
  · exact h.1
  · exact h.2 x hx c n site

theorem allNoted_leaf (none : e.operands = []) (h : Noted H S M context e) :
    AllNoted H S M context e :=
  allNoted_iff.mpr ⟨h, by simp [none]⟩

end

/-- What is known of a checked expression that is used as `context`. -/
structure Account (Γ : Scope) (H : Prop) (S : Substitution) (M : ClassMemo) (context : UseKind)
    (e : Source.Expr) (typed : Expr) : Prop where
  noted : AllNoted H S M context typed
  faithful : Γ.table.Keyed → ElaboratesTo Γ.table Γ.generics e (typed.subst S)

/-- What is known of checked arguments that are passed to parameters. -/
structure ArgsAccount (Γ : Scope) (H : Prop) (S : Substitution) (M : ClassMemo)
    (params : List ParamType) (args : List Source.Expr) (typed : List Expr) : Prop where
  noted : ∀ x ∈ Typed.argUses (params.map (·.ownership)) typed, AllNoted H S M x.1 x.2
  fit : List.Forall₂ (fun p e => (p.type.subst S).equal (e.type.subst S)) params typed
  faithful : Γ.table.Keyed →
    List.Forall₂ (ElaboratesTo Γ.table Γ.generics) args (Expr.substAll S typed)

/-- What is known of checked elements. -/
structure ElemsAccount (Γ : Scope) (H : Prop) (S : Substitution) (M : ClassMemo)
    (elems : List Source.Expr) (typed : List Expr) : Prop where
  noted : ∀ e ∈ typed, AllNoted H S M .consume e
  faithful : Γ.table.Keyed →
    List.Forall₂ (ElaboratesTo Γ.table Γ.generics) elems (Expr.substAll S typed)

theorem Account.cons {Γ : Scope} {H : Prop} {S : Substitution} {M : ClassMemo} {e : Source.Expr}
    {typed : Expr} {es : List Source.Expr} {rest : List Expr} (h : Account Γ H S M .consume e typed)
    (hs : ElemsAccount Γ H S M es rest) : ElemsAccount Γ H S M (e :: es) (typed :: rest) :=
  ⟨List.forall_mem_cons.mpr ⟨h.noted, hs.noted⟩,
    fun keyed => .cons (h.faithful keyed) (hs.faithful keyed)⟩

/-! ## Computations -/

/-- Every binding has a ground type. -/
def Env.Determined (env : Env) : Prop := ∀ {n t}, env.bindings.get? n = some t → t.Ground

/-- All bindings have determined types, also where loops are left. -/
structure Fixed (s : BodyState) : Prop where
  env : s.env.Determined
  jumps : ∀ frame ∈ s.loops, ∀ e ∈ frame.breaks ++ frame.continues, e.Determined

/-- More has been found out and remembered, and if `H` holds, bindings have determined types. -/
structure Later (H : Prop) (s s' : BodyState) : Prop where
  advances : s.subs.Advances s'.subs
  memo : s.memo.Grows s'.memo
  fixed : H → Fixed s'

/-- A computation keeps bindings determined if `H` holds.  Of its result `D` holds, and `P` under
    all that may be found out and remembered later. -/
def Notes {α : Type} (H : Prop) (D : α → Prop) (P : Substitution → ClassMemo → α → Prop)
    (x : Check α) : Prop :=
  ∀ s a s', s.subs.Solved → (H → Fixed s) → x s = .ok a s' → Later H s s' ∧ D a ∧
    ∀ S M, s'.subs.Refines S → s'.memo.Grows M → P S M a

/-- A computation keeps bindings determined if `H` holds, and `D` holds of its result. -/
abbrev Fixes {α : Type} (H : Prop) (D : α → Prop) (x : Check α) : Prop :=
  Notes H D (fun _ _ _ => True) x

theorem Inferred.later {H : Prop} {s s' : BodyState} (h : Inferred s s') (hS : s.subs.Solved)
    (hs : H → Fixed s) : Later H s s' :=
  ⟨h.advances hS, h.memo, fun hH => ⟨h.env ▸ (hs hH).env, h.loops ▸ (hs hH).jumps⟩⟩

namespace Notes

variable {α β : Type} {H : Prop} {D : α → Prop} {E : β → Prop}
  {P : Substitution → ClassMemo → α → Prop} {Q : Substitution → ClassMemo → β → Prop}
  {x : Check α}

theorem pure {a : α} (hD : D a) (h : ∀ S M, P S M a) : Notes H D P (pure a) := by
  rintro s _ _ hS hs ⟨⟩
  exact ⟨(Inferred.refl s).later hS hs, hD, fun S M _ _ => h S M⟩

/-- **One computation after another.**  What is known of the result of the first is known of what
    comes later. -/
theorem bind {f : α → Check β} (hx : Notes H D P x)
    (hf : ∀ a, D a → Notes H E (fun S M b => P S M a → Q S M b) (f a)) :
    Notes H E Q (x >>= f) := by
  intro s b s' hS hs h
  obtain ⟨a, s₁, ha, hb⟩ := bind_eq_ok.mp h
  obtain ⟨first, hD, hP⟩ := hx s a s₁ hS hs ha
  obtain ⟨second, hE, hQ⟩ := hf a hD s₁ b s' first.advances.solved first.fixed hb
  refine ⟨⟨first.advances.trans second.advances, first.memo.trans second.memo, second.fixed⟩, hE,
    fun S M hr hm => hQ S M hr hm ?_⟩
  exact hP S M (second.advances.refines.trans hr) (second.memo.trans hm)

theorem mono {P' : Substitution → ClassMemo → α → Prop} (hx : Notes H D P x)
    (h : ∀ S M a, P S M a → P' S M a) : Notes H D P' x := by
  intro s a s' hS hs ha
  obtain ⟨later, hD, hP⟩ := hx s a s' hS hs ha
  exact ⟨later, hD, fun S M hr hm => h S M a (hP S M hr hm)⟩

theorem after {f : α → Check β} (hx : Notes H D P x) (hf : ∀ a, D a → Notes H E Q (f a)) :
    Notes H E Q (x >>= f) :=
  hx.bind fun a ha => (hf a ha).mono fun _ _ _ h _ => h

theorem of_infers {N : Env → α → Prop} (hx : ∀ env, Infers env (N env) x) (h : Returns D x) :
    Fixes H D x := by
  intro s a s' hS hs ha
  exact ⟨(hx s.env s a s' rfl ha).1.later hS hs, h s a s' ha, fun _ _ _ _ => trivial⟩

theorem infers {N : Env → α → Prop} (hx : ∀ env, Infers env (N env) x) :
    Fixes H (fun _ => True) x :=
  of_infers hx Returns.any

theorem get : Fixes H (fun s => H → Fixed s) (get : Check BodyState) := by
  rintro s _ _ hS hs ⟨⟩
  exact ⟨(Inferred.refl s).later hS hs, hs, fun _ _ _ _ => trivial⟩

theorem modify {f : BodyState → BodyState} (subs : ∀ s, (f s).subs = s.subs)
    (memo : ∀ s, (f s).memo = s.memo) (fixed : ∀ s, H → Fixed s → Fixed (f s)) :
    Fixes H (fun _ => True) (modify f) := by
  rintro s _ _ hS hs ⟨⟩
  refine ⟨⟨?_, ?_, fun hH => fixed s hH (hs hH)⟩, trivial, fun _ _ _ _ => trivial⟩
  · rw [subs]
    exact .refl hS
  · rw [memo]
    exact .refl _

theorem reject {location : Location} {cause : Cause} :
    Notes H D P (Analysis.reject location cause) :=
  fun _ _ _ _ _ h => absurd h reject_ne_ok

theorem guard {c : Prop} [Decidable c] {location : Location} {cause : Cause}
    {f : PUnit → Check β} (hf : Notes H E Q (f ⟨⟩)) :
    Notes H E Q (if c then Analysis.reject location cause >>= f else f ⟨⟩) := by
  split
  · have rejected : Fixes H (fun _ => True) (Analysis.reject location cause : Check PUnit) := reject
    exact rejected.after fun _ _ => hf
  · exact hf

end Notes

/-! ## Places -/

namespace Check

variable {H : Prop} {Γ : Scope} {location : Location} {context : UseKind} {S : Substitution}
  {M : ClassMemo} {call : OpenCall} {args : List Source.Expr} {typed : List Expr}

theorem resolve_returns (t : Ty) : Returns (fun u => t.Ground → u = t) (resolve t) := by
  intro s u s' h
  obtain ⟨rfl, -⟩ := resolve_eq_ok h
  exact Ty.subst_of_determined

theorem resolve_notes (t : Ty) :
    Notes H (fun _ => True) (fun S _ u => u.subst S = t.subst S) (resolve t) := by
  intro s u s' hS hs h
  refine ⟨(resolve_infers t s u s' rfl h).1.later hS hs, trivial, fun S M hr _ => ?_⟩
  obtain ⟨rfl, rfl⟩ := resolve_eq_ok h
  exact hr.subst t

theorem expect_notes (e : Expr) (t : Ty) (what : String) : Notes H (fun _ => True)
    (fun S _ _ => (t.subst S).equal (e.type.subst S)) (expect e t location what) := by
  intro s _ s' hS hs h
  obtain ⟨inferred, equal⟩ := unifyAt_eq_ok h
  refine ⟨inferred.later hS hs, trivial, fun S M hr _ => ?_⟩
  have known := Ty.equal_subst S (equal hS)
  rwa [hr.subst, hr.subst] at known

theorem placeUse_notes (t : Ty) :
    Notes H (fun _ => True) (fun S M use => Recorded S M context t use) (placeUse t context) := by
  intro s use s' hS hs h
  obtain ⟨inferred, -⟩ := placeUse_infers t context s use s' rfl h
  refine ⟨inferred.later hS hs, trivial, fun S M hr hm => ?_⟩
  obtain ⟨_, s₀, ht, h⟩ := bind_eq_ok.mp h
  obtain ⟨rfl, rfl⟩ := resolve_eq_ok ht
  split at h
  · rename_i undetermined
    obtain ⟨rfl, -⟩ := pure_eq_ok.mp h
    refine .inl ⟨fun ground => ?_, rfl⟩
    rw [Ty.subst_of_determined ground, Ty.ground_iff.mp ground] at undetermined
    cases undetermined
  · rename_i determined
    obtain ⟨c, s₁, hc, h⟩ := bind_eq_ok.mp h
    obtain ⟨rfl, rfl⟩ := pure_eq_ok.mp h
    -- The type is determined, so it stays as it is.
    have final : t.subst S = t.subst s₀.subs := by
      have ground := Ty.ground_iff.mpr (Bool.not_eq_true _ ▸ determined)
      rw [← ((inferred.advances hS).refines.trans hr).subst, Ty.subst_of_determined ground]
    unfold classify at hc
    split at hc
    · rename_i memo known
      cases hc
      exact .inr ⟨s₀.memo, memo, c, inferred.memo.trans hm, final ▸ known, rfl⟩
    · cases hc

theorem setUse_notes (c : UseKind) (e : Expr) : Notes H (fun _ => True)
    (fun S M e' => ∃ use, e' = withUse use e ∧
      (AllNoted H S M c e → AllNoted H S M context (withUse use e))) (setUse context e) := by
  have place : ∀ {t : Ty} {f : UseKind → Expr}, (∀ use, f use = withUse use e) →
      (∀ use, (f use).operands = e.operands) →
      (∀ S M use, Noted H S M c e → Recorded S M context t use → Noted H S M context (f use)) →
      Notes H (fun _ => True) (fun S M e' => ∃ use, e' = withUse use e ∧
        (AllNoted H S M c e → AllNoted H S M context (withUse use e)))
        (do return f (← placeUse t context)) := fun same operands noted =>
    (placeUse_notes _).bind fun use _ => .pure trivial fun S M recorded => by
      refine ⟨use, same use, fun known => ?_⟩
      rw [← same, allNoted_iff, operands]
      rw [allNoted_iff] at known
      exact ⟨noted S M use known.1 recorded, known.2⟩
  have other : withUse context e = e → (∀ S M, Noted H S M c e → Noted H S M context e) →
      Notes H (fun _ => True) (fun S M e' => ∃ use, e' = withUse use e ∧
        (AllNoted H S M c e → AllNoted H S M context (withUse use e))) (pure e) := fun same noted =>
    .pure trivial fun S M => ⟨context, same.symm, fun known => by
      rw [same]
      rw [allNoted_iff] at known ⊢
      exact ⟨noted S M known.1, known.2⟩⟩
  cases e with
  | name | field | subscript =>
    exact place (fun _ => rfl) (fun _ => rfl) fun _ _ _ known recorded => ⟨known.1, recorded⟩
  | _ => exact other rfl fun _ _ => id

theorem binding?_notes (n : String) :
    Fixes H (fun t? => H → ∀ t ∈ t?, t.Ground) (binding? n) :=
  Notes.get.after fun _ hs => .pure (fun hH _ ht => (hs hH).env ht) fun _ _ => trivial

theorem lookupName_notes (n : String) :
    Notes H (fun _ => True) (fun S M e => Account Γ H S M context (.name location n) e)
      (lookupName Γ location n context) := by
  refine (binding?_notes n).after fun t? ht => ?_
  split
  · refine (placeUse_notes _).bind fun use _ => .pure trivial fun S M recorded => ?_
    exact ⟨allNoted_leaf rfl ⟨fun hH => ht hH _ rfl, recorded⟩, fun _ => .name⟩
  · refine .guard ?_
    split
    · rename_i known
      exact .pure trivial fun _ _ => ⟨allNoted_leaf rfl trivial, fun _ => .natParam known⟩
    · split
      · rename_i s known
        exact .guard (.pure trivial fun _ _ =>
          ⟨allNoted_leaf rfl trivial, fun _ => .fnRef (Option.isSome_of_mem known)⟩)
      · exact .reject

theorem fieldOf_returns (object : Expr) (label : String) : Returns
    (fun p => object.type.Ground → (∀ d ts ns, object.type = .struct d ts ns → d.plain) →
      p.2.Ground) (fieldOf location object label) := by
  refine (resolve_returns object.type).bind fun t ht => ?_
  split
  · rename_i decl typeArgs natArgs
    split
    · exact .reject
    · have instantiated : Returns (fun fields => decl.instantiateFields typeArgs natArgs = .ok fields)
          (.ofDefect (decl.instantiateFields typeArgs natArgs) : Check _) :=
        fun _ _ _ h => (ofDefect_eq_ok.mp h).1
      refine instantiated.bind fun fields hf => ?_
      split
      · rename_i f known
        refine .pure fun ground plain => ?_
        have same := ht ground
        have own : ∀ f ∈ decl.fields, f.type.Ground := fun f hf =>
          Ty.ground_iff.mpr (by simpa using List.all_eq_true.mp (plain _ _ _ same.symm) f hf)
        exact Ty.groundIn_empty.mp (StructDecl.groundIn_of_instantiateFields own
          (Ty.groundIn_empty.mpr (same ▸ ground)) hf f (List.mem_of_getElem? known))
      · exact .reject
  · exact .reject

theorem elementOf_returns (indexed : Expr) :
    Returns (fun t => indexed.type.Ground → t.Ground) (elementOf location indexed) := by
  refine (resolve_returns indexed.type).bind fun t ht => ?_
  split
  · exact .pure fun ground => (Ty.ground_array.mp (ht ground ▸ ground)).1
  · exact .reject

theorem literalType_returns (expected : Option Ty) (value : Int64) :
    Returns (fun t => t = .int ∨ t = .nat ∧ 0 ≤ value) (literalType expected value) := by
  unfold literalType
  split
  · exact .pure (.inl rfl)
  · refine Returns.after fun t => .pure ?_
    split
    · rename_i natural
      exact .inr ⟨rfl, natural.1⟩
    · exact .inl rfl

theorem tupleHints_returns (expected : Option Ty) (count : Nat) :
    Returns (·.length = count) (tupleHints expected count) := by
  unfold tupleHints
  split
  · exact .pure (List.length_replicate ..)
  · refine Returns.after fun t => ?_
    split
    · refine .pure ?_
      split
      · rename_i same
        rw [List.length_map, same]
      · exact List.length_replicate ..
    · exact .pure (List.length_replicate ..)

theorem operatorMethod_returns (op : String) (method? : Option String) :
    Returns (fun method => method? = some method) (operatorMethod location op method?) := by
  cases method? with
  | some method => exact .pure rfl
  | none => exact .reject

/-! ## Calls -/

theorem checkArity_returns (callee : String) (expected given : Nat) :
    Returns (fun _ => given = expected) (checkArity location callee expected given) := by
  unfold checkArity
  split
  · rename_i h
    exact .pure h
  · exact .reject

/-- A call of a registered function is open for `count` arguments, without a receiver so far. -/
structure OpenCall.Opens (s : Signature) (kind : Typed.CallKind) (count : Nat) (call : OpenCall) :
    Prop where
  callee : call.callee = s.name
  kind : call.kind = kind
  receiver : call.receiver = none
  count : call.params.length = count

theorem openSignature_opens (s : Signature) (kind : Typed.CallKind) (count : Nat)
    (expected : Option Ty) :
    Returns (OpenCall.Opens s kind count) (openSignature location s kind count expected) := by
  refine (checkArity_returns s.name _ count).bind fun _ hcount => ?_
  refine Returns.after fun inst => Returns.after fun _ => .pure ⟨rfl, rfl, rfl, ?_⟩
  rw [List.length_map]
  exact hcount.symm

theorem lookup_returns (T : SignatureTable) (name : String) :
    Returns (fun s => T.find? name = some s) (T.lookup name location : Check Signature) := by
  unfold SignatureTable.lookup
  split
  · rename_i s known
    exact .pure known
  · exact .reject

/-- A call by name is open for `count` arguments.  If `H` holds, the parameters of a local binding
    have determined types. -/
structure OpenCall.ByName (T : SignatureTable) (H : Prop) (callee : String) (count : Nat)
    (call : OpenCall) : Prop where
  calls : T.Keyed → CallsByName T callee call.target
  receiver : call.receiver = none
  count : call.params.length = count
  params : call.kind = .localValue → H → ∀ p ∈ call.params, p.type.Ground

theorem openCall_notes (callee : String) (count : Nat) (expected : Option Ty) :
    Fixes H (OpenCall.ByName Γ.table H callee count)
      (openCall Γ location callee count expected) := by
  refine (binding?_notes callee).after fun t? ht => ?_
  split
  · rename_i t
    refine (Notes.of_infers (fun _ => resolve_infers t) (resolve_returns t)).after fun u hu => ?_
    split
    · refine (Notes.of_infers (fun _ => checkArity_infers location callee _ count)
        (checkArity_returns callee _ count)).after fun _ hcount => ?_
      refine (Notes.infers fun _ => expectResult_infers location callee expected _).after fun _ _ =>
        .pure ⟨fun _ => ⟨rfl, .inl rfl⟩, rfl, hcount.symm, fun _ hH => ?_⟩ fun _ _ => trivial
      have ground := ht hH t rfl
      rw [← hu ground] at ground
      exact (Ty.ground_fn.mp ground).1
    · exact .reject
  · refine .guard ((Notes.of_infers (fun _ => lookup_infers Γ.table callee location)
      (lookup_returns Γ.table callee)).after fun s known => ?_)
    refine .of_infers (fun _ => openSignature_infers location s _ count expected)
      fun r call r' h => ?_
    have opens := openSignature_opens s _ count expected r call r' h
    refine ⟨fun keyed => ⟨opens.callee.trans (keyed known), .inr ⟨?_, opens.kind⟩⟩, opens.receiver,
      opens.count, fun kind => ?_⟩
    · exact Option.isSome_of_mem known
    · rw [opens.kind] at kind
      split at kind <;> cases kind

theorem findMethod?_subst {T : SignatureTable} {t : Ty} {method : String} {s : Signature}
    (h : T.findMethod? t method = some s) (S : Substitution) :
    T.findMethod? (t.subst S) method = some s := by
  cases t with
  | prim => rwa [Ty.subst_prim]
  | struct => rwa [Ty.subst_struct]
  | _ => cases h

/-- A method call is opened on its receiver. -/
structure OpenCall.OnReceiver (T : SignatureTable) (H : Prop) (receiver : Expr) (method : String)
    (S : Substitution) (M : ClassMemo) (call : OpenCall) : Prop where
  calls : CallsMethod T (receiver.subst S).type method call.target
  receiver : ∃ use passed, call.receiver = some (withUse use receiver, passed) ∧
    (AllNoted H S M .borrow receiver → AllNoted H S M (useFor passed) (withUse use receiver))

theorem openMethodCall_notes (receiver : Expr) (method : String) (count : Nat)
    (expected : Option Ty) : Notes H (fun call => call.params.length = count)
      (OpenCall.OnReceiver Γ.table H receiver method)
      (openMethodCall Γ location receiver method count expected) := by
  refine (resolve_notes receiver.type).bind fun t _ => ?_
  split
  · exact .guard .reject
  · rename_i s known
    refine (Notes.of_infers (fun _ => openSignature_infers location s .method (count + 1) expected)
      (openSignature_opens s .method (count + 1) expected)).after fun call opens => ?_
    have hcount := opens.count
    split
    · rename_i self params hparams
      rw [hparams, List.length_cons, Nat.add_right_cancel_iff] at hcount
      refine (Notes.infers fun _ => expect_infers receiver _ location _).after fun _ _ => ?_
      refine (setUse_notes .borrow receiver).bind fun receiver' _ => .pure hcount ?_
      rintro S M ⟨use, rfl, noted⟩ resolved
      refine ⟨⟨opens.kind, s, ?_, opens.callee⟩, use, _, rfl, noted⟩
      rw [Expr.type_subst, ← resolved]
      exact findMethod?_subst known S
    · rename_i hparams
      simp [hparams] at hcount

/-- What a call is when its arguments have been checked. -/
def OpenCall.closed (call : OpenCall) (location : Location) (args : List Expr) : Expr :=
  .call location call.result call.target (call.receivers.map (·.1) ++ args)

theorem closeCall_notes (call : OpenCall) (args : List Expr) :
    Notes H (fun _ => True) (fun _ _ e => e = call.closed location args)
      (closeCall location call args) := by
  intro s e s' hS hs h
  obtain ⟨rfl, rfl⟩ := closeCall_eq_ok h
  exact ⟨⟨.refl hS, .refl _, fun hH => ⟨(hs hH).env, (hs hH).jumps⟩⟩, trivial, fun _ _ _ _ => rfl⟩

theorem groundIn_of_fit {params : List ParamType} {args : List Expr}
    (fit : List.Forall₂ (fun p e => (p.type.subst S).equal (e.type.subst S)) params args)
    (ground : ∀ p ∈ params, p.type.Ground) : ∀ e ∈ args, e.type.GroundIn S := by
  induction fit with
  | nil => exact List.forall_mem_nil _
  | cons equal _ ih =>
    obtain ⟨first, rest⟩ := List.forall_mem_cons.mp ground
    exact List.forall_mem_cons.mpr ⟨first.groundIn.equal equal, ih rest⟩

theorem OpenCall.allNoted_closed (receivers : ∀ r ∈ call.receivers, AllNoted H S M (useFor r.2) r.1)
    (params : call.kind = .localValue → H → call.receiver = none ∧ ∀ p ∈ call.params, p.type.Ground)
    (h : ArgsAccount Γ H S M call.params args typed) :
    AllNoted H S M context (call.closed location typed) := by
  have count : (call.params.map (·.ownership)).length = typed.length := by
    rw [List.length_map, h.fit.length_eq]
  rw [allNoted_iff, OpenCall.closed, Noted, Expr.operands, OpenCall.target]
  unfold OpenCall.receivers at receivers ⊢
  revert receivers params
  cases call.receiver with
  | none =>
    exact fun _ params =>
      ⟨⟨count, fun kind hH => groundIn_of_fit h.fit (params kind hH).2⟩, h.noted⟩
  | some r =>
    refine fun receivers params => ⟨⟨congrArg (· + 1) count, fun kind hH => ?_⟩,
      List.forall_mem_cons.mpr ⟨receivers r (List.mem_singleton_self r), h.noted⟩⟩
    cases (params kind hH).1

/-- **What is known of a call by name**, if it is known of its arguments. -/
theorem OpenCall.ByName.account {callee : String} {count : Nat}
    (h : call.ByName Γ.table H callee count) (hargs : ArgsAccount Γ H S M call.params args typed) :
    Account Γ H S M context (.call location callee args) (call.closed location typed) := by
  refine ⟨OpenCall.allNoted_closed (by simp [OpenCall.receivers, h.receiver])
    (fun kind hH => ⟨h.receiver, h.params kind hH⟩) hargs, fun keyed => ?_⟩
  rw [OpenCall.closed, OpenCall.receivers, h.receiver]
  exact .call (hargs.faithful keyed) ⟨(h.calls keyed).named, (h.calls keyed).kind⟩

/-- **What is known of a call on a receiver**, if it is known of the receiver and the arguments. -/
theorem OpenCall.OnReceiver.account {e e₀ : Source.Expr} {receiver : Expr} {method : String}
    (h : call.OnReceiver Γ.table H receiver method S M)
    (hreceiver : Account Γ H S M .borrow e₀ receiver)
    (hargs : ArgsAccount Γ H S M call.params args typed)
    (elaborates : ∀ {receiver' t target args'}, ElaboratesTo Γ.table Γ.generics e₀ receiver' →
      List.Forall₂ (ElaboratesTo Γ.table Γ.generics) args args' →
      CallsMethod Γ.table receiver'.type method target →
      ElaboratesTo Γ.table Γ.generics e (.call location t target (receiver' :: args'))) :
    Account Γ H S M context e (call.closed location typed) := by
  obtain ⟨use, passed, hr, noted⟩ := h.receiver
  have known : call.receivers = [(withUse use receiver, passed)] := by
    rw [OpenCall.receivers, hr]
    rfl
  refine ⟨OpenCall.allNoted_closed ?_ (fun kind => ?_) hargs, fun keyed => ?_⟩
  · rw [known]
    exact List.forall_mem_singleton.mpr (noted hreceiver.noted)
  · cases h.calls.kind.symm.trans kind
  · rw [OpenCall.closed, known]
    refine elaborates ?_ (hargs.faithful keyed) ⟨h.calls.kind, ?_⟩
    · rw [subst_withUse]
      exact (hreceiver.faithful keyed).withUse use
    · rw [subst_withUse, type_withUse]
      exact h.calls.selected

end Check

/-! ## Expressions -/

section

variable {H : Prop} {Γ : Scope}

mutual

/-- **What is known of a checked expression.**  It is the source expression with types. -/
theorem checkExpr_notes (expected : Option Ty) (context : UseKind) : ∀ e : Source.Expr,
    Notes H (fun _ => True) (fun S M typed => Account Γ H S M context e typed)
      (checkExpr Γ expected context e)
  | .int location value =>
    (Notes.of_infers (fun _ => literalType_infers expected value)
      (literalType_returns expected value)).after fun _ ht =>
        .pure trivial fun _ _ => ⟨allNoted_leaf rfl ht, fun _ => .int⟩
  | .float location value => .pure trivial fun _ _ => ⟨allNoted_leaf rfl trivial, fun _ => .float⟩
  | .bool location value => .pure trivial fun _ _ => ⟨allNoted_leaf rfl trivial, fun _ => .bool⟩
  | .name location n => lookupName_notes n
  | .tuple location elems => by
    refine (Notes.of_infers (fun _ => tupleHints_infers expected elems.length)
      (tupleHints_returns expected elems.length)).after fun hints count => ?_
    refine (checkElems_notes hints elems count).bind fun typed _ => .pure trivial fun S M h => ?_
    exact ⟨allNoted_iff.mpr ⟨trivial, List.forall_mem_map.mpr h.noted⟩,
      fun keyed => .tuple (h.faithful keyed)⟩
  | .array location elems => by
    refine (Notes.infers fun _ => arrayHint_infers expected).after fun elem _ => ?_
    refine (checkMembers_notes elem elems).bind fun typed _ => ?_
    refine (Notes.infers fun _ => resolve_infers elem).after fun _ _ => .pure trivial fun S M h => ?_
    exact ⟨allNoted_iff.mpr ⟨trivial, List.forall_mem_map.mpr h.noted⟩,
      fun keyed => .array (h.faithful keyed)⟩
  | .call location callee args => by
    refine (openCall_notes callee args.length expected).after fun call hcall => ?_
    refine (checkArgs_notes call.callee call.params args hcall.count).bind fun typed _ => ?_
    refine (closeCall_notes call typed).mono ?_
    rintro S M _ rfl hargs
    exact hcall.account hargs
  | .methodCall location receiver method args => by
    refine (checkExpr_notes none .borrow receiver).bind fun receiver' _ => ?_
    refine (openMethodCall_notes receiver' method args.length expected).bind fun call count => ?_
    refine (checkArgs_notes call.callee call.params args count).bind fun typed _ => ?_
    refine (closeCall_notes call typed).mono ?_
    rintro S M _ rfl hargs hcall hreceiver
    exact hcall.account hreceiver hargs .methodCall
  | .field location object label => by
    refine (checkExpr_notes none .borrow object).bind fun object' _ => ?_
    refine (Notes.of_infers (fun _ => fieldOf_infers location object' label)
      (fieldOf_returns object' label)).after fun found known => ?_
    refine (placeUse_notes found.2).bind fun use _ => .pure trivial fun S M recorded h => ?_
    exact ⟨allNoted_iff.mpr ⟨⟨known, recorded⟩, List.forall_mem_singleton.mpr h.noted⟩,
      fun keyed => .field (h.faithful keyed)⟩
  | .subscript location indexed index => by
    refine (checkExpr_notes none .borrow indexed).bind fun indexed' _ => ?_
    refine (Notes.of_infers (fun _ => elementOf_infers location indexed')
      (elementOf_returns indexed')).after fun elem known => ?_
    refine (checkExpr_notes none .borrow index).bind fun index' _ => ?_
    refine (Notes.infers fun _ => checkIndex_infers index.location index').after fun _ _ => ?_
    refine (placeUse_notes elem).bind fun use _ => .pure trivial fun S M recorded second first => ?_
    exact ⟨allNoted_iff.mpr ⟨⟨known, recorded⟩,
        List.forall_mem_cons.mpr ⟨first.noted, List.forall_mem_singleton.mpr second.noted⟩⟩,
      fun keyed => .subscript (first.faithful keyed) (second.faithful keyed)⟩
  | .binary location op left right => by
    refine (Notes.of_infers (fun _ => operatorMethod_infers location op _)
      (operatorMethod_returns op (binaryMethod? op))).after fun method hmethod => ?_
    refine (checkExpr_notes _ .borrow left).bind fun left' _ => ?_
    refine (Notes.infers fun _ => checkOperator_infers Γ location op method left').after
      fun _ _ => ?_
    refine (openMethodCall_notes left' method 1 _).bind fun call count => ?_
    split
    · rename_i p ps hparams
      -- One argument is left besides the left operand, so there are no other parameters.
      rw [hparams, List.length_cons, Nat.add_eq_right, List.length_eq_zero_iff] at count
      refine (checkExpr_notes (some p.type) _ right).bind fun right' _ => ?_
      refine (expect_notes right' _ _).bind fun _ _ => (closeCall_notes call [right']).mono ?_
      rintro S M _ rfl equal hright hcall hleft
      have hargs : ArgsAccount Γ H S M call.params [right] [right'] := by
        rw [hparams, count]
        exact ⟨List.forall_mem_singleton.mpr hright.noted, .cons equal .nil,
          fun keyed => .cons (hright.faithful keyed) .nil⟩
      refine hcall.account hleft hargs fun first rest calls => ?_
      cases rest with
      | cons second nothing =>
        cases nothing
        exact .binary hmethod first second calls
    · rename_i hparams
      simp [hparams] at count
  | .unary location op operand => by
    refine (Notes.of_infers (fun _ => operatorMethod_infers location op _)
      (operatorMethod_returns op (unaryMethod? op))).after fun method hmethod => ?_
    refine (checkExpr_notes expected .borrow operand).bind fun operand' _ => ?_
    refine (Notes.infers fun _ => checkOperator_infers Γ location op method operand').after
      fun _ _ => ?_
    refine (openMethodCall_notes operand' method 0 _).bind fun call count => ?_
    refine (closeCall_notes call []).mono ?_
    rintro S M _ rfl hcall hoperand
    have hargs : ArgsAccount Γ H S M call.params [] [] := by
      rw [List.length_eq_zero_iff.mp count]
      exact ⟨List.forall_mem_nil _, .nil, fun _ => .nil⟩
    refine hcall.account hoperand hargs fun first rest calls => ?_
    cases rest
    exact .unary hmethod first calls
  | .annotated location expr t => by
    refine (Notes.infers fun _ => Infers.ofExcept).after fun _ _ => ?_
    refine (checkExpr_notes (some t) context expr).bind fun typed _ => ?_
    refine (Notes.infers fun _ => expect_infers typed t location _).after fun _ _ => ?_
    exact .pure trivial fun _ _ h => ⟨h.noted, fun keyed => .annotated (h.faithful keyed)⟩

theorem checkArgs_notes (callee : String) : ∀ (params : List ParamType)
    (args : List Source.Expr), params.length = args.length → Notes H (fun _ => True)
      (fun S M typed => ArgsAccount Γ H S M params args typed) (checkArgs Γ callee params args)
  | p :: ps, e :: es, count => by
    refine (checkExpr_notes (some p.type) (useFor p.ownership) e).bind fun typed _ => ?_
    refine (expect_notes typed _ _).bind fun _ _ => ?_
    refine (checkArgs_notes callee ps es (Nat.succ.inj count)).bind fun rest _ => ?_
    refine .pure trivial fun S M known equal first => ?_
    exact ⟨List.forall_mem_cons.mpr ⟨first.noted, known.noted⟩, .cons equal known.fit,
      fun keyed => .cons (first.faithful keyed) (known.faithful keyed)⟩
  | [], [], _ => .pure trivial fun _ _ => ⟨List.forall_mem_nil _, .nil, fun _ => .nil⟩

theorem checkElems_notes : ∀ (hints : List (Option Ty)) (elems : List Source.Expr),
    hints.length = elems.length → Notes H (fun _ => True)
      (fun S M typed => ElemsAccount Γ H S M elems typed) (checkElems Γ hints elems)
  | hint :: hints, e :: es, count =>
    (checkExpr_notes hint .consume e).bind fun _ _ =>
      (checkElems_notes hints es (Nat.succ.inj count)).bind fun _ _ =>
        .pure trivial fun _ _ rest first => first.cons rest
  | [], [], _ => .pure trivial fun _ _ => ⟨List.forall_mem_nil _, fun _ => .nil⟩

theorem checkMembers_notes (elem : Ty) : ∀ elems : List Source.Expr,
    Notes H (fun _ => True) (fun S M typed => ElemsAccount Γ H S M elems typed)
      (checkMembers Γ elem elems)
  | [] => .pure trivial fun _ _ => ⟨List.forall_mem_nil _, fun _ => .nil⟩
  | e :: es => by
    refine (checkExpr_notes (some elem) .consume e).bind fun typed _ => ?_
    refine (Notes.infers fun _ => expect_infers typed _ _ _).after fun _ _ => ?_
    exact (checkMembers_notes elem es).bind fun _ _ =>
      .pure trivial fun _ _ rest first => first.cons rest

end

end

end Elaboration

end QuantumStatics
