/-
  Typed programs of one shape.

  Two programs are alike if they differ in their types only, and in what a call knows of the
  specialization that it invokes.  A nat parameter that is used as a value may have become a
  literal.  `T t t'` says which types may stand where.
-/
import Mathlib.Data.List.Forall2
import QuantumStatics.Proofs.Ty.Instantiation
import QuantumStatics.Proofs.Typed.WellTyped
import QuantumStatics.Specialization.Request

namespace QuantumStatics.Typed

/-! ## The relation -/

/-- Two calls of the same callee. -/
structure CallTarget.Alike (c c' : CallTarget) : Prop where
  callee : c'.callee = c.callee
  kind : c'.kind = c.kind
  ownership : c'.ownership = c.ownership

theorem CallTarget.Alike.trans {c c₁ c₂ : CallTarget} (h : c.Alike c₁) (h' : c₁.Alike c₂) :
    c.Alike c₂ :=
  ⟨h'.callee.trans h.callee, h'.kind.trans h.kind, h'.ownership.trans h.ownership⟩

/-- Two expressions that differ in their types only. -/
inductive Expr.Alike (T : Ty → Ty → Prop) : Expr → Expr → Prop
  | int {location t t' value} : T t t' → Alike T (.int location t value) (.int location t' value)
  | float {location value} : T .float .float →
    Alike T (.float location value) (.float location value)
  | bool {location value} : T .bool .bool → Alike T (.bool location value) (.bool location value)
  | name {location t t' n use} : T t t' →
    Alike T (.name location t n use) (.name location t' n use)
  | natParam {location n n'} : T .nat .nat → Alike T (.natParam location n) (.natParam location n')
  | natValue {location n value} : T .nat .nat →
    Alike T (.natParam location n) (.int location .nat value)
  | fnRef {location t t' n} : T t t' → Alike T (.fnRef location t n) (.fnRef location t' n)
  | tuple {location t t' elems elems'} : T t t' → List.Forall₂ (Alike T) elems elems' →
    Alike T (.tuple location t elems) (.tuple location t' elems')
  | array {location t t' elems elems'} : T t t' → List.Forall₂ (Alike T) elems elems' →
    Alike T (.array location t elems) (.array location t' elems')
  | call {location t t' c c' args args'} : T t t' → c.Alike c' → List.Forall₂ (Alike T) args args' →
    Alike T (.call location t c args) (.call location t' c' args')
  | field {location t t' object object' label index use} : T t t' → Alike T object object' →
    Alike T (.field location t object label index use) (.field location t' object' label index use)
  | subscript {location t t' indexed indexed' index index' use} : T t t' →
    Alike T indexed indexed' → Alike T index index' →
    Alike T (.subscript location t indexed index use) (.subscript location t' indexed' index' use)

theorem Expr.Alike.type {T : Ty → Ty → Prop} {e e' : Expr} (h : e.Alike T e') :
    T e.type e'.type := by
  cases h <;> assumption

namespace Expr.Alike

variable {T : Ty → Ty → Prop}

theorem location {e e' : Expr} (h : e.Alike T e') : e'.location = e.location := by cases h <;> rfl

theorem root? : ∀ {e e' : Expr}, e.Alike T e' → e'.root? = e.root?
  | _, _, .field _ ho => ho.root?
  | _, _, .subscript _ hi _ => hi.root?
  | _, _, .int _ | _, _, .float _ | _, _, .bool _ | _, _, .name _ | _, _, .natParam _
  | _, _, .natValue _ | _, _, .fnRef _ | _, _, .tuple _ _ | _, _, .array _ _
  | _, _, .call _ _ _ => rfl

theorem base : ∀ {e e' : Expr}, e.Alike T e' → e.base.Alike T e'.base
  | _, _, .field _ ho => ho.base
  | _, _, .subscript _ hi _ => hi.base
  | _, _, .int h => .int h
  | _, _, .float h => .float h
  | _, _, .bool h => .bool h
  | _, _, .name h => .name h
  | _, _, .natParam h => .natParam h
  | _, _, .natValue h => .natValue h
  | _, _, .fnRef h => .fnRef h
  | _, _, .tuple h hs => .tuple h hs
  | _, _, .array h hs => .array h hs
  | _, _, .call h hc hs => .call h hc hs

end Expr.Alike

/-- Two statements that differ in their types only.  If one of two loops runs over an array, the
    other one does. -/
inductive Stmt.Alike (T : Ty → Ty → Prop) : Stmt → Stmt → Prop
  | assign {location target value value'} : value.Alike T value' →
    Alike T (.assign location target value) (.assign location target value')
  | tupleAssign {location targets value value'} : value.Alike T value' →
    Alike T (.tupleAssign location targets value) (.tupleAssign location targets value')
  | expr {location value value'} : value.Alike T value' →
    Alike T (.expr location value) (.expr location value')
  | ret {location value value'} : value.Alike T value' →
    Alike T (.ret location (some value)) (.ret location (some value'))
  | retNone {location} : Alike T (.ret location none) (.ret location none)
  | branch {location condition condition' thenBody thenBody' elseBody elseBody'} :
    condition.Alike T condition' → List.Forall₂ (Alike T) thenBody thenBody' →
    List.Forall₂ (Alike T) elseBody elseBody' →
    Alike T (.branch location condition thenBody elseBody)
      (.branch location condition' thenBody' elseBody')
  | whileLoop {location condition condition' body body'} : condition.Alike T condition' →
    List.Forall₂ (Alike T) body body' →
    Alike T (.whileLoop location condition body) (.whileLoop location condition' body')
  | forLoop {location loopVar t t' iterable iterable' body body'} : T t t' →
    iterable.Alike T iterable' → iterable'.type.array?.isSome = iterable.type.array?.isSome →
    List.Forall₂ (Alike T) body body' →
    Alike T (.forLoop location loopVar t iterable body)
      (.forLoop location loopVar t' iterable' body')
  | breakLoop {location} : Alike T (.breakLoop location) (.breakLoop location)
  | continueLoop {location} : Alike T (.continueLoop location) (.continueLoop location)

theorem Stmt.Alike.location {T : Ty → Ty → Prop} {s s' : Stmt} (h : s.Alike T s') :
    s'.location = s.location := by
  cases h <;> rfl

/-- Two parameters that differ in their types only. -/
structure ParamAlike (T : Ty → Ty → Prop) (p p' : Param) : Prop where
  name : p'.name = p.name
  ownership : p'.ownership = p.ownership
  type : T p.type p'.type

/-- Two functions that differ in their types and in their generic parameters only. -/
structure Function.Alike (T : Ty → Ty → Prop) (f g : Function) : Prop where
  name : g.qualifiedName = f.qualifiedName
  location : g.location = f.location
  params : List.Forall₂ (ParamAlike T) f.params g.params
  body : List.Forall₂ (Stmt.Alike T) f.body g.body

/-! ## Instances -/

mutual

/-- Every `for` loop in a statement runs over an expression that satisfies `C`. -/
def Stmt.EachIterable (C : Expr → Prop) : Stmt → Prop
  | .assign _ _ _ | .tupleAssign _ _ _ | .expr _ _ | .ret _ _ | .breakLoop _ | .continueLoop _ =>
    True
  | .branch _ _ thenBody elseBody =>
    Stmt.EachIterableAll C thenBody ∧ Stmt.EachIterableAll C elseBody
  | .whileLoop _ _ body => Stmt.EachIterableAll C body
  | .forLoop _ _ _ iterable body => C iterable ∧ Stmt.EachIterableAll C body

/-- The same for some statements. -/
def Stmt.EachIterableAll (C : Expr → Prop) : List Stmt → Prop
  | [] => True
  | s :: ss => s.EachIterable C ∧ Stmt.EachIterableAll C ss

end

/-- A replacement that puts arguments for generic parameters.  What becomes of a call has the same
    callee. -/
structure Replacement.Instantiates {σ : Type} (r : Replacement σ) (I : Instantiation) : Prop where
  type {t u : Ty} {s s' : σ} : r.type t s = .ok u s' → u = I.apply t
  nat {n m : NatTerm} {s s' : σ} : r.nat n s = .ok m s' → m = I.applyNat n
  call {location : Location} {c c' : CallTarget} {s s' : σ} : r.call location c s = .ok c' s' →
    c.Alike c'

section

variable {σ : Type} {r : Replacement σ} {I : Instantiation} {K : Ty → Prop}

/-- `t'` is an instance of `t`, which satisfies `K`. -/
def InstanceOf (I : Instantiation) (K : Ty → Prop) (t t' : Ty) : Prop := K t ∧ t' = I.apply t

theorem instanceOf_prim {name : String} {cls : OwnershipClass} (h : K (.prim name cls)) :
    InstanceOf I K (.prim name cls) (.prim name cls) :=
  ⟨h, by rw [Instantiation.apply_eq, Ty.inst_prim]⟩

theorem Replacement.Instantiates.returns_type (hr : r.Instantiates I) {t : Ty} (h : K t) :
    Returns (InstanceOf I K t) (r.type t) :=
  fun _ _ _ ht => ⟨h, hr.type ht⟩

theorem CallTarget.replaceArgs_returns (c : CallTarget) : Returns c.Alike (c.replaceArgs r) :=
  Returns.after fun _ => Returns.after fun _ => .pure ⟨rfl, rfl, rfl⟩

theorem natParamValue_returns {T : Ty → Ty → Prop} (hT : T .nat .nat) (location : Location)
    (name : String) (n : NatTerm) :
    Returns ((Expr.natParam location name).Alike T)
      (natParamValue location name n : Analysis σ Expr) := by
  cases n with
  | const value => exact .pure (.natValue hT)
  | var name => exact .pure (.natParam hT)
  | undet stamp => exact fun _ _ _ h => absurd h defect_ne_ok

/-- The leaf types of literals have a property. -/
structure HoldsOfLiterals (K : Ty → Prop) : Prop where
  float : K .float
  bool : K .bool
  nat : K .nat

mutual

theorem Expr.replace_returns (hr : r.Instantiates I) (hK : HoldsOfLiterals K) : ∀ e : Expr,
    e.EachType K → Returns (e.Alike (InstanceOf I K)) (e.replace r)
  | .int _ _ _, he => (hr.returns_type he).bind fun _ ht => .pure (.int ht)
  | .float _ _, _ => .pure (.float (instanceOf_prim hK.float))
  | .bool _ _, _ => .pure (.bool (instanceOf_prim hK.bool))
  | .name _ _ _ _, he => (hr.returns_type he).bind fun _ ht => .pure (.name ht)
  | .natParam location n, _ =>
    Returns.after fun m => natParamValue_returns (instanceOf_prim hK.nat) location n m
  | .fnRef _ _ _, he => (hr.returns_type he).bind fun _ ht => .pure (.fnRef ht)
  | .tuple _ _ elems, he => by
    refine (hr.returns_type he.1).bind fun _ ht => ?_
    exact (Expr.replaceAll_returns hr hK elems he.2).bind fun _ hes => .pure (.tuple ht hes)
  | .array _ _ elems, he => by
    refine (hr.returns_type he.1).bind fun _ ht => ?_
    exact (Expr.replaceAll_returns hr hK elems he.2).bind fun _ hes => .pure (.array ht hes)
  | .call location _ c args, he => by
    refine c.replaceArgs_returns.bind fun _ replaced => ?_
    refine (hr.returns_type he.1).bind fun _ ht => ?_
    refine (Expr.replaceAll_returns hr hK args he.2.2).bind fun _ hargs => ?_
    have called : ∀ c₁, Returns c₁.Alike (r.call location c₁) := fun _ _ _ _ h => hr.call h
    exact (called _).bind fun _ hc => .pure (.call ht (replaced.trans hc) hargs)
  | .field _ _ object _ _ _, he => by
    refine (hr.returns_type he.1).bind fun _ ht => ?_
    exact (Expr.replace_returns hr hK object he.2).bind fun _ ho => .pure (.field ht ho)
  | .subscript _ _ indexed index _, he => by
    refine (hr.returns_type he.1).bind fun _ ht => ?_
    refine (Expr.replace_returns hr hK indexed he.2.1).bind fun _ hindexed => ?_
    exact (Expr.replace_returns hr hK index he.2.2).bind fun _ hindex =>
      .pure (.subscript ht hindexed hindex)

theorem Expr.replaceAll_returns (hr : r.Instantiates I) (hK : HoldsOfLiterals K) :
    ∀ es : List Expr, Expr.EachTypeAll K es →
      Returns (List.Forall₂ (Expr.Alike (InstanceOf I K)) es) (Expr.replaceAll r es)
  | [], _ => .pure .nil
  | e :: es, he =>
    (Expr.replace_returns hr hK e he.1).bind fun _ first =>
      (Expr.replaceAll_returns hr hK es he.2).bind fun _ rest => .pure (.cons first rest)

end

/-- An expression whose type is a variable does not get an array type. -/
def GivesNoArray (I : Instantiation) (e : Expr) : Prop :=
  ∀ p, e.type = .var p → (I.apply e.type).array? = none

theorem GivesNoArray.array?_apply {e : Expr} (h : GivesNoArray I e) :
    (I.apply e.type).array?.isSome = e.type.array?.isSome := by
  rw [Instantiation.apply_eq]
  cases he : e.type with
  | var p =>
    have other := h p he
    rw [Instantiation.apply_eq, he] at other
    rw [other]
    rfl
  | prim | undet | tuple | array | struct | fn | option => simp [Ty.array?]

mutual

/-- **Putting arguments for generic parameters gives a statement that is alike**, if no loop runs
    over a value of which only the instances know the type. -/
theorem Stmt.replace_returns (hr : r.Instantiates I) (hK : HoldsOfLiterals K) : ∀ x : Stmt,
    x.EachType K → x.EachIterable (GivesNoArray I) →
      Returns (x.Alike (InstanceOf I K)) (x.replace r)
  | .assign _ _ value, hx, _ =>
    (value.replace_returns hr hK hx).bind fun _ hv => .pure (.assign hv)
  | .tupleAssign _ _ value, hx, _ =>
    (value.replace_returns hr hK hx).bind fun _ hv => .pure (.tupleAssign hv)
  | .expr _ value, hx, _ => (value.replace_returns hr hK hx).bind fun _ hv => .pure (.expr hv)
  | .ret _ none, _, _ => .pure .retNone
  | .ret _ (some value), hx, _ =>
    (value.replace_returns hr hK (hx value rfl)).bind fun _ hv => .pure (.ret hv)
  | .branch _ condition thenBody elseBody, hx, hl => by
    refine (condition.replace_returns hr hK hx.1).bind fun _ hc => ?_
    refine (Stmt.replaceAll_returns hr hK thenBody hx.2.1 hl.1).bind fun _ first => ?_
    exact (Stmt.replaceAll_returns hr hK elseBody hx.2.2 hl.2).bind fun _ other =>
      .pure (.branch hc first other)
  | .whileLoop _ condition body, hx, hl => by
    refine (condition.replace_returns hr hK hx.1).bind fun _ hc => ?_
    exact (Stmt.replaceAll_returns hr hK body hx.2 hl).bind fun _ hb => .pure (.whileLoop hc hb)
  | .forLoop _ _ _ iterable body, hx, hl => by
    refine (hr.returns_type hx.1).bind fun _ ht => ?_
    refine (iterable.replace_returns hr hK hx.2.1).bind fun _ alike => ?_
    refine (Stmt.replaceAll_returns hr hK body hx.2.2 hl.2).bind fun _ hb => .pure ?_
    refine .forLoop ht alike ?_ hb
    rw [alike.type.2, hl.1.array?_apply]
  | .breakLoop _, _, _ => .pure .breakLoop
  | .continueLoop _, _, _ => .pure .continueLoop

theorem Stmt.replaceAll_returns (hr : r.Instantiates I) (hK : HoldsOfLiterals K) :
    ∀ xs : List Stmt, Stmt.EachTypeAll K xs → Stmt.EachIterableAll (GivesNoArray I) xs →
      Returns (List.Forall₂ (Stmt.Alike (InstanceOf I K)) xs) (Stmt.replaceAll r xs)
  | [], _, _ => .pure .nil
  | x :: xs, hx, hl =>
    (Stmt.replace_returns hr hK x hx.1 hl.1).bind fun _ first =>
      (Stmt.replaceAll_returns hr hK xs hx.2 hl.2).bind fun _ rest => .pure (.cons first rest)

end

theorem replaceParams_returns (hr : r.Instantiates I) {ps : List Param} (hps : ∀ p ∈ ps, K p.type) :
    Returns (List.Forall₂ (ParamAlike (InstanceOf I K)) ps)
      (ps.mapM fun p => return { p with type := ← r.type p.type } : Analysis σ (List Param)) := by
  induction ps with
  | nil => exact .pure .nil
  | cons p ps ih =>
    obtain ⟨hp, hps⟩ := List.forall_mem_cons.mp hps
    have param : Returns (ParamAlike (InstanceOf I K) p)
        (do return { p with type := ← r.type p.type } : Analysis σ Param) :=
      (hr.returns_type hp).bind fun _ ht => .pure ⟨rfl, rfl, ht⟩
    rw [List.mapM_cons]
    exact param.bind fun _ first => (ih hps).bind fun _ rest => .pure (.cons first rest)

/-- **Putting arguments for generic parameters gives a function that is alike**, if no loop runs
    over a value of which only the instances know the type. -/
theorem Function.alike_of_replace (hr : r.Instantiates I) (hK : HoldsOfLiterals K) {f g : Function}
    {s s' : σ} (hf : f.EachType K)
    (hl : Stmt.EachIterableAll (GivesNoArray I) f.body)
    (h : f.replace r s = .ok g s') : f.Alike (InstanceOf I K) g := by
  have alike : Returns (f.Alike (InstanceOf I K)) (f.replace r) := by
    refine (replaceParams_returns hr hf.params).bind fun _ params => Returns.after fun _ => ?_
    exact (Stmt.replaceAll_returns hr hK f.body hf.body hl).bind fun _ body =>
      .pure ⟨rfl, rfl, params, body⟩
  exact alike s g s' h

end

end QuantumStatics.Typed

namespace QuantumStatics.Specialization

open Typed (CallTarget)

variable {T : SignatureTable} {D : Definitions} {I : Instantiation} {location : Location}
  {nested : Key → Location → Specializing ConcreteDefinition} {d d' : Draft}

theorem closeType_eq_ok {t u : Ty} (h : closeType T I location t d = .ok u d') :
    u = I.apply t := by
  unfold closeType at h
  split at h
  · obtain ⟨_, _, -, h⟩ := bind_eq_ok.mp h
    exact (pure_eq_ok.mp h).1.symm
  · obtain ⟨_, _, h, -⟩ := bind_eq_ok.mp h
    exact absurd h defect_ne_ok

theorem closeNat_eq_ok {n m : NatTerm} (h : closeNat I n d = .ok m d') : m = I.applyNat n := by
  unfold closeNat at h
  split at h
  · exact (pure_eq_ok.mp h).1.symm
  · obtain ⟨_, _, h, -⟩ := bind_eq_ok.mp h
    exact absurd h defect_ne_ok

theorem alike_of_linkCall {c c' : CallTarget} (h : linkCall D nested location c d = .ok c' d') :
    c.Alike c' := by
  unfold linkCall at h
  split at h
  · obtain ⟨_, _, -, h⟩ := bind_eq_ok.mp h
    obtain ⟨_, _, -, h⟩ := bind_eq_ok.mp h
    obtain ⟨rfl, rfl⟩ := pure_eq_ok.mp h
    exact ⟨rfl, rfl, rfl⟩
  · obtain ⟨rfl, rfl⟩ := pure_eq_ok.mp h
    exact ⟨rfl, rfl, rfl⟩

theorem instantiates_closing : (closing T D I location nested).Instantiates I where
  type := closeType_eq_ok
  nat := closeNat_eq_ok
  call := alike_of_linkCall

end QuantumStatics.Specialization
