/-
  Well-typed programs.

  A typed program is well typed if each of its nodes fits the types that its parts carry and the
  signatures of the table.  The judgments look at one node at a time and infer nothing.
-/
import QuantumStatics.Proofs.Typed.Substitution
import QuantumStatics.Signature.Table
import QuantumStatics.Source.Basic

namespace QuantumStatics

/-! ## The types of a program -/

namespace Source

mutual

/-- Every type that an expression states satisfies `P`. -/
def Expr.EachType (P : Ty → Prop) : Expr → Prop
  | .int _ _ | .float _ _ | .bool _ _ | .name _ _ => True
  | .tuple _ elems | .array _ elems | .call _ _ elems => Expr.EachTypeAll P elems
  | .methodCall _ receiver _ args => receiver.EachType P ∧ Expr.EachTypeAll P args
  | .field _ object _ => object.EachType P
  | .subscript _ indexed index => indexed.EachType P ∧ index.EachType P
  | .binary _ _ left right => left.EachType P ∧ right.EachType P
  | .unary _ _ operand => operand.EachType P
  | .annotated _ expr type => expr.EachType P ∧ P type

/-- The same for some expressions. -/
def Expr.EachTypeAll (P : Ty → Prop) : List Expr → Prop
  | [] => True
  | e :: es => e.EachType P ∧ Expr.EachTypeAll P es

end

mutual

/-- Every type that a statement states satisfies `P`. -/
def Stmt.EachType (P : Ty → Prop) : Stmt → Prop
  | .assign _ _ value stated => value.EachType P ∧ ∀ t ∈ stated, P t
  | .tupleAssign _ _ value | .expr _ value => value.EachType P
  | .ret _ value => ∀ e ∈ value, e.EachType P
  | .branch _ condition thenBody elseBody =>
    condition.EachType P ∧ Stmt.EachTypeAll P thenBody ∧ Stmt.EachTypeAll P elseBody
  | .whileLoop _ condition body => condition.EachType P ∧ Stmt.EachTypeAll P body
  | .forLoop _ _ iterable body => iterable.EachType P ∧ Stmt.EachTypeAll P body
  | .breakLoop _ | .continueLoop _ => True

/-- The same for some statements. -/
def Stmt.EachTypeAll (P : Ty → Prop) : List Stmt → Prop
  | [] => True
  | s :: ss => s.EachType P ∧ Stmt.EachTypeAll P ss

end

/-- Every type that a definition declares or states satisfies `P`. -/
structure FunctionDef.EachType (P : Ty → Prop) (f : FunctionDef) : Prop where
  params : ∀ p ∈ f.params, P p.type
  result : ∀ t ∈ f.result, P t
  body : Stmt.EachTypeAll P f.body

section

variable {P Q : Ty → Prop}

mutual

theorem Expr.EachType.mono (h : ∀ t, P t → Q t) : ∀ e : Expr, e.EachType P → e.EachType Q
  | .int _ _, _ | .float _ _, _ | .bool _ _, _ | .name _ _, _ => trivial
  | .tuple _ elems, he | .array _ elems, he | .call _ _ elems, he =>
    Expr.EachTypeAll.mono h elems he
  | .methodCall _ receiver _ args, he =>
    ⟨Expr.EachType.mono h receiver he.1, Expr.EachTypeAll.mono h args he.2⟩
  | .field _ object _, he => Expr.EachType.mono h object he
  | .subscript _ indexed index, he =>
    ⟨Expr.EachType.mono h indexed he.1, Expr.EachType.mono h index he.2⟩
  | .binary _ _ left right, he =>
    ⟨Expr.EachType.mono h left he.1, Expr.EachType.mono h right he.2⟩
  | .unary _ _ operand, he => Expr.EachType.mono h operand he
  | .annotated _ expr type, he => ⟨Expr.EachType.mono h expr he.1, h type he.2⟩

theorem Expr.EachTypeAll.mono (h : ∀ t, P t → Q t) : ∀ es : List Expr,
    Expr.EachTypeAll P es → Expr.EachTypeAll Q es
  | [], _ => trivial
  | e :: es, he => ⟨Expr.EachType.mono h e he.1, Expr.EachTypeAll.mono h es he.2⟩

end

mutual

theorem Stmt.EachType.mono (h : ∀ t, P t → Q t) : ∀ s : Stmt, s.EachType P → s.EachType Q
  | .assign _ _ value _, hs => ⟨Expr.EachType.mono h value hs.1, fun t ht => h t (hs.2 t ht)⟩
  | .tupleAssign _ _ value, hs | .expr _ value, hs => Expr.EachType.mono h value hs
  | .ret _ _, hs => fun e he => Expr.EachType.mono h e (hs e he)
  | .branch _ condition thenBody elseBody, hs =>
    ⟨Expr.EachType.mono h condition hs.1, Stmt.EachTypeAll.mono h thenBody hs.2.1,
      Stmt.EachTypeAll.mono h elseBody hs.2.2⟩
  | .whileLoop _ condition body, hs =>
    ⟨Expr.EachType.mono h condition hs.1, Stmt.EachTypeAll.mono h body hs.2⟩
  | .forLoop _ _ iterable body, hs =>
    ⟨Expr.EachType.mono h iterable hs.1, Stmt.EachTypeAll.mono h body hs.2⟩
  | .breakLoop _, _ | .continueLoop _, _ => trivial

theorem Stmt.EachTypeAll.mono (h : ∀ t, P t → Q t) : ∀ ss : List Stmt,
    Stmt.EachTypeAll P ss → Stmt.EachTypeAll Q ss
  | [], _ => trivial
  | s :: ss, hs => ⟨Stmt.EachType.mono h s hs.1, Stmt.EachTypeAll.mono h ss hs.2⟩

end

theorem FunctionDef.EachType.mono (h : ∀ t, P t → Q t) {f : FunctionDef} (hf : f.EachType P) :
    f.EachType Q :=
  ⟨fun p hp => h p.type (hf.params p hp), fun t ht => h t (hf.result t ht),
    Stmt.EachTypeAll.mono h f.body hf.body⟩

end

end Source

namespace Typed

mutual

/-- Every type of an expression satisfies `P`. -/
def Expr.EachType (P : Ty → Prop) : Expr → Prop
  | .int _ t _ | .name _ t _ _ | .fnRef _ t _ => P t
  | .float _ _ | .bool _ _ | .natParam _ _ => True
  | .tuple _ t elems | .array _ t elems => P t ∧ Expr.EachTypeAll P elems
  | .call _ t target args => P t ∧ (∀ u ∈ target.typeArgs, P u) ∧ Expr.EachTypeAll P args
  | .field _ t object _ _ _ => P t ∧ object.EachType P
  | .subscript _ t indexed index _ => P t ∧ indexed.EachType P ∧ index.EachType P

/-- The same for some expressions. -/
def Expr.EachTypeAll (P : Ty → Prop) : List Expr → Prop
  | [] => True
  | e :: es => e.EachType P ∧ Expr.EachTypeAll P es

end

mutual

/-- Every type of a statement satisfies `P`. -/
def Stmt.EachType (P : Ty → Prop) : Stmt → Prop
  | .assign _ _ value | .tupleAssign _ _ value | .expr _ value => value.EachType P
  | .ret _ value => ∀ e ∈ value, e.EachType P
  | .branch _ condition thenBody elseBody =>
    condition.EachType P ∧ Stmt.EachTypeAll P thenBody ∧ Stmt.EachTypeAll P elseBody
  | .whileLoop _ condition body => condition.EachType P ∧ Stmt.EachTypeAll P body
  | .forLoop _ _ varType iterable body =>
    P varType ∧ iterable.EachType P ∧ Stmt.EachTypeAll P body
  | .breakLoop _ | .continueLoop _ => True

/-- The same for some statements. -/
def Stmt.EachTypeAll (P : Ty → Prop) : List Stmt → Prop
  | [] => True
  | s :: ss => s.EachType P ∧ Stmt.EachTypeAll P ss

end

/-- Every type of a function satisfies `P`. -/
structure Function.EachType (P : Ty → Prop) (f : Function) : Prop where
  params : ∀ p ∈ f.params, P p.type
  result : P f.result
  body : Stmt.EachTypeAll P f.body

theorem Expr.eachTypeAll_iff {P : Ty → Prop} {es : List Expr} :
    Expr.EachTypeAll P es ↔ ∀ e ∈ es, e.EachType P := by
  induction es with
  | nil => simp [EachTypeAll]
  | cons e es ih => simp [EachTypeAll, ih]

theorem Expr.EachType.type {P : Ty → Prop} (prim : ∀ {n c}, P (.prim n c)) {e : Expr}
    (h : e.EachType P) : P e.type := by
  cases e with
  | int | name | fnRef => exact h
  | float | bool | natParam => exact prim
  | tuple | array | call | field | subscript => exact h.1

/-! ## The judgments -/

/-- A call with the type `t` fits a signature for the arguments `I`. -/
structure CallTarget.FitsSignature (c : CallTarget) (t : Ty) (args : List Ty) (s : Signature)
    (I : Instantiation) : Prop where
  generics : Instantiation.ofArgs s.generics c.typeArgs c.natArgs = .ok I
  count : args.length = s.params.length
  arg : ∀ p ∈ s.params.zip args, p.2.equal (I.apply p.1.type)
  result : t.equal (I.apply s.result)
  ownership : c.ownership = s.params.map (·.ownership)

/-- A call fits the signature of its callee. -/
def CallTarget.Fits (T : SignatureTable) (c : CallTarget) (t : Ty) (args : List Ty) : Prop :=
  ∃ s I, T.find? c.callee = some s ∧ c.FitsSignature t args s I

/-- Each node of an expression fits the types of its parts. -/
inductive Expr.WellTyped (T : SignatureTable) : Expr → Prop
  | int {location t value} : t = .int ∨ t = .nat → WellTyped T (.int location t value)
  | float {location value} : WellTyped T (.float location value)
  | bool {location value} : WellTyped T (.bool location value)
  | name {location t n use} : WellTyped T (.name location t n use)
  | natParam {location n} : WellTyped T (.natParam location n)
  | fnRef {location t n s} : T.find? n = some s → s.isGeneric = false → t = s.functionType →
    WellTyped T (.fnRef location t n)
  | tuple {location t elems} : (∀ e ∈ elems, WellTyped T e) → t = .tuple (elems.map Expr.type) →
    WellTyped T (.tuple location t elems)
  | array {location t elem elems} : (∀ e ∈ elems, WellTyped T e) →
    (∀ e ∈ elems, e.type.equal elem) → t = .array elem (.const elems.length.toUInt64) →
    WellTyped T (.array location t elems)
  | call {location t c args} : (∀ e ∈ args, WellTyped T e) →
    (c.kind ≠ .localValue → c.Fits T t (args.map Expr.type)) →
    WellTyped T (.call location t c args)
  | field {location t object label index use decl typeArgs natArgs fields f} :
    WellTyped T object → object.type = .struct decl typeArgs natArgs →
    decl.fieldIndex? label = some index →
    decl.instantiateFields typeArgs natArgs = .ok fields → fields[index]? = some f →
    t = f.type → WellTyped T (.field location t object label index use)
  | subscript {location t indexed index use n} : WellTyped T indexed → WellTyped T index →
    indexed.type = .array t n → index.type.equal .int ∨ index.type.equal .nat →
    WellTyped T (.subscript location t indexed index use)

/-- Each node of a statement fits the types of its parts and the result of the function. -/
inductive Stmt.WellTyped (T : SignatureTable) (result : Ty) : Stmt → Prop
  | assign {location target value} : value.WellTyped T →
    WellTyped T result (.assign location target value)
  | tupleAssign {location targets value elems} : value.WellTyped T → value.type = .tuple elems →
    elems.length = targets.length → WellTyped T result (.tupleAssign location targets value)
  | expr {location value} : value.WellTyped T → WellTyped T result (.expr location value)
  | ret {location value} : value.WellTyped T → value.type.equal result →
    WellTyped T result (.ret location (some value))
  | retNone {location} : result.equal .none → WellTyped T result (.ret location none)
  | branch {location condition thenBody elseBody} : condition.WellTyped T →
    condition.type.equal .bool → (∀ s ∈ thenBody, WellTyped T result s) →
    (∀ s ∈ elseBody, WellTyped T result s) →
    WellTyped T result (.branch location condition thenBody elseBody)
  | whileLoop {location condition body} : condition.WellTyped T → condition.type.equal .bool →
    (∀ s ∈ body, WellTyped T result s) → WellTyped T result (.whileLoop location condition body)
  | forLoop {location loopVar varType iterable body} : iterable.WellTyped T →
    (∃ n, iterable.type = .array varType n) ∨ iterable.type.equal .range ∧ varType = .int →
    (∀ s ∈ body, WellTyped T result s) →
    WellTyped T result (.forLoop location loopVar varType iterable body)
  | breakLoop {location} : WellTyped T result (.breakLoop location)
  | continueLoop {location} : WellTyped T result (.continueLoop location)

/-- Every statement of a function is well typed. -/
def Function.WellTyped (T : SignatureTable) (f : Function) : Prop :=
  ∀ s ∈ f.body, s.WellTyped T f.result

end Typed

end QuantumStatics
