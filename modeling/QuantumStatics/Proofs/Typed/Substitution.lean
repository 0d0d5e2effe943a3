/-
  Typed programs with what inference has found out put in.

  Replacing the types of a typed program by a substitution always succeeds: it is a function
  on trees (`Expr.subst`, `Stmt.subst`, `Function.subst`), which changes nothing but types.
-/
import QuantumStatics.Proofs.Analysis
import QuantumStatics.Proofs.Execution.Control
import QuantumStatics.Proofs.Unification.Solved
import QuantumStatics.Typed.Replacement

namespace QuantumStatics.Typed

/-! ## Trees -/

/-- The callee of a call with its generic arguments replaced. -/
def CallTarget.subst (S : Substitution) (c : CallTarget) : CallTarget :=
  { c with typeArgs := c.typeArgs.map (Ty.subst S), natArgs := c.natArgs.map (NatTerm.subst S) }

mutual

/-- Puts what has been found out into the types of an expression. -/
def Expr.subst (S : Substitution) : Expr → Expr
  | .int location type value => .int location (type.subst S) value
  | .float location value => .float location value
  | .bool location value => .bool location value
  | .name location type n use => .name location (type.subst S) n use
  | .natParam location n => .natParam location n
  | .fnRef location type n => .fnRef location (type.subst S) n
  | .tuple location type elems => .tuple location (type.subst S) (Expr.substAll S elems)
  | .array location type elems => .array location (type.subst S) (Expr.substAll S elems)
  | .call location type target args =>
    .call location (type.subst S) (target.subst S) (Expr.substAll S args)
  | .field location type object label index use =>
    .field location (type.subst S) (object.subst S) label index use
  | .subscript location type indexed index use =>
    .subscript location (type.subst S) (indexed.subst S) (index.subst S) use

/-- The same for some expressions. -/
def Expr.substAll (S : Substitution) : List Expr → List Expr
  | [] => []
  | e :: es => e.subst S :: Expr.substAll S es

end

theorem Expr.substAll_eq_map (S : Substitution) (es : List Expr) :
    Expr.substAll S es = es.map (Expr.subst S) :=
  companion_eq_map rfl (fun _ _ => rfl) es

mutual

/-- Puts what has been found out into the types of a statement. -/
def Stmt.subst (S : Substitution) : Stmt → Stmt
  | .assign location target value => .assign location target (value.subst S)
  | .tupleAssign location targets value => .tupleAssign location targets (value.subst S)
  | .expr location value => .expr location (value.subst S)
  | .ret location value => .ret location (value.map (Expr.subst S))
  | .branch location condition thenBody elseBody =>
    .branch location (condition.subst S) (Stmt.substAll S thenBody) (Stmt.substAll S elseBody)
  | .whileLoop location condition body =>
    .whileLoop location (condition.subst S) (Stmt.substAll S body)
  | .forLoop location loopVar varType iterable body =>
    .forLoop location loopVar (varType.subst S) (iterable.subst S) (Stmt.substAll S body)
  | .breakLoop location => .breakLoop location
  | .continueLoop location => .continueLoop location

/-- The same for some statements. -/
def Stmt.substAll (S : Substitution) : List Stmt → List Stmt
  | [] => []
  | s :: ss => s.subst S :: Stmt.substAll S ss

end

/-- Puts what has been found out into the types of a function. -/
def Function.subst (S : Substitution) (f : Function) : Function :=
  { f with
    params := f.params.map fun p => { p with type := p.type.subst S }
    result := f.result.subst S
    body := Stmt.substAll S f.body }

/-! ## Replacement -/

section

variable {σ : Type} (S : Substitution)

@[simp] theorem Replacement.type_ofSubstitution :
    (ofSubstitution S : Replacement σ).type = fun t => pure (t.subst S) :=
  funext fun t => congrArg pure (S.apply_eq t)

@[simp] theorem Replacement.nat_ofSubstitution :
    (ofSubstitution S : Replacement σ).nat = fun n => pure (n.subst S) :=
  rfl

@[simp] theorem Replacement.call_ofSubstitution (location : Location) (target : CallTarget) :
    (ofSubstitution S : Replacement σ).call location target = pure target :=
  rfl

theorem CallTarget.replaceArgs_eq (c : CallTarget) :
    c.replaceArgs (.ofSubstitution S : Replacement σ) = pure (c.subst S) := by
  simp [replaceArgs, subst]

mutual

theorem Expr.replace_eq : ∀ e : Expr,
    e.replace (.ofSubstitution S : Replacement σ) = pure (e.subst S)
  | .int _ _ _ | .float _ _ | .bool _ _ | .name _ _ _ _ | .fnRef _ _ _ => by
    simp [replace, subst]
  | .natParam _ _ => by simp [replace, subst, natParamValue]
  | .tuple _ _ elems => by simp [replace, subst, replaceAll_eq elems]
  | .array _ _ elems => by simp [replace, subst, replaceAll_eq elems]
  | .call _ _ target args => by
    simp [replace, subst, replaceAll_eq args, CallTarget.replaceArgs_eq]
  | .field _ _ object _ _ _ => by simp [replace, subst, replace_eq object]
  | .subscript _ _ indexed index _ => by
    simp [replace, subst, replace_eq indexed, replace_eq index]

theorem Expr.replaceAll_eq : ∀ es : List Expr,
    Expr.replaceAll (.ofSubstitution S : Replacement σ) es = pure (Expr.substAll S es)
  | [] => rfl
  | e :: es => by simp [replaceAll, substAll, replace_eq e, replaceAll_eq es]

end

mutual

theorem Stmt.replace_eq : ∀ s : Stmt,
    s.replace (.ofSubstitution S : Replacement σ) = pure (s.subst S)
  | .assign _ _ value | .tupleAssign _ _ value | .expr _ value | .ret _ (some value) => by
    simp [replace, subst, value.replace_eq]
  | .ret _ none | .breakLoop _ | .continueLoop _ => by simp [replace, subst]
  | .branch _ condition thenBody elseBody => by
    simp [replace, subst, condition.replace_eq, replaceAll_eq thenBody, replaceAll_eq elseBody]
  | .whileLoop _ condition body => by
    simp [replace, subst, condition.replace_eq, replaceAll_eq body]
  | .forLoop _ _ _ iterable body => by
    simp [replace, subst, iterable.replace_eq, replaceAll_eq body]

theorem Stmt.replaceAll_eq : ∀ ss : List Stmt,
    Stmt.replaceAll (.ofSubstitution S : Replacement σ) ss = pure (Stmt.substAll S ss)
  | [] => rfl
  | s :: ss => by simp [replaceAll, substAll, replace_eq s, replaceAll_eq ss]

end

theorem Function.replace_eq (f : Function) :
    f.replace (.ofSubstitution S : Replacement σ) = pure (f.subst S) := by
  simp [replace, subst, Stmt.replaceAll_eq]

theorem Expr.type_subst (e : Expr) : (e.subst S).type = e.type.subst S := by
  cases e <;> simp [subst, type, Ty.float, Ty.bool, Ty.nat]

end

end QuantumStatics.Typed

namespace QuantumStatics.Execution

open Typed

/-! ## Uses -/

/-- Puts what has been found out into the type of a use. -/
def Use.subst (S : Substitution) (u : Use) : Use := { u with type := u.type.map (Ty.subst S) }

variable (S : Substitution)

theorem calleeUses_subst (c : CallTarget) :
    calleeUses (c.subst S) = (calleeUses c).map (Use.subst S) := by
  by_cases h : c.kind = .localValue <;> simp [calleeUses, CallTarget.subst, Use.subst, h]

mutual

theorem uses_subst : ∀ e : Typed.Expr, uses (e.subst S) = (uses e).map (Use.subst S)
  | .int _ _ _ | .float _ _ | .bool _ _ | .name _ _ _ _ | .fnRef _ _ _ | .natParam _ _ => by
    simp [Expr.subst, uses, Use.subst]
  | .tuple _ _ elems | .array _ _ elems => by simp [Expr.subst, uses, usesAll_subst elems]
  | .call _ _ target args => by
    simp [Expr.subst, uses, usesAll_subst args, calleeUses_subst]
  | .field _ _ object _ _ use => by
    simp [Expr.subst, uses, indexUses_subst object, baseUses_subst use object]
  | .subscript _ _ indexed index use => by
    simp [Expr.subst, uses, indexUses_subst indexed, uses_subst index, baseUses_subst use indexed]

theorem indexUses_subst : ∀ e : Typed.Expr,
    indexUses (e.subst S) = (indexUses e).map (Use.subst S)
  | .int _ _ _ | .float _ _ | .bool _ _ | .name _ _ _ _ | .fnRef _ _ _ | .natParam _ _
  | .tuple _ _ _ | .array _ _ _ | .call _ _ _ _ => by simp [Expr.subst, indexUses]
  | .field _ _ object _ _ _ => by simp [Expr.subst, indexUses, indexUses_subst object]
  | .subscript _ _ indexed index _ => by
    simp [Expr.subst, indexUses, indexUses_subst indexed, uses_subst index]

theorem baseUses_subst (use : UseKind) : ∀ e : Typed.Expr,
    baseUses use (e.subst S) = (baseUses use e).map (Use.subst S)
  | .int _ _ _ | .float _ _ | .bool _ _ | .name _ _ _ _ | .fnRef _ _ _ | .natParam _ _ => by
    simp [Expr.subst, baseUses, Use.subst]
  | .tuple _ _ elems | .array _ _ elems => by simp [Expr.subst, baseUses, usesAll_subst elems]
  | .call _ _ target args => by
    simp [Expr.subst, baseUses, usesAll_subst args, calleeUses_subst]
  | .field _ _ object _ _ _ => by simp [Expr.subst, baseUses, baseUses_subst use object]
  | .subscript _ _ indexed _ _ => by simp [Expr.subst, baseUses, baseUses_subst use indexed]

theorem usesAll_subst : ∀ es : List Typed.Expr,
    usesAll (Expr.substAll S es) = (usesAll es).map (Use.subst S)
  | [] => rfl
  | e :: es => by simp [Expr.substAll, usesAll, uses_subst e, usesAll_subst es]

end

end QuantumStatics.Execution
