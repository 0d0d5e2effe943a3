/-
  Replacing the types of a typed program.

  A `Replacement` says what becomes of the types, the nats and the calls of a tree.
  It is run from left to right: the types of a node before its children, and a
  call after its arguments.  A nat parameter used as a value becomes a literal
  when it is replaced by a constant.
-/
import QuantumStatics.Diagnostic.Basic
import QuantumStatics.Instantiation
import QuantumStatics.Typed.Basic

namespace QuantumStatics.Typed

/-- What becomes of types, nats and calls. -/
structure Replacement (σ : Type) where
  type : Ty → Analysis σ Ty
  nat : NatTerm → Analysis σ NatTerm
  /-- What becomes of a call whose generic arguments have been replaced. -/
  call : Location → CallTarget → Analysis σ CallTarget := fun _ target => pure target

namespace Replacement

variable {σ : Type}

/-- Replaces what inference has determined. -/
def ofSubstitution (S : Substitution) : Replacement σ where
  type t := pure (S.apply t)
  nat n := pure (S.applyNat n)

/-- Replaces generic parameters by arguments. -/
def ofInstantiation (I : Instantiation) : Replacement σ where
  type t := pure (I.apply t)
  nat n := pure (I.applyNat n)

end Replacement

variable {σ : Type}

/-- Replaces the generic arguments of a call. -/
def CallTarget.replaceArgs (r : Replacement σ) (c : CallTarget) : Analysis σ CallTarget := do
  let typeArgs ← c.typeArgs.mapM r.type
  let natArgs ← c.natArgs.mapM r.nat
  return { c with typeArgs, natArgs }

/-- What becomes of a nat parameter used as a value. -/
def natParamValue (location : Location) (name : String) : NatTerm → Analysis σ Expr
  | .const value => return .int location .nat value.toInt64
  | .var name => return .natParam location name
  | .undet stamp => .defect (.natParameter name (.undet stamp))

mutual

/-- Replaces the types of an expression. -/
def Expr.replace (r : Replacement σ) : Expr → Analysis σ Expr
  | .int location type value => return .int location (← r.type type) value
  | .float location value => return .float location value
  | .bool location value => return .bool location value
  | .name location type n use => return .name location (← r.type type) n use
  | .natParam location n => do natParamValue location n (← r.nat (.var n))
  | .fnRef location type n => return .fnRef location (← r.type type) n
  | .tuple location type elems => do
    let type ← r.type type
    return .tuple location type (← Expr.replaceAll r elems)
  | .array location type elems => do
    let type ← r.type type
    return .array location type (← Expr.replaceAll r elems)
  | .call location type target args => do
    let target ← target.replaceArgs r
    let type ← r.type type
    let args ← Expr.replaceAll r args
    return .call location type (← r.call location target) args
  | .field location type object label index use => do
    let type ← r.type type
    return .field location type (← object.replace r) label index use
  | .subscript location type indexed index use => do
    let type ← r.type type
    let indexed ← indexed.replace r
    return .subscript location type indexed (← index.replace r) use

/-- Replaces the types of some expressions. -/
def Expr.replaceAll (r : Replacement σ) : List Expr → Analysis σ (List Expr)
  | [] => return []
  | e :: es => do
    let e ← e.replace r
    return e :: (← Expr.replaceAll r es)

end

mutual

/-- Replaces the types of a statement. -/
def Stmt.replace (r : Replacement σ) : Stmt → Analysis σ Stmt
  | .assign location target value => return .assign location target (← value.replace r)
  | .tupleAssign location targets value =>
    return .tupleAssign location targets (← value.replace r)
  | .expr location value => return .expr location (← value.replace r)
  | .ret location none => return .ret location none
  | .ret location (some value) => return .ret location (some (← value.replace r))
  | .branch location condition thenBody elseBody => do
    let condition ← condition.replace r
    let thenBody ← Stmt.replaceAll r thenBody
    return .branch location condition thenBody (← Stmt.replaceAll r elseBody)
  | .whileLoop location condition body => do
    let condition ← condition.replace r
    return .whileLoop location condition (← Stmt.replaceAll r body)
  | .forLoop location loopVar varType iterable body => do
    let varType ← r.type varType
    let iterable ← iterable.replace r
    return .forLoop location loopVar varType iterable (← Stmt.replaceAll r body)
  | .breakLoop location => return .breakLoop location
  | .continueLoop location => return .continueLoop location

/-- Replaces the types of some statements. -/
def Stmt.replaceAll (r : Replacement σ) : List Stmt → Analysis σ (List Stmt)
  | [] => return []
  | s :: ss => do
    let s ← s.replace r
    return s :: (← Stmt.replaceAll r ss)

end

/-- Replaces the types of a function: of its parameters, its result and its body. -/
def Function.replace (r : Replacement σ) (f : Function) : Analysis σ Function := do
  let params ← f.params.mapM fun p => return { p with type := ← r.type p.type }
  let result ← r.type f.result
  let body ← Stmt.replaceAll r f.body
  return { f with params, result, body }

end QuantumStatics.Typed
