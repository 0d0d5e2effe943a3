/-
  Checking statements.

  Each statement has to determine the generic calls and the bindings that it
  introduces.  Where paths join, a name that is bound on both must have one type;
  a name that is bound on one path keeps its type, and whether it is defined is
  not decided here.  A loop joins its entry with the end of its body and with
  every jump.
-/
import QuantumStatics.Elaboration.Expr

namespace QuantumStatics.Elaboration

/-! ## Assigned names -/

mutual

/-- The names that a statement assigns, at any depth. -/
def assignedNames : Source.Stmt → List String
  | .assign _ target _ _ => [target]
  | .tupleAssign _ targets _ => targets
  | .branch _ _ thenBody elseBody => assignedNamesAll thenBody ++ assignedNamesAll elseBody
  | .whileLoop _ _ body => assignedNamesAll body
  | .forLoop _ loopVar _ body => loopVar :: assignedNamesAll body
  | .expr _ _ | .ret _ _ | .breakLoop _ | .continueLoop _ => []

/-- The names that some statements assign. -/
def assignedNamesAll : List Source.Stmt → List String
  | [] => []
  | s :: ss => assignedNames s ++ assignedNamesAll ss

end

namespace Check

/-! ## Parts of statements -/

/-- Checks a condition. -/
def condition (Γ : Scope) (e : Source.Expr) : Check Typed.Expr := do
  let typed ← checkExpr Γ (some .bool) .borrow e
  expect typed .bool e.location "condition"
  return typed

/-- Checks a value that is assigned, its type being stated or not. -/
def annotatedValue (Γ : Scope) (location : Location) (what : String) (stated : Option Ty)
    (value : Source.Expr) : Check Typed.Expr := do
  match stated with
  | none => checkExpr Γ none .consume value
  | some t =>
    .ofExcept (checkType Γ.table Γ.generics location t)
    let typed ← checkExpr Γ (some t) .consume value
    expect typed t location what
    return typed

/-- Fresh types for the targets of a tuple assignment, which must be distinct. -/
def targetTypes (location : Location) (seen : List String) : List String → Check (List Ty)
  | [] => return []
  | target :: targets => do
    if seen.contains target then
      .reject location (.boundTwice target)
    let t ← freshType
    return t :: (← targetTypes location (target :: seen) targets)

/-- The type of the variable of a loop over a range or an array. -/
def loopVarType (location : Location) (loopVar : String) (iterable : Typed.Expr) : Check Ty := do
  let t ← match ← resolve iterable.type with
    | .array elem _ => pure elem
    | .prim "range" _ => pure .int
    | t => .reject location (.notIterable loopVar t)
  if t.hasUndetermined then
    .reject location (.loopVariableType loopVar)
  return t

/-- Runs the check of one branch from an environment and returns the environment
    at its end. -/
def branch {α : Type} (env : Env) (check : Check α) : Check (α × Env) := do
  modify fun s => { s with env }
  let result ← check
  return (result, (← get).env)

/-- Runs the check of a loop body and joins its entry, its end and its jumps. -/
def loop {α : Type} (location : Location) (check : Check α) : Check α := do
  let entry := (← get).env
  modify fun s => { s with loops := {} :: s.loops }
  let result ← check
  let s ← get
  let frame := s.loops.headD {}
  set { s with loops := s.loops.tail }
  let head ← merge location entry s.env
  let head ← mergeAll location head frame.continues
  let head ← mergeAll location head frame.breaks
  modify fun s => { s with env := head }
  return result

end Check

open Check

/-! ## Statements -/

mutual

/-- Checks a statement. -/
def checkStmt (Γ : Scope) : Source.Stmt → Check Typed.Stmt
  | .assign location target value stated => statement do
    let typed ← annotatedValue Γ location target stated value
    bind target (stated.getD typed.type) location
    return .assign location target typed
  | .tupleAssign location targets value => statement do
    let types ← targetTypes location [] targets
    let typed ← checkExpr Γ (some (.tuple types)) .consume value
    expect typed (.tuple types) location "tuple assignment"
    (targets.zip types).forM fun (target, t) => bind target t location
    return .tupleAssign location targets typed
  | .expr location value => statement do
    return .expr location (← checkExpr Γ none .consume value)
  | .ret location (some value) => statement do
    let typed ← checkExpr Γ (some Γ.result) .consume value
    expect typed Γ.result location Γ.function
    jump
    return .ret location (some typed)
  | .ret location none => statement do
    unifyAt location Γ.function Γ.result .none
    jump
    return .ret location none
  | .branch location cond thenBody elseBody => statement do
    let cond ← condition Γ cond
    let before := (← get).env
    let (thenBody, afterThen) ← branch before (checkBlock Γ thenBody)
    let (elseBody, afterElse) ← branch before (checkBlock Γ elseBody)
    let env ← merge location afterThen afterElse
    modify fun s => { s with env }
    return .branch location cond thenBody elseBody
  | .whileLoop location cond body => statement do
    let cond ← condition Γ cond
    let body ← loop location (checkBlock Γ body)
    return .whileLoop location cond body
  | .forLoop location loopVar iterable body => statement do
    let iterable ← checkExpr Γ none .consume iterable
    let t ← loopVarType location loopVar iterable
    let before := (← get).env
    modify fun s => { s with env := { s.env with bindings := s.env.bindings.insert loopVar t } }
    let body ← loop location (checkBlock Γ body)
    let env ← merge location before (← get).env
    modify fun s => { s with env }
    return .forLoop location loopVar t iterable body
  | .breakLoop location => statement do
    let env := (← get).env
    inLoop location "break" fun frame => { frame with breaks := frame.breaks ++ [env] }
    jump
    return .breakLoop location
  | .continueLoop location => statement do
    let env := (← get).env
    inLoop location "continue" fun frame => { frame with continues := frame.continues ++ [env] }
    jump
    return .continueLoop location

/-- Checks a block of statements. -/
def checkBlock (Γ : Scope) : List Source.Stmt → Check (List Typed.Stmt)
  | [] => return []
  | s :: ss => do
    let typed ← checkStmt Γ s
    return typed :: (← checkBlock Γ ss)

end

end QuantumStatics.Elaboration
