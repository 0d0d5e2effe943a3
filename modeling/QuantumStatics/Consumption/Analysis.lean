/-
  Definite assignment and consumption.

  `checkFunction` follows the bindings of a typed function along all paths.  A
  linear value must be consumed exactly once on every path, an affine value at
  most once, and a name must be defined where it is used.

  A place is followed at its root: moving a field or an element out of a binding
  consumes the whole binding, and is refused if something linear would be left
  behind.  The indices of a place are evaluated before the place is used.

  Statements that cannot be reached are not analysed; the first one in each block
  is warned about.
-/
import QuantumStatics.Classification
import QuantumStatics.Consumption.Flow
import QuantumStatics.Typed.Basic

namespace QuantumStatics.Consumption

open Typed (UseKind)

/-- The state of the analysis of a function. -/
structure FlowState where
  memo : ClassMemo
  /-- The bindings at the current point. -/
  flow : Flow := {}
  /-- The loops around the current statement, the innermost first. -/
  loops : List LoopFrame := []
  warnings : List Diagnostic := []

/-- Computations that follow the bindings of a function. -/
abbrev Follow := Analysis FlowState

namespace Follow

/-- The ownership class of a type. -/
def classify (t : Ty) : Follow OwnershipClass := fun s =>
  match ClassMemo.classify t s.memo with
  | .ok c memo => .ok c { s with memo }
  | .error d memo => .error (.defect d) { s with memo }

/-- The binding of a name at the current point. -/
def binding? (name : String) : Follow (Option Binding) := return (← get).flow.bindings.get? name

/-- Changes the binding of a name. -/
def setBinding (name : String) (b : Binding) : Follow Unit :=
  modify fun s => { s with flow := { s.flow with bindings := s.flow.bindings.insert name b } }

/-- Moves to another point of the program. -/
def setFlow (flow : Flow) : Follow Unit := modify fun s => { s with flow }

/-- Marks what follows as unreachable. -/
def jump : Follow Unit := modify fun s => { s with flow := { s.flow with reachable := false } }

/-- Warns about a statement that cannot be reached. -/
def warnUnreachable (definition : String) (location : Location) : Follow Unit :=
  modify fun s =>
    { s with
      warnings := s.warnings ++
        [{ severity := .warning, location, definition, message := "Unreachable code" }] }

/-! ## Uses -/

/-- The binding of a name, which must be defined and not consumed. -/
def definedBinding (name : String) (location : Location) : Follow Binding := do
  match ← binding? name with
  | none => .reject location (.maybeUndefined name)
  | some b =>
    match b.state with
    | .undefined | .maybeDefined => .reject location (.maybeUndefined name)
    | .consumed => .reject location (.usedAfterConsume name)
    | .defined => return b

/-- Uses a name.  Consuming it leaves it consumed, unless it can be copied. -/
def useName (name : String) (use : UseKind) (location : Location) : Follow Unit := do
  let b ← definedBinding name location
  if use = .consume ∧ b.cls ≠ .copyable then
    setBinding name { b with state := .consumed }

/-- Gives a name a value of some type. -/
def bind (name : String) (type : Ty) (location : Location) : Follow Unit := do
  let b := (← binding? name).getD {}
  if b.state = .defined ∧ b.cls = .linear then
    .reject location (.overwritten name)
  let cls ← classify type
  setBinding name { b with state := .defined, cls }

/-- Gives names the elements of a tuple. -/
def bindAll (location : Location) : List String → List Ty → Follow Unit
  | name :: names, t :: ts => do
    bind name t location
    bindAll location names ts
  | _, _ => pure ()

/-! ## Projections -/

/-- Checks that a struct has no linear field besides the one at `index`. -/
def checkOtherFields (location : Location) (struct label : String) (index position : Nat) :
    List Field → Follow Unit
  | [] => pure ()
  | f :: fs => do
    if position ≠ index then
      if (← classify f.type) = .linear then
        .reject location (.movedField label struct f.name)
    checkOtherFields location struct label index (position + 1) fs

/-- Checks that moving a value out of a place leaves nothing linear behind. -/
def checkMoveOut : Typed.Expr → Follow Unit
  | .field location _ object label index _ => do
    match object.type with
    | .struct decl typeArgs natArgs =>
      let fields ← .ofDefect (decl.instantiateFields typeArgs natArgs)
      checkOtherFields location decl.name label index 0 fields
    | _ => .defect .notStruct
    checkMoveOut object
  | .subscript location _ indexed _ _ => do
    match indexed.type with
    | .array elem length =>
      if (← classify elem) = .linear then
        unless length = .const 1 do
          .reject location (.movedElement indexed.type)
    | _ => .defect .notArray
    checkMoveOut indexed
  | _ => pure ()

/-- Uses a place whose indices have been evaluated.  If it does not project from
    a binding, what it projects from is evaluated by `evaluateBase`, and must not
    be dropped. -/
def usePlace (e : Typed.Expr) (use : UseKind) (evaluateBase : Follow Unit) : Follow Unit := do
  if use = .consume then
    checkMoveOut e
  match e.root? with
  | some root => useName root (if use = .consume then use else .borrow) e.location
  | none =>
    evaluateBase
    unless use = .consume do
      if (← classify e.base.type) = .linear then
        .reject e.location (.droppedTemporary e.base.type)

/-! ## Arguments -/

/-- Checks an argument before it is evaluated, given the linear bindings that
    earlier arguments project from, and adds its own. -/
def checkArg (callee : String) (roots : List String) (ownership : Ownership) (arg : Typed.Expr) :
    Follow (List String) := do
  match arg.root? with
  | some root =>
    match ← binding? root with
    | some b =>
      if b.cls ≠ .linear then
        return roots
      if (← classify arg.type) = .copyable then
        return roots
      if roots.contains root then
        .reject arg.location (.passedTwice root callee)
      return root :: roots
    | none => return roots
  | none =>
    if ownership = .borrowed then
      if (← classify arg.type) = .linear then
        .reject arg.location (.lentTemporary arg.type callee)
    return roots

end Follow

open Follow

/-! ## Expressions -/

mutual

/-- Evaluates an expression. -/
def evaluate : Typed.Expr → Follow Unit
  | .int _ _ _ | .float _ _ | .bool _ _ | .natParam _ _ | .fnRef _ _ _ => pure ()
  | .name location _ n use => useName n use location
  | .tuple _ _ elems | .array _ _ elems => evaluateAll elems
  | .call location _ target args => do
    if target.kind = .localValue then
      let _ ← definedBinding target.callee location
    evaluateArgs target.callee [] target.ownership args
  | .field location t object label index use => do
    evaluateIndices object
    usePlace (.field location t object label index use) use (evaluateBase object)
  | .subscript location t indexed index use => do
    evaluateIndices indexed
    evaluate index
    usePlace (.subscript location t indexed index use) use (evaluateBase indexed)

/-- Evaluates the indices in a chain of projections. -/
def evaluateIndices : Typed.Expr → Follow Unit
  | .field _ _ object _ _ _ => evaluateIndices object
  | .subscript _ _ indexed index _ => do
    evaluateIndices indexed
    evaluate index
  | _ => pure ()

/-- Evaluates what a chain of projections starts from. -/
def evaluateBase : Typed.Expr → Follow Unit
  | .field _ _ object _ _ _ => evaluateBase object
  | .subscript _ _ indexed _ _ => evaluateBase indexed
  | .name location _ n use => useName n use location
  | .tuple _ _ elems | .array _ _ elems => evaluateAll elems
  | .call location _ target args => do
    if target.kind = .localValue then
      let _ ← definedBinding target.callee location
    evaluateArgs target.callee [] target.ownership args
  | .int _ _ _ | .float _ _ | .bool _ _ | .natParam _ _ | .fnRef _ _ _ => pure ()

/-- Evaluates some expressions in order. -/
def evaluateAll : List Typed.Expr → Follow Unit
  | [] => pure ()
  | e :: es => do
    evaluate e
    evaluateAll es

/-- Evaluates the arguments of a call in order. -/
def evaluateArgs (callee : String) (roots : List String) (ownership : List Ownership) :
    List Typed.Expr → Follow Unit
  | [] => pure ()
  | e :: es => do
    let roots ← checkArg callee roots (ownership.headD .borrowed) e
    evaluate e
    evaluateArgs callee roots ownership.tail es

end

/-! ## Statements -/

namespace Follow

/-- Runs the analysis of one branch from a flow and returns the flow at its end. -/
def branch (flow : Flow) (follow : Follow Unit) : Follow Flow := do
  setFlow flow
  follow
  return (← get).flow

/-- Runs the analysis of a loop body. -/
def loop (frame : LoopFrame) (location : Location) (follow : Follow Unit) : Follow Unit := do
  modify fun s => { s with loops := frame :: s.loops }
  follow
  let s ← get
  set { s with loops := s.loops.tail }
  setFlow (← .ofExcept ((s.loops.headD frame).exit s.flow location))

/-- The innermost loop, which must exist. -/
def currentLoop (location : Location) : Follow LoopFrame := do
  match (← get).loops with
  | frame :: _ => return frame
  | [] => .defect (.jumpOutsideLoop location)

/-- Replaces the innermost loop. -/
def setCurrentLoop (frame : LoopFrame) : Follow Unit :=
  modify fun s => { s with loops := frame :: s.loops.tail }

/-- Checks that no loop over linear elements is left, the outermost first. -/
def checkLeavesNoElements (location : Location) : Follow Unit := do
  match (← get).loops.reverse.find? (·.linearElements) with
  | some frame => .reject location (.returnFromLoop frame.loopVar)
  | none => pure ()

/-- Checks the exit of the function at the current point. -/
def exitHere (location : Location) : Follow Unit := do
  .ofExcept ((← get).flow.checkExit location)

/-- Whether a loop runs over an array of linear elements. -/
def runsOverLinear (iterable : Typed.Expr) (varType : Ty) : Follow Bool := do
  match iterable.type with
  | .array _ _ => return (← classify varType) = .linear
  | _ => return false

end Follow

mutual

/-- Follows the bindings through a statement of the function `name`. -/
def checkStmt (name : String) : Typed.Stmt → Follow Unit
  | .assign location target value => do
    evaluate value
    bind target value.type location
  | .tupleAssign location targets value => do
    evaluate value
    match value.type with
    | .tuple elems =>
      unless elems.length = targets.length do
        .defect (.notTuple value.type)
      bindAll location targets elems
    | t => .defect (.notTuple t)
  | .expr location value => do
    evaluate value
    if (← classify value.type) = .linear then
      .reject location (.droppedResult value.type)
  | .ret location value => do
    match value with
    | some e => evaluate e
    | none => pure ()
    checkLeavesNoElements location
    exitHere location
    jump
  | .branch location condition thenBody elseBody => do
    evaluate condition
    let before := (← get).flow
    let afterThen ← branch before (checkBlock name thenBody)
    let afterElse ← branch before (checkBlock name elseBody)
    setFlow (← .ofExcept (afterThen.merge location afterElse))
  | .whileLoop location condition body => do
    evaluate condition
    loop { entry := (← get).flow } location (checkBlock name body)
  | .forLoop location loopVar varType iterable body => do
    evaluate iterable
    let entry := (← get).flow
    let linearElements ← runsOverLinear iterable varType
    bind loopVar varType location
    loop { entry, loopVar, linearElements } location (checkBlock name body)
  | .breakLoop location => do
    let frame ← currentLoop location
    if frame.linearElements then
      .reject location (.breakFromLoop frame.loopVar)
    let flow := (← get).flow
    .ofExcept (frame.checkLoopVar flow location)
    setCurrentLoop { frame with breaks := frame.breaks ++ [flow] }
    jump
  | .continueLoop location => do
    let frame ← currentLoop location
    let flow := (← get).flow
    setCurrentLoop { frame with continues := frame.continues ++ [flow] }
    jump

/-- Follows the bindings through a block, up to the first statement that cannot be
    reached. -/
def checkBlock (name : String) : List Typed.Stmt → Follow Unit
  | [] => pure ()
  | s :: ss => do
    if (← get).flow.reachable then
      checkStmt name s
      checkBlock name ss
    else
      warnUnreachable name s.location

end

/-! ## Functions -/

/-- Binds the parameters of a function. -/
def bindParams : List Param → Follow Unit
  | [] => pure ()
  | p :: ps => do
    let cls ← classify p.type
    setBinding p.name
      { state := .defined, cls
        borrowedParam := p.ownership = .borrowed && cls ≠ .copyable }
    bindParams ps

/-- Follows the bindings through a function, from its parameters to its end. -/
def followFunction (f : Typed.Function) : Follow Unit := do
  bindParams f.params
  checkBlock f.qualifiedName f.body
  if (← get).flow.reachable then
    exitHere f.location

/-- Checks a function and returns the warnings about it. -/
def checkFunction (f : Typed.Function) : Analysis ClassMemo (List Diagnostic) := fun memo =>
  match followFunction f { memo } with
  | .ok () s => .ok s.warnings s.memo
  | .error e s => .error e s.memo

end QuantumStatics.Consumption
