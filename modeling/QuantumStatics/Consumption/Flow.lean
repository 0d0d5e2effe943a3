/-
  The states of bindings along a path.

  A binding is undefined, defined, defined on some paths only, or consumed.  A
  `Flow` holds the states of all bindings at a point of a program.  Where two
  paths join (`Flow.merge`), a linear binding must be in the same state on both;
  any other binding that is not becomes one that may be undefined, or a consumed
  one if it is consumed on either path.

  A path that goes round a loop must leave every linear binding as it was at the
  entry (`LoopFrame.checkBackEdge`).
-/
import QuantumStatics.Diagnostic.Basic
import QuantumStatics.Dict.Align

namespace QuantumStatics.Consumption

/-- The state of a binding at a point of a program. -/
inductive BindingState where
  | undefined
  | defined
  /-- Defined on some of the paths that lead here. -/
  | maybeDefined
  | consumed
  deriving DecidableEq, Inhabited, Repr

/-- A binding: its state and the class of the value it was last given. -/
structure Binding where
  state : BindingState := .undefined
  cls : OwnershipClass := .copyable
  /-- Whether it is a parameter that must be given back. -/
  borrowedParam : Bool := false
  deriving DecidableEq, Inhabited, Repr

namespace Binding

/-- Whether a binding has been given a linear value. -/
def holdsLinear (b : Binding) : Bool := b.state ≠ .undefined && b.cls = .linear

/-- The undefined binding that agrees with another one in all else. -/
def undefinedLike (b : Binding) : Binding := { b with state := .undefined }

/-- The binding of a name on a path, undefined if only another path binds it. -/
def orUndefined (here there : Option Binding) : Binding :=
  here.getD (there.getD {}).undefinedLike

/-- Joins the states of a binding on two paths. -/
def merge (location : Location) (name : String) (l r : Binding) : Except Failure Binding :=
  if l.state = r.state then .ok l
  else
    let merged := if l.state = .undefined then r else l
    let eitherConsumed := l.state = .consumed ∨ r.state = .consumed
    if l.holdsLinear || r.holdsLinear then
      if l.state = .defined ∨ r.state = .defined then
        if eitherConsumed then Failure.reject location (.consumedOnOnePath name)
        else Failure.reject location (.heldOnOnePath name)
      else .ok { merged with state := .consumed }
    else .ok { merged with state := if eitherConsumed then .consumed else .maybeDefined }

end Binding

/-- The states of the bindings at a point of a program. -/
structure Flow where
  bindings : Dict String Binding := ∅
  reachable : Bool := true
  deriving Inhabited

namespace Flow

/-- Joins the bindings of names on two paths, in order. -/
def mergeEach (location : Location) :
    List (String × Option Binding × Option Binding) → Except Failure (List (String × Binding))
  | [] => .ok []
  | (name, l, r) :: rest => do
    let b ← Binding.merge location name (.orUndefined l r) (.orUndefined r l)
    return (name, b) :: (← mergeEach location rest)

/-- Joins two paths.  An unreachable path does not count. -/
def merge (location : Location) (l r : Flow) : Except Failure Flow := do
  if !l.reachable then
    return r
  if !r.reachable then
    return l
  return { bindings := .ofListFirst (← mergeEach location (l.bindings.align r.bindings)) }

/-- Joins several paths to one. -/
def mergeAll (location : Location) (l : Flow) : List Flow → Except Failure Flow
  | [] => .ok l
  | r :: rs => do mergeAll location (← l.merge location r) rs

/-- Checks the bindings at a point where the function is left: borrowed
    parameters must be given back, and nothing linear may be left behind. -/
def checkExit (flow : Flow) (location : Location) : Except Failure Unit :=
  flow.bindings.entries.forM fun (name, b) =>
    if b.borrowedParam then
      unless b.state = .defined do Failure.reject location (.notRestored name)
    else if b.cls = .linear ∧ b.state = .defined then
      Failure.reject location (.neverConsumed name)
    else pure ()

end Flow

/-! ## Loops -/

/-- A loop around the current statement. -/
structure LoopFrame where
  /-- The flow at the entry, before the loop variable is bound. -/
  entry : Flow
  /-- The loop variable; empty for loops without one. -/
  loopVar : String := ""
  /-- Whether the loop runs over an array of linear elements. -/
  linearElements : Bool := false
  /-- The flows at the jumps out of the loop. -/
  breaks : List Flow := []
  /-- The flows at the jumps to the next iteration. -/
  continues : List Flow := []
  deriving Inhabited

namespace LoopFrame

/-- Checks that the loop variable does not hold a linear value. -/
def checkLoopVar (frame : LoopFrame) (flow : Flow) (location : Location) : Except Failure Unit :=
  if frame.loopVar.isEmpty then pure ()
  else
    match flow.bindings.get? frame.loopVar with
    | some b =>
      if b.cls = .linear ∧ b.state = .defined then
        Failure.reject location (.loopVariableKept frame.loopVar)
      else pure ()
    | none => pure ()

/-- Checks that a binding which holds a linear value at the entry or at the end of
    an iteration is defined at both or at neither.  The loop variable is exempt. -/
def checkBalance (frame : LoopFrame) (location : Location) :
    String × Option Binding × Option Binding → Except Failure Unit
  | (name, entry, edge) =>
    let onEntry := Binding.orUndefined entry edge
    let atEdge := edge.getD {}
    if name ≠ frame.loopVar ∧ (onEntry.holdsLinear || atEdge.holdsLinear) then
      if onEntry.state = .defined ∧ atEdge.state ≠ .defined then
        Failure.reject location (.consumedInLoop name)
      else if atEdge.state = .defined ∧ onEntry.state ≠ .defined then
        Failure.reject location (.createdInLoop name)
      else pure ()
    else pure ()

/-- Checks the end of an iteration. -/
def checkBackEdge (frame : LoopFrame) (edge : Flow) (location : Location) :
    Except Failure Unit := do
  frame.checkLoopVar edge location
  (frame.entry.bindings.align edge.bindings).forM (frame.checkBalance location)

/-- Joins the paths that end an iteration to the paths that leave the loop. -/
def exitAfter (frame : LoopFrame) (location : Location) (exit : Flow) :
    List Flow → Except Failure Flow
  | [] => .ok exit
  | edge :: edges => do
    frame.checkBackEdge edge location
    frame.exitAfter location (← exit.merge location edge) edges

/-- The flow behind a loop whose body ends with the given flow. -/
def exit (frame : LoopFrame) (atEnd : Flow) (location : Location) : Except Failure Flow := do
  let edges := if atEnd.reachable then atEnd :: frame.continues else frame.continues
  let exit ← frame.exitAfter location frame.entry edges
  exit.mergeAll location frame.breaks

end LoopFrame

end QuantumStatics.Consumption
