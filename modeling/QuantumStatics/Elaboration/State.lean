/-
  What is known while a function body is checked.

  An `Env` holds the types of the local bindings on the current path.  Statements
  behind a jump are checked as well, in the environment of the jump, but that
  environment is marked as unreachable and does not count where paths join.

  The `Check` monad threads the environment, the substitution found so far, the
  loops around the current statement, and what the current statement still has to
  determine.  Stamps and remembered classes outlive the function
  (`CheckerMemory`).
-/
import QuantumStatics.Classification
import QuantumStatics.Dict.Align
import QuantumStatics.Signature.Table
import QuantumStatics.Typed.Basic

namespace QuantumStatics.Elaboration

open Typed (UseKind)

/-! ## State -/

/-- What a checker carries from one definition to the next. -/
structure CheckerMemory where
  /-- The next unused stamp. -/
  next : Stamp := 1
  memo : ClassMemo := {}
  deriving Inhabited

/-- The local bindings on the current path. -/
structure Env where
  bindings : Dict String Ty := ∅
  reachable : Bool := true
  deriving Inhabited

/-- The environments at the jumps of a loop, in the order of the jumps. -/
structure LoopFrame where
  breaks : List Env := []
  continues : List Env := []
  deriving Inhabited

/-- A call of a generic function whose arguments have to be determined. -/
structure PendingCall where
  location : Location
  callee : String
  generics : Generics
  typeArgs : List Ty
  natArgs : List NatTerm

/-- A binding whose type has to be determined. -/
structure PendingBinding where
  location : Location
  name : String

/-- The state while a function body is checked. -/
structure BodyState extends CheckerMemory where
  subs : Substitution := {}
  env : Env := {}
  /-- The loops around the current statement, the innermost first. -/
  loops : List LoopFrame := []
  /-- The generic calls of the current statement. -/
  calls : List PendingCall := []
  /-- The bindings of the current statement. -/
  bound : List PendingBinding := []
  deriving Inhabited

/-- What a function body is checked against. -/
structure Scope where
  table : SignatureTable
  /-- The registered name of the function. -/
  function : String
  generics : Generics
  result : Ty
  /-- The names that are assigned somewhere in the body. -/
  assigned : List String

/-- Computations that check a function body. -/
abbrev Check := Analysis BodyState

namespace Check

/-! ## Types -/

/-- A type with what has been found out put in. -/
def resolve (t : Ty) : Check Ty := return (← get).subs.apply t

/-- A fresh undetermined type. -/
def freshType : Check Ty := modifyGet fun s => (.undet s.next, { s with next := s.next + 1 })

/-- Fresh undetermined types and nats for generic parameters. -/
def freshArgs (g : Generics) : Check Instantiation :=
  modifyGet fun s =>
    let (I, next) := Instantiation.fresh g s.next
    (I, { s with next })

/-- The ownership class of a type. -/
def classify (t : Ty) : Check OwnershipClass := fun s =>
  match ClassMemo.classify t s.memo with
  | .ok c memo => .ok c { s with memo }
  | .error d memo => .error (.defect d) { s with memo }

/-- Makes two types the same, failing as `onError` says. -/
def unifyOr (onError : UnificationError → Substitution → Rejection) (l r : Ty) : Check Ty :=
  fun s =>
    match unify l r s.subs with
    | .ok t subs => .ok t { s with subs }
    | .error e subs => .error (.rejected (onError e subs)) { s with subs }

/-- Makes two types the same where `what` stands. -/
def unifyAt (location : Location) (what : String) (l r : Ty) : Check Unit := do
  let _ ← unifyOr (fun e _ => ⟨.mismatch what e, location⟩) l r

/-- Makes the type of an expression the expected one. -/
def expect (e : Typed.Expr) (t : Ty) (location : Location) (what : String) : Check Unit :=
  unifyAt location what t e.type

/-- How the use of a place of some type is recorded: copyable values are read,
    others are used as the context says. -/
def placeUse (t : Ty) (context : UseKind) : Check UseKind := do
  let t ← resolve t
  if t.hasUndetermined then
    return context
  return if (← classify t) = .copyable then .read else context

/-- Records how an expression is used, if it is a place. -/
def setUse (context : UseKind) : Typed.Expr → Check Typed.Expr
  | .name location t n _ => return .name location t n (← placeUse t context)
  | .field location t object label index _ =>
    return .field location t object label index (← placeUse t context)
  | .subscript location t indexed index _ =>
    return .subscript location t indexed index (← placeUse t context)
  | e => return e

/-! ## Environments -/

/-- The type of a local binding. -/
def binding? (name : String) : Check (Option Ty) := return (← get).env.bindings.get? name

/-- Binds a name whose type has to be determined by the end of the statement. -/
def bind (name : String) (type : Ty) (location : Location) : Check Unit :=
  modify fun s =>
    { s with
      env := { s.env with bindings := s.env.bindings.insert name type }
      bound := s.bound ++ [⟨location, name⟩] }

/-- Marks what follows as unreachable. -/
def jump : Check Unit := modify fun s => { s with env := { s.env with reachable := false } }

/-- Joins the bindings of names on two paths, in order.  A name that is bound on
    both must have one type. -/
def mergeEach (location : Location) :
    List (String × Option Ty × Option Ty) → Check (List (String × Ty))
  | [] => return []
  | (name, some l, some r) :: rest => do
    let t ← unifyOr (fun _ S => ⟨.inconsistentBinding name (S.apply l) (S.apply r), location⟩) l r
    return (name, t) :: (← mergeEach location rest)
  | (name, some t, none) :: rest | (name, none, some t) :: rest =>
    return (name, t) :: (← mergeEach location rest)
  | (_, none, none) :: rest => mergeEach location rest

/-- Joins two paths.  Unreachable paths do not count, unless both are. -/
def merge (location : Location) (l r : Env) : Check Env :=
  match l.reachable, r.reachable with
  | true, true =>
    return ⟨.ofListFirst (← mergeEach location (l.bindings.align r.bindings)), true⟩
  | true, false => return l
  | false, true => return r
  | false, false => return ⟨l.bindings.union r.bindings, false⟩

/-- Joins several paths to one. -/
def mergeAll (location : Location) (l : Env) : List Env → Check Env
  | [] => return l
  | r :: rs => do mergeAll location (← merge location l r) rs

/-- Changes the innermost loop, which must exist. -/
def inLoop (location : Location) (what : String) (f : LoopFrame → LoopFrame) : Check Unit := do
  let s ← get
  match s.loops with
  | frame :: loops => set { s with loops := f frame :: loops }
  | [] => .reject location (.outsideLoop what)

/-! ## Ends of statements -/

/-- Checks that the type arguments of a generic call are determined and accepted
    by the parameters. -/
def resolveTypeArgs (call : PendingCall) : List TypeParam → List Ty → Check Unit
  | p :: ps, t :: ts => do
    let t ← resolve t
    if t.hasUndetermined then
      .reject call.location (.unresolvedTypeParameter p.name call.callee)
    let c ← classify t
    unless p.admits c do
      .reject call.location (.boundViolated t c p.name call.callee)
    resolveTypeArgs call ps ts
  | _, _ => pure ()

/-- Checks that the nat arguments of a generic call are determined. -/
def resolveNatArgs (call : PendingCall) : List String → List NatTerm → Check Unit
  | p :: ps, n :: ns => do
    if ((← get).subs.applyNat n).isUndet then
      .reject call.location (.unresolvedNatParameter p call.callee)
    resolveNatArgs call ps ns
  | _, _ => pure ()

/-- Checks that the type of a binding is determined, and fixes it. -/
def resolveBinding (b : PendingBinding) : Check Unit := do
  match ← binding? b.name with
  | none => pure ()
  | some t =>
    let t ← resolve t
    if t.hasUndetermined then
      .reject b.location (.unresolvedBinding b.name t)
    modify fun s => { s with env := { s.env with bindings := s.env.bindings.insert b.name t } }

/-- Checks that the current statement has determined its generic calls and its
    bindings. -/
def resolvePending : Check Unit := do
  let s ← get
  s.calls.forM fun call => do
    resolveTypeArgs call call.generics.types call.typeArgs
    resolveNatArgs call call.generics.nats call.natArgs
  s.bound.forM resolveBinding

/-- Runs the check of one statement, which has to determine what it introduces. -/
def statement {α : Type} (check : Check α) : Check α := do
  let saved ← get
  set { saved with calls := [], bound := [] }
  let result ← check
  resolvePending
  modify fun s => { s with calls := saved.calls, bound := saved.bound }
  return result

end Check

end QuantumStatics.Elaboration
