/-
  Unification of types.

  `unify l r` looks for a substitution under which `l` and `r` become the same
  type, starting from the substitution found so far and extending it.  It runs
  in the `Unifier` monad, whose state is that substitution: bindings found before
  a failure are kept.  The current substitution is applied again whenever a pair
  of components is reached, since earlier components may have extended it.

  A failure is a `Clash`, together with the pairs of types on the way to it, from
  the innermost to the outermost.

  Under a substitution in which no bound stamp occurs in an image, the nesting of
  components is bounded, and `unify` allows for a depth beyond that bound.  Under
  other substitutions a type may unfold for ever; then the depth runs out.
-/
import QuantumStatics.Ty.Equal
import QuantumStatics.Ty.Print
import QuantumStatics.Substitution

namespace QuantumStatics

/-! ## Failures -/

/-- What a type is, for messages. -/
def Ty.describe : Ty → String
  | .prim name _ => "primitive type " ++ name
  | .var p => "type variable " ++ p.name
  | .undet _ => "undetermined type"
  | .tuple _ => "tuple type"
  | .array _ _ => "array type"
  | .struct decl _ _ => "struct type " ++ decl.name
  | .fn _ _ _ => "function type"
  | .option _ => "option type"

/-- Why two types cannot be made the same. -/
inductive Clash where
  /-- An undetermined type would have to contain itself. -/
  | recursive (stamp : Stamp) (image : Ty)
  /-- The types are built differently. -/
  | shapes (l r : Ty)
  /-- Two different leaf types. -/
  | leaves (l r : String)
  /-- Two different type variables. -/
  | typeVariables (l r : String)
  | tupleLengths
  /-- Two different structs. -/
  | structs (l r : String)
  | typeArgumentCounts (l r : Nat)
  | natArgumentCounts (l r : Nat)
  | parameterCounts (l r : Nat)
  /-- Function types that bind different generic parameters. -/
  | generics
  /-- A parameter that is passed differently. -/
  | ownership (position : Nat) (l r : Ownership)
  /-- Two different nats, neither of them undetermined. -/
  | nats (l r : NatTerm)
  /-- The types unfold without end under the substitution. -/
  | endless

/-- The text of a clash. -/
def Clash.message : Clash → String
  | recursive stamp image =>
    "Recursive substitution failure: cannot map " ++ (Ty.undet stamp).text ++ " to " ++ image.text
  | shapes l r => "Cannot unify " ++ l.describe ++ " with " ++ r.describe
  | leaves l r => "Cannot unify " ++ l ++ " with " ++ r
  | typeVariables l r => "A type variable can only unify with itself. " ++ l ++ " != " ++ r
  | tupleLengths => "Cannot unify tuples of different length"
  | structs l r => "Cannot unify distinct structs " ++ l ++ " and " ++ r
  | typeArgumentCounts l r =>
    "Cannot unify " ++ toString l ++ " type arguments with " ++ toString r
  | natArgumentCounts l r => "Cannot unify " ++ toString l ++ " nat arguments with " ++ toString r
  | parameterCounts l r =>
    "Cannot unify functions taking " ++ toString l ++ " and " ++ toString r ++ " parameters"
  | generics => "Cannot unify functions with different generic parameters"
  | ownership position l r =>
    "Parameter " ++ toString position ++ " is " ++ l.text ++ " in one function type and " ++
      r.text ++ " in the other"
  | nats l r => "Cannot unify nat " ++ l.text ++ " with " ++ r.text
  | endless => "Cannot unify types that unfold without end"

/-- A clash and the pairs of types on the way to it, innermost first. -/
structure UnificationError where
  clash : Clash
  context : List (Ty × Ty) := []

namespace UnificationError

/-- Records that the failure happened while `l` and `r` were unified. -/
def within (e : UnificationError) (l r : Ty) : UnificationError :=
  { e with context := e.context ++ [(l, r)] }

/-- A reason followed by the pairs of types on the way to it. -/
def explain (reason : String) (context : List (Ty × Ty)) : String :=
  context.foldl
    (fun text p => text ++ "\n----\nwhile trying to unify\n" ++ p.1.text ++ "\nwith\n" ++ p.2.text)
    reason

/-- The text of a failure. -/
def message (e : UnificationError) : String := explain e.clash.message e.context

end UnificationError

/-! ## Unification -/

/-- Computations that extend a substitution and may fail. -/
abbrev Unifier := EStateM UnificationError Substitution

namespace Unifier

/-- Fails with a clash. -/
def clash {α : Type} (c : Clash) : Unifier α := throw { clash := c }

/-- Binds an undetermined type to a type that does not contain it. -/
def bindType (stamp : Stamp) (t : Ty) : Unifier Unit := do
  let S ← get
  let t := S.apply t
  if t.mentionsType stamp then clash (.recursive stamp t)
  set (S.bindType stamp t)

/-- Binds an undetermined nat to a nat other than itself. -/
def bindNat (stamp : Stamp) (n : NatTerm) : Unifier Unit := do
  let S ← get
  let n := S.applyNat n
  unless n = .undet stamp do
    set (S.bindNat stamp n)

/-- Makes two nats the same and returns what they became. -/
def nats (l r : NatTerm) : Unifier NatTerm := do
  let S ← get
  let l := S.applyNat l
  let r := S.applyNat r
  if l = r then
    return l
  match l, r with
  | .undet stamp, _ => bindNat stamp r; return r
  | _, .undet stamp => bindNat stamp l; return l
  | _, _ => clash (.nats l r)

/-- Makes the members of two lists of nats the same. -/
def natPairs : List NatTerm → List NatTerm → Unifier Unit
  | l :: ls, r :: rs => do
    let _ ← nats l r
    natPairs ls rs
  | _, _ => pure ()

/-- Makes the members of two lists the same by `go`. -/
def pairs (go : Ty → Ty → Unifier Unit) : List Ty → List Ty → Unifier Unit
  | l :: ls, r :: rs => do
    go l r
    pairs go ls rs
  | _, _ => pure ()

/-- Makes the parameters of two function types the same by `go`, from a
    position on. -/
def params (go : Ty → Ty → Unifier Unit) (position : Nat) :
    List ParamType → List ParamType → Unifier Unit
  | l :: ls, r :: rs => do
    unless l.ownership = r.ownership do
      clash (.ownership position l.ownership r.ownership)
    go l.type r.type
    params go (position + 1) ls rs
  | _, _ => pure ()

/-- Makes two types the same that the substitution has been applied to, their
    components by `go`. -/
def shapes (go : Ty → Ty → Unifier Unit) : Ty → Ty → Unifier Unit
  | .undet l, .undet r => unless l = r do bindType l (.undet r)
  | .undet l, r => bindType l r
  | l, .undet r => bindType r l
  | .prim l _, .prim r _ => unless l = r do clash (.leaves l r)
  | .var l, .var r => unless l.name = r.name do clash (.typeVariables l.name r.name)
  | .tuple ls, .tuple rs => do
    unless ls.length = rs.length do
      clash .tupleLengths
    pairs go ls rs
  | .array l ln, .array r rn => do
    go l r
    let _ ← nats ln rn
  | .struct ld ls lns, .struct rd rs rns => do
    unless ld.name = rd.name do
      clash (.structs ld.name rd.name)
    unless ls.length = rs.length do
      clash (.typeArgumentCounts ls.length rs.length)
    pairs go ls rs
    unless lns.length = rns.length do
      clash (.natArgumentCounts lns.length rns.length)
    natPairs lns rns
  | .fn ls l lg, .fn rs r rg => do
    unless ls.length = rs.length do
      clash (.parameterCounts ls.length rs.length)
    unless lg = rg do
      clash .generics
    params go 0 ls rs
    go l r
  | .option l, .option r => go l r
  | l, r => clash (.shapes l r)

/-- Makes two types the same whose components nest to a given depth at most. -/
def types : (depth : Nat) → Ty → Ty → Unifier Unit
  | 0, _, _ => clash .endless
  | depth + 1, l, r => fun S =>
    match shapes (types depth) (S.apply l) (S.apply r) S with
    | .ok () S' => .ok () S'
    | .error e S' => .error (e.within (S.apply l) (S.apply r)) S'

end Unifier

mutual

/-- The number of constructors of a type, those of declarations not counted. -/
def Ty.size : Ty → Nat
  | .prim _ _ | .var _ | .undet _ => 1
  | .tuple elems => 1 + Ty.sizeAll elems
  | .array elem _ => 1 + elem.size
  | .struct _ typeArgs _ => 1 + Ty.sizeAll typeArgs
  | .fn params result _ => 1 + Ty.sizeParams params + result.size
  | .option inner => 1 + inner.size

/-- The number of constructors of some types. -/
def Ty.sizeAll : List Ty → Nat
  | [] => 0
  | t :: ts => t.size + Ty.sizeAll ts

/-- The number of constructors of the parameters of a function type. -/
def Ty.sizeParams : List ParamType → Nat
  | [] => 0
  | ⟨t, _⟩ :: ps => t.size + Ty.sizeParams ps

end

/-- A depth that unifying two types does not exceed: each binding at most doubles
    the nesting, and there are fewer bindings to find than constructors. -/
def depthBound (l r : Ty) : Nat := 1 <<< (l.size + r.size + 32)

/-- Makes two types the same and returns what they became. -/
def unify (l r : Ty) : Unifier Ty := do
  let S ← get
  Unifier.types (depthBound (S.apply l) (S.apply r)) l r
  return (← get).apply (S.apply l)

/-- Makes two nats the same and returns what they became. -/
def unifyNats (l r : NatTerm) : Unifier NatTerm := Unifier.nats l r

/-- Whether two types are the same under a substitution. -/
def Substitution.equates (S : Substitution) (l r : Ty) : Bool := (S.apply l).equal (S.apply r)

end QuantumStatics
