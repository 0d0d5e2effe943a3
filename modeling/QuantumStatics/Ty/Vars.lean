/-
  The variables that a type mentions.

  `Ty.vars` lists the free variables of a type in the order in which they are
  printed, repeated ones included.  A function type binds its own generic
  parameters, and a struct type mentions what its arguments mention.  A type
  without free variables is `closed`.

  `Ty.anyVar` looks for a free variable with a property and builds no list;
  `anyVar_eq` says that it is the search among `Ty.vars`.
-/
import QuantumStatics.Dict
import QuantumStatics.Ty.Basic

namespace QuantumStatics

/-- A variable that a type may mention. -/
inductive Var where
  | type (name : String)
  | nat (name : String)
  | undetType (stamp : Stamp)
  | undetNat (stamp : Stamp)
  deriving DecidableEq, Inhabited, Repr

namespace Var

/-- Whether a variable is to be determined by inference. -/
def isUndetermined : Var → Bool
  | undetType _ | undetNat _ => true
  | type _ | nat _ => false

/-- Whether a variable is one of the given generic parameters. -/
def boundBy (g : Generics) : Var → Bool
  | type name => g.typeNames.contains name
  | nat name => g.nats.contains name
  | undetType _ | undetNat _ => false

/-- The name of a type variable. -/
def typeName? : Var → Option String
  | type name => some name
  | _ => none

/-- The name of a nat variable. -/
def natName? : Var → Option String
  | nat name => some name
  | _ => none

/-- The stamp of an undetermined type. -/
def typeStamp? : Var → Option Stamp
  | undetType stamp => some stamp
  | _ => none

/-- The stamp of an undetermined nat. -/
def natStamp? : Var → Option Stamp
  | undetNat stamp => some stamp
  | _ => none

end Var

/-- The variable that a nat is, if it is one. -/
def NatTerm.vars : NatTerm → List Var
  | .const _ => []
  | .var name => [.nat name]
  | .undet stamp => [.undetNat stamp]

mutual

/-- The free variables of a type, in the order in which they are printed. -/
def Ty.vars : Ty → List Var
  | .prim _ _ => []
  | .var p => [.type p.name]
  | .undet stamp => [.undetType stamp]
  | .tuple elems => Ty.varsAll elems
  | .array elem length => elem.vars ++ length.vars
  | .struct _ typeArgs natArgs => Ty.varsAll typeArgs ++ natArgs.flatMap NatTerm.vars
  | .fn params result generics =>
    (Ty.varsParams params ++ result.vars).filter fun v => !v.boundBy generics
  | .option inner => inner.vars

/-- The free variables of some types. -/
def Ty.varsAll : List Ty → List Var
  | [] => []
  | t :: ts => t.vars ++ Ty.varsAll ts

/-- The free variables of the parameters of a function type. -/
def Ty.varsParams : List ParamType → List Var
  | [] => []
  | ⟨t, _⟩ :: ps => t.vars ++ Ty.varsParams ps

end

mutual

/-- Whether some free variable of a type satisfies `p`. -/
def Ty.anyVar (p : Var → Bool) : Ty → Bool
  | .prim _ _ => false
  | .var q => p (.type q.name)
  | .undet stamp => p (.undetType stamp)
  | .tuple elems => Ty.anyVarAll p elems
  | .array elem length => elem.anyVar p || length.vars.any p
  | .struct _ typeArgs natArgs => Ty.anyVarAll p typeArgs || natArgs.any fun n => n.vars.any p
  | .fn params result generics =>
    Ty.anyVarParams (fun v => !v.boundBy generics && p v) params ||
      result.anyVar fun v => !v.boundBy generics && p v
  | .option inner => inner.anyVar p

/-- Whether some free variable of some types satisfies `p`. -/
def Ty.anyVarAll (p : Var → Bool) : List Ty → Bool
  | [] => false
  | t :: ts => t.anyVar p || Ty.anyVarAll p ts

/-- Whether some free variable of the parameters of a function type satisfies `p`. -/
def Ty.anyVarParams (p : Var → Bool) : List ParamType → Bool
  | [] => false
  | ⟨t, _⟩ :: ps => t.anyVar p || Ty.anyVarParams p ps

end

namespace Ty

mutual

/-- **Searching a type is searching its variables.** -/
theorem anyVar_eq (p : Var → Bool) : (t : Ty) → t.anyVar p = t.vars.any p
  | .prim _ _ | .var _ | .undet _ => by simp [anyVar, vars]
  | .tuple elems => by simp [anyVar, vars, anyVarAll_eq p elems]
  | .array elem _ => by simp [anyVar, vars, anyVar_eq p elem]
  | .struct _ typeArgs natArgs => by
    simp [anyVar, vars, anyVarAll_eq p typeArgs, List.any_flatMap]
  | .fn params result generics => by
    simp [anyVar, vars, anyVarParams_eq _ params, anyVar_eq _ result, List.any_filter]
  | .option inner => by simp [anyVar, vars, anyVar_eq p inner]

theorem anyVarAll_eq (p : Var → Bool) : (ts : List Ty) → anyVarAll p ts = (varsAll ts).any p
  | [] => rfl
  | t :: ts => by simp [anyVarAll, varsAll, anyVar_eq p t, anyVarAll_eq p ts]

theorem anyVarParams_eq (p : Var → Bool) :
    (ps : List ParamType) → anyVarParams p ps = (varsParams ps).any p
  | [] => rfl
  | ⟨t, _⟩ :: ps => by simp [anyVarParams, varsParams, anyVar_eq p t, anyVarParams_eq p ps]

end

/-- Whether a type mentions no variable. -/
def closed (t : Ty) : Bool := !t.anyVar fun _ => true

/-- Whether a type mentions something that is still to be inferred. -/
def hasUndetermined (t : Ty) : Bool := t.anyVar Var.isUndetermined

/-- Whether a type mentions the undetermined type of a stamp. -/
def mentionsType (t : Ty) (stamp : Stamp) : Bool := t.anyVar fun v => v = .undetType stamp

theorem closed_iff {t : Ty} : t.closed ↔ t.vars = [] := by
  simp [closed, anyVar_eq, List.eq_nil_iff_forall_not_mem]

theorem hasUndetermined_iff {t : Ty} : t.hasUndetermined ↔ ∃ v ∈ t.vars, v.isUndetermined := by
  simp [hasUndetermined, anyVar_eq]

theorem mentionsType_iff {t : Ty} {stamp : Stamp} :
    t.mentionsType stamp ↔ .undetType stamp ∈ t.vars := by
  simp [mentionsType, anyVar_eq]

end Ty

/-- The variables of a type by kind, each once and in increasing order. -/
structure FreeVariables where
  typeVariables : List String
  natVariables : List String
  undeterminedTypes : List Stamp
  undeterminedNats : List Stamp
  deriving DecidableEq, Repr

/-- The variables that a type mentions, by kind. -/
def Ty.freeVariables (t : Ty) : FreeVariables where
  typeVariables := Dict.distinct (t.vars.filterMap Var.typeName?)
  natVariables := Dict.distinct (t.vars.filterMap Var.natName?)
  undeterminedTypes := Dict.distinct (t.vars.filterMap Var.typeStamp?)
  undeterminedNats := Dict.distinct (t.vars.filterMap Var.natStamp?)

end QuantumStatics
