/-
  Equality of types.

  Leaf types and type variables are compared by name.  Struct types are compared
  by the name of their declaration and by their arguments, so two declarations
  of one name make the same types.
-/
import QuantumStatics.Ty.Basic

namespace QuantumStatics

mutual

/-- Whether two types are the same. -/
def Ty.equal : Ty → Ty → Bool
  | .prim l _, .prim r _ => l = r
  | .var l, .var r => l.name = r.name
  | .undet l, .undet r => l = r
  | .tuple ls, .tuple rs => Ty.equalAll ls rs
  | .array l ln, .array r rn => ln = rn && l.equal r
  | .struct ld ls lns, .struct rd rs rns => ld.name = rd.name && lns = rns && Ty.equalAll ls rs
  | .fn ls l lg, .fn rs r rg => lg = rg && Ty.equalParams ls rs && l.equal r
  | .option l, .option r => l.equal r
  | _, _ => false

/-- Whether two lists of types are the same, member by member. -/
def Ty.equalAll : List Ty → List Ty → Bool
  | [], [] => true
  | l :: ls, r :: rs => l.equal r && Ty.equalAll ls rs
  | _, _ => false

/-- Whether the parameters of two function types are the same. -/
def Ty.equalParams : List ParamType → List ParamType → Bool
  | [], [] => true
  | ⟨l, lo⟩ :: ls, ⟨r, ro⟩ :: rs => lo = ro && l.equal r && Ty.equalParams ls rs
  | _, _ => false

end

/-- Whether two declarations declare the same struct: the name, the generic
    parameters, and the names and types of the fields agree. -/
def StructDecl.same (l r : StructDecl) : Bool :=
  l.name = r.name && l.params = r.params && fieldsAgree l.fields r.fields
where
  /-- Whether two lists of fields agree in names and types. -/
  fieldsAgree : List Field → List Field → Bool
    | [], [] => true
    | l :: ls, r :: rs => l.name = r.name && l.type.equal r.type && fieldsAgree ls rs
    | _, _ => false

end QuantumStatics
