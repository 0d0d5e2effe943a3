/-
  Instantiations: arguments for generic parameters.

  An `Instantiation` maps names of type parameters to types and names of nat
  parameters to nats.  Applying one replaces the free type and nat variables of
  a type; the generic parameters that a function type binds itself stay as they
  are.  Subtrees that mention no parameter with an argument are kept (`Ty.inst?`
  has nothing to say about them).

  If a parameter is declared twice, the first declaration counts.

  * `Ty.inst_tuple` and its like: replacing goes through every constructor.
-/
import QuantumStatics.Change
import QuantumStatics.Defect

namespace QuantumStatics

/-- Arguments for type and nat parameters. -/
structure Instantiation where
  types : Dict String Ty := ∅
  nats : Dict String NatTerm := ∅

namespace Instantiation

instance : Inhabited Instantiation := ⟨{}⟩

/-- Whether no parameter has an argument. -/
def isEmpty (I : Instantiation) : Bool := I.types.isEmpty && I.nats.isEmpty

/-- Withdraws the arguments for some parameters. -/
def without (I : Instantiation) (g : Generics) : Instantiation where
  types := g.typeNames.foldl Dict.erase I.types
  nats := g.nats.foldl Dict.erase I.nats

end Instantiation

/-- The argument for a nat variable, if it has one. -/
def NatTerm.inst? (I : Instantiation) : NatTerm → Option NatTerm
  | .var name => I.nats.get? name
  | .const _ | .undet _ => none

/-- Replaces a nat variable by its argument. -/
def NatTerm.inst (I : Instantiation) (n : NatTerm) : NatTerm := (n.inst? I).getD n

mutual

/-- A type with type and nat variables replaced by their arguments, or nothing if
    it mentions none that have arguments.  A function type hides its own generic
    parameters. -/
def Ty.inst? (I : Instantiation) : Ty → Option Ty
  | .prim _ _ | .undet _ => .none
  | .var p => I.types.get? p.name
  | .tuple elems => (Ty.instAll? I elems).map .tuple
  | .array elem length => changeBoth .array elem length (elem.inst? I) (length.inst? I)
  | .struct decl typeArgs natArgs =>
    changeBoth (.struct decl) typeArgs natArgs (Ty.instAll? I typeArgs)
      (changeAll (NatTerm.inst? I) natArgs)
  | .fn params result generics =>
    changeBoth (.fn · · generics) params result (Ty.instParams? (I.without generics) params)
      (result.inst? (I.without generics))
  | .option inner => (inner.inst? I).map .option

/-- Some types with their type and nat variables replaced. -/
def Ty.instAll? (I : Instantiation) : List Ty → Option (List Ty)
  | [] => .none
  | t :: ts => changeBoth List.cons t ts (t.inst? I) (Ty.instAll? I ts)

/-- The parameters of a function type with their type and nat variables replaced. -/
def Ty.instParams? (I : Instantiation) : List ParamType → Option (List ParamType)
  | [] => .none
  | ⟨t, ownership⟩ :: ps =>
    changeBoth List.cons ⟨t, ownership⟩ ps ((t.inst? I).map (⟨·, ownership⟩))
      (Ty.instParams? I ps)

end

/-- Replaces type and nat variables by their arguments. -/
def Ty.inst (I : Instantiation) (t : Ty) : Ty := (t.inst? I).getD t

/-- Replaces type and nat variables in the type of a parameter. -/
def ParamType.inst (I : Instantiation) (p : ParamType) : ParamType :=
  ⟨p.type.inst I, p.ownership⟩

namespace Ty

variable (I : Instantiation)

attribute [local simp] inst? instAll? instParams?

theorem getD_instAll? (ts : List Ty) : (instAll? I ts).getD ts = ts.map (inst I) := by
  induction ts with
  | nil => rfl
  | cons t ts ih => simp [ih, inst]

theorem getD_instParams? (ps : List ParamType) :
    (instParams? I ps).getD ps = ps.map (ParamType.inst I) := by
  induction ps with
  | nil => rfl
  | cons p ps ih =>
    obtain ⟨t, ownership⟩ := p
    simp only [instParams?, getD_changeBoth, ih, List.map_cons, ParamType.inst, inst]
    cases t.inst? I <;> rfl

@[simp] theorem inst_prim (name : String) (cls : OwnershipClass) :
    (prim name cls).inst I = .prim name cls := by
  simp [inst]

@[simp] theorem inst_var (p : TypeParam) :
    (var p).inst I = (I.types.get? p.name).getD (.var p) := by
  simp [inst]

@[simp] theorem inst_undet (stamp : Stamp) : (undet stamp).inst I = .undet stamp := by
  simp [inst]

@[simp] theorem inst_tuple (ts : List Ty) : (tuple ts).inst I = .tuple (ts.map (inst I)) := by
  simp [inst, getD_instAll?]

@[simp] theorem inst_array (t : Ty) (n : NatTerm) :
    (array t n).inst I = .array (t.inst I) (n.inst I) := by
  simp [inst, NatTerm.inst]

@[simp] theorem inst_struct (d : StructDecl) (ts : List Ty) (ns : List NatTerm) :
    (struct d ts ns).inst I = .struct d (ts.map (inst I)) (ns.map (NatTerm.inst I)) := by
  simp [inst, getD_instAll?, NatTerm.inst]

@[simp] theorem inst_fn (ps : List ParamType) (r : Ty) (g : Generics) :
    (fn ps r g).inst I =
      .fn (ps.map (ParamType.inst (I.without g))) (r.inst (I.without g)) g := by
  rw [inst, inst?, getD_changeBoth (fun ps r => fn ps r g), getD_instParams?, inst]

@[simp] theorem inst_option (t : Ty) : (option t).inst I = .option (t.inst I) := by
  simp [inst]

end Ty

namespace Instantiation

/-- Applies an instantiation to a type. -/
def apply (I : Instantiation) (t : Ty) : Ty := if I.isEmpty then t else t.inst I

/-- Applies an instantiation to a nat. -/
def applyNat (I : Instantiation) (n : NatTerm) : NatTerm := n.inst I

/-- Pairs parameters with arguments. -/
def pair (g : Generics) (types : List Ty) (nats : List NatTerm) : Instantiation where
  types := .ofListFirst (g.typeNames.zip types)
  nats := .ofListFirst (g.nats.zip nats)

/-- Gives each parameter its argument. -/
def ofArgs (g : Generics) (types : List Ty) (nats : List NatTerm) : Except Defect Instantiation :=
  if types.length = g.types.length ∧ nats.length = g.nats.length then .ok (pair g types nats)
  else .error .argumentCount

/-- Gives each parameter a fresh undetermined type or nat, with stamps from
    `next` on, and returns the next unused stamp. -/
def fresh (g : Generics) (next : Stamp) : Instantiation × Stamp :=
  (pair g ((stampsFrom next g.types.length).map .undet)
      ((stampsFrom (next + g.types.length.toUInt64) g.nats.length).map .undet),
    next + (g.types.length + g.nats.length).toUInt64)
where
  /-- The stamps that follow a stamp, itself the first. -/
  stampsFrom (next : Stamp) (count : Nat) : List Stamp :=
    (List.range count).map fun i => next + i.toUInt64

end Instantiation

/-- The fields of a struct with its parameters replaced by arguments. -/
def StructDecl.instantiateFields (d : StructDecl) (types : List Ty) (nats : List NatTerm) :
    Except Defect (List Field) :=
  if types.length = d.params.types.length ∧ nats.length = d.params.nats.length then
    let I := Instantiation.pair d.params types nats
    .ok (d.fields.map fun f => ⟨f.name, I.apply f.type⟩)
  else .error (.structArguments d.name)

end QuantumStatics
