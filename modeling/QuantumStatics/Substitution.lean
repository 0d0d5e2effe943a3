/-
  Substitutions: what inference has found out so far.

  A `Substitution` maps stamps of undetermined types to types and stamps of
  undetermined nats to nats.  Applying one replaces every bound stamp by its
  image, once: images are left as they are.  Subtrees that mention no bound stamp
  are kept (`Ty.subst?` has nothing to say about them).

  * `Ty.subst_tuple` and its like: replacing goes through every constructor.
-/
import QuantumStatics.Change
import QuantumStatics.Ty.Vars

namespace QuantumStatics

/-- Images of undetermined types and nats. -/
structure Substitution where
  types : Dict Stamp Ty := ∅
  nats : Dict Stamp NatTerm := ∅

/-- The image of an undetermined nat, if it has one. -/
def NatTerm.subst? (S : Substitution) : NatTerm → Option NatTerm
  | .undet stamp => S.nats.get? stamp
  | .const _ | .var _ => none

/-- Replaces an undetermined nat by its image. -/
def NatTerm.subst (S : Substitution) (n : NatTerm) : NatTerm := (n.subst? S).getD n

mutual

/-- A type with undetermined types and nats replaced by their images, or nothing
    if it mentions none that have images. -/
def Ty.subst? (S : Substitution) : Ty → Option Ty
  | .prim _ _ | .var _ => .none
  | .undet stamp => S.types.get? stamp
  | .tuple elems => (Ty.substAll? S elems).map .tuple
  | .array elem length => changeBoth .array elem length (elem.subst? S) (length.subst? S)
  | .struct decl typeArgs natArgs =>
    changeBoth (.struct decl) typeArgs natArgs (Ty.substAll? S typeArgs)
      (changeAll (NatTerm.subst? S) natArgs)
  | .fn params result generics =>
    changeBoth (.fn · · generics) params result (Ty.substParams? S params) (result.subst? S)
  | .option inner => (inner.subst? S).map .option

/-- Some types with their undetermined types and nats replaced. -/
def Ty.substAll? (S : Substitution) : List Ty → Option (List Ty)
  | [] => .none
  | t :: ts => changeBoth List.cons t ts (t.subst? S) (Ty.substAll? S ts)

/-- The parameters of a function type with their undetermined types and nats
    replaced. -/
def Ty.substParams? (S : Substitution) : List ParamType → Option (List ParamType)
  | [] => .none
  | ⟨t, ownership⟩ :: ps =>
    changeBoth List.cons ⟨t, ownership⟩ ps ((t.subst? S).map (⟨·, ownership⟩))
      (Ty.substParams? S ps)

end

/-- Replaces undetermined types and nats by their images. -/
def Ty.subst (S : Substitution) (t : Ty) : Ty := (t.subst? S).getD t

/-- Replaces undetermined types and nats in the type of a parameter. -/
def ParamType.subst (S : Substitution) (p : ParamType) : ParamType :=
  ⟨p.type.subst S, p.ownership⟩

namespace Ty

variable (S : Substitution)

attribute [local simp] subst? substAll? substParams?

theorem getD_substAll? (ts : List Ty) : (substAll? S ts).getD ts = ts.map (subst S) := by
  induction ts with
  | nil => rfl
  | cons t ts ih => simp [ih, subst]

theorem getD_substParams? (ps : List ParamType) :
    (substParams? S ps).getD ps = ps.map (ParamType.subst S) := by
  induction ps with
  | nil => rfl
  | cons p ps ih =>
    obtain ⟨t, ownership⟩ := p
    simp only [substParams?, getD_changeBoth, ih, List.map_cons, ParamType.subst, subst]
    cases t.subst? S <;> rfl

@[simp] theorem subst_prim (name : String) (cls : OwnershipClass) :
    (prim name cls).subst S = .prim name cls := by
  simp [subst]

@[simp] theorem subst_var (p : TypeParam) : (var p).subst S = .var p := by
  simp [subst]

@[simp] theorem subst_undet (stamp : Stamp) :
    (undet stamp).subst S = (S.types.get? stamp).getD (.undet stamp) := by
  simp [subst]

@[simp] theorem subst_tuple (ts : List Ty) :
    (tuple ts).subst S = .tuple (ts.map (subst S)) := by
  simp [subst, getD_substAll?]

@[simp] theorem subst_array (t : Ty) (n : NatTerm) :
    (array t n).subst S = .array (t.subst S) (n.subst S) := by
  simp [subst, NatTerm.subst]

@[simp] theorem subst_struct (d : StructDecl) (ts : List Ty) (ns : List NatTerm) :
    (struct d ts ns).subst S = .struct d (ts.map (subst S)) (ns.map (NatTerm.subst S)) := by
  simp [subst, getD_substAll?, NatTerm.subst]

@[simp] theorem subst_fn (ps : List ParamType) (r : Ty) (g : Generics) :
    (fn ps r g).subst S = .fn (ps.map (ParamType.subst S)) (r.subst S) g := by
  rw [subst, subst?, getD_changeBoth (fun ps r => fn ps r g), getD_substParams?, subst]

@[simp] theorem subst_option (t : Ty) : (option t).subst S = .option (t.subst S) := by
  simp [subst]

end Ty

namespace Substitution

instance : Inhabited Substitution := ⟨{}⟩

/-- Whether nothing is bound. -/
def isEmpty (S : Substitution) : Bool := S.types.isEmpty && S.nats.isEmpty

/-- Applies a substitution to a type. -/
def apply (S : Substitution) (t : Ty) : Ty := if S.isEmpty then t else t.subst S

/-- Applies a substitution to a nat. -/
def applyNat (S : Substitution) (n : NatTerm) : NatTerm := n.subst S

/-- The substitution that binds one undetermined type. -/
def ofType (stamp : Stamp) (t : Ty) : Substitution := { types := .insert ∅ stamp t }

/-- The substitution that binds one undetermined nat. -/
def ofNat (stamp : Stamp) (n : NatTerm) : Substitution := { nats := .insert ∅ stamp n }

/-- Binds an undetermined type to `t`, replacing it by `t` in the images that
    mention it. -/
def bindType (S : Substitution) (stamp : Stamp) (t : Ty) : Substitution :=
  { S with types := (S.types.map (ofType stamp t).apply).insert stamp t }

/-- Binds an undetermined nat to `n`, replacing it by `n` in the images that
    mention it. -/
def bindNat (S : Substitution) (stamp : Stamp) (n : NatTerm) : Substitution where
  types := S.types.map (ofNat stamp n).apply
  nats := (S.nats.map (ofNat stamp n).applyNat).insert stamp n

end Substitution

end QuantumStatics
