/-
  Rewriting node by node.

  Applying a substitution or an instantiation keeps the subtrees that mention nothing of interest.
  `Ty.rewrite` is the recursion over a type with a test for what is kept; with a test that nothing
  passes, it visits every node and builds it again.  A function type hides its own generic
  parameters, so that a subtree of it may mention a name that has an argument and be kept all the
  same.

  * `pruned_rewriting_eq_plain`: substitutions and instantiations are applied as if every node were
    visited, whether subtrees are kept for the variables that have images or for the kinds of
    variables among the free ones.
-/
import QuantumStatics.Proofs.Ty.Instantiation

namespace QuantumStatics

/-! ## The recursion -/

/-- What variables are replaced by. -/
structure Rewriting where
  type : TypeParam → Ty := .var
  nat : String → NatTerm := .var
  undetType : Stamp → Ty := .undet
  undetNat : Stamp → NatTerm := .undet

namespace Rewriting

/-- The rewriting under a function type, which hides its own generic parameters. -/
def under (ρ : Rewriting) (g : Generics) : Rewriting where
  type p := if p.name ∈ g.typeNames then .var p else ρ.type p
  nat n := if n ∈ g.nats then .var n else ρ.nat n
  undetType := ρ.undetType
  undetNat := ρ.undetNat

/-- Undetermined types and nats are replaced by their images. -/
def ofSubstitution (S : Substitution) : Rewriting where
  undetType stamp := (S.types.get? stamp).getD (.undet stamp)
  undetNat stamp := (S.nats.get? stamp).getD (.undet stamp)

/-- Generic parameters are replaced by their arguments. -/
def ofInstantiation (I : Instantiation) : Rewriting where
  type p := (I.types.get? p.name).getD (.var p)
  nat n := (I.nats.get? n).getD (.var n)

/-- Two rewritings do the same to a variable. -/
def AgreeAt (ρ ρ' : Rewriting) : Var → Prop
  | .type n => ∀ p : TypeParam, p.name = n → ρ.type p = ρ'.type p
  | .nat n => ρ.nat n = ρ'.nat n
  | .undetType stamp => ρ.undetType stamp = ρ'.undetType stamp
  | .undetNat stamp => ρ.undetNat stamp = ρ'.undetNat stamp

/-- A variable is left as it is. -/
def Keeps (ρ : Rewriting) (v : Var) : Prop := ρ.AgreeAt {} v

end Rewriting

/-- A nat with its variable replaced. -/
def NatTerm.rewrite (ρ : Rewriting) : NatTerm → NatTerm
  | .const value => .const value
  | .var name => ρ.nat name
  | .undet stamp => ρ.undetNat stamp

mutual

/-- A type with its variables replaced, node by node.  A subtree that passes the test is kept. -/
def Ty.rewrite (kept : Ty → Bool) (ρ : Rewriting) (t : Ty) : Ty :=
  if kept t then t else
    match t with
    | .prim name cls => .prim name cls
    | .var p => ρ.type p
    | .undet stamp => ρ.undetType stamp
    | .tuple elems => .tuple (Ty.rewriteAll kept ρ elems)
    | .array elem length => .array (elem.rewrite kept ρ) (length.rewrite ρ)
    | .struct decl typeArgs natArgs =>
      .struct decl (Ty.rewriteAll kept ρ typeArgs) (natArgs.map (NatTerm.rewrite ρ))
    | .fn params result generics =>
      .fn (Ty.rewriteParams kept (ρ.under generics) params)
        (result.rewrite kept (ρ.under generics)) generics
    | .option inner => .option (inner.rewrite kept ρ)

/-- The same for some types. -/
def Ty.rewriteAll (kept : Ty → Bool) (ρ : Rewriting) : List Ty → List Ty
  | [] => []
  | t :: ts => t.rewrite kept ρ :: Ty.rewriteAll kept ρ ts

/-- The same for the parameters of a function type. -/
def Ty.rewriteParams (kept : Ty → Bool) (ρ : Rewriting) : List ParamType → List ParamType
  | [] => []
  | ⟨t, ownership⟩ :: ps => ⟨t.rewrite kept ρ, ownership⟩ :: Ty.rewriteParams kept ρ ps

end

/-- The plain recursion: every node is visited. -/
def Ty.rewritePlain (ρ : Rewriting) (t : Ty) : Ty := t.rewrite (fun _ => false) ρ

namespace Ty

variable {kept : Ty → Bool} {ρ ρ' : Rewriting}

theorem rewriteAll_eq_map (ts : List Ty) : rewriteAll kept ρ ts = ts.map (rewrite kept ρ) :=
  companion_eq_map rfl (fun _ _ => rfl) ts

theorem rewriteParams_eq_map (ps : List ParamType) :
    rewriteParams kept ρ ps = ps.map fun p => ⟨p.type.rewrite kept ρ, p.ownership⟩ := by
  refine companion_eq_map rfl ?_ ps
  rintro ⟨t, ownership⟩ ps
  rfl

end Ty

/-! ## Free variables -/

section

variable {ρ ρ' : Rewriting}

theorem NatTerm.rewrite_congr {n : NatTerm} (h : ∀ v ∈ n.vars, ρ.AgreeAt ρ' v) :
    n.rewrite ρ = n.rewrite ρ' := by
  cases n with
  | const => rfl
  | var name => exact h _ (List.mem_singleton_self _)
  | undet stamp => exact h _ (List.mem_singleton_self _)

/-- Under a function type, the free variables of the whole are the ones that matter. -/
theorem Rewriting.AgreeAt.under {g : Generics} {v : Var}
    (h : v.boundBy g = false → ρ.AgreeAt ρ' v) : (ρ.under g).AgreeAt (ρ'.under g) v := by
  cases v with
  | type n =>
    rintro p rfl
    by_cases bound : p.name ∈ g.typeNames
    · simp [Rewriting.under, bound]
    · simpa [Rewriting.under, bound] using h (by simpa [Var.boundBy] using bound) p rfl
  | nat n =>
    by_cases bound : n ∈ g.nats
    · simp [AgreeAt, Rewriting.under, bound]
    · simpa [AgreeAt, Rewriting.under, bound] using h (by simpa [Var.boundBy] using bound)
  | undetType stamp => exact h rfl
  | undetNat stamp => exact h rfl

theorem Rewriting.Keeps.under {g : Generics} {v : Var} (h : ρ.Keeps v) : (ρ.under g).Keeps v := by
  have same : ({} : Rewriting) = Rewriting.under {} g := by simp [Rewriting.under]
  rw [Rewriting.Keeps, same]
  exact .under fun _ => h

namespace Ty

attribute [local simp] rewritePlain rewrite rewriteAll_eq_map rewriteParams_eq_map

/-- **Only what happens to the free variables matters.** -/
theorem rewritePlain_congr {t : Ty} (h : ∀ v ∈ t.vars, ρ.AgreeAt ρ' v) :
    t.rewritePlain ρ = t.rewritePlain ρ' := by
  induction t generalizing ρ ρ' with
  | prim => simp
  | var p => simpa using h _ (List.mem_singleton_self _) p rfl
  | undet stamp =>
    have same : ρ.undetType stamp = ρ'.undetType stamp := h _ (List.mem_singleton_self _)
    simpa using same
  | tuple elems ih =>
    simp only [vars, varsAll_eq, List.mem_flatMap] at h
    simpa using fun t ht => ih t ht fun v hv => h v ⟨t, ht, hv⟩
  | array elem length ih =>
    simp only [vars, List.mem_append] at h
    simpa using ⟨ih fun v hv => h v (.inl hv), NatTerm.rewrite_congr fun v hv => h v (.inr hv)⟩
  | struct decl typeArgs natArgs ih =>
    simp only [vars, varsAll_eq, List.mem_append, List.mem_flatMap] at h
    simpa using ⟨fun t ht => ih t ht fun v hv => h v (.inl ⟨t, ht, hv⟩),
      fun n hn => NatTerm.rewrite_congr fun v hv => h v (.inr ⟨n, hn, hv⟩)⟩
  | fn params result generics ihp ihr =>
    simp only [vars, varsParams_eq, List.mem_filter, List.mem_append, List.mem_flatMap,
      Bool.not_eq_true'] at h
    simpa using ⟨fun p hp => ihp p hp fun v hv => .under fun free => h v ⟨.inl ⟨p, hp, hv⟩, free⟩,
      ihr fun v hv => .under fun free => h v ⟨.inr hv, free⟩⟩
  | option inner ih => simpa using ih h

/-! ## Keeping subtrees -/

theorem subst_eq_plain (S : Substitution) (t : Ty) :
    t.subst S = t.rewritePlain (.ofSubstitution S) := by
  have under : ∀ g, (Rewriting.ofSubstitution S).under g = .ofSubstitution S := fun g => by
    simp [Rewriting.under, Rewriting.ofSubstitution]
  have replaces :
      Replaces (rewritePlain (.ofSubstitution S)) (NatTerm.rewrite (.ofSubstitution S)) := by
    have type : (Rewriting.ofSubstitution S).type = .var := rfl
    have nat : (Rewriting.ofSubstitution S).nat = .var := rfl
    constructor <;> simp [under, type, nat, NatTerm.rewrite]
  exact (Replaces.subst S).congr replaces (fun _ _ => by simp [Rewriting.ofSubstitution])
    fun _ _ => rfl

theorem inst_eq_plain (I : Instantiation) (t : Ty) :
    t.inst I = t.rewritePlain (.ofInstantiation I) := by
  have nat : ∀ (I : Instantiation) (n : NatTerm), n.inst I = n.rewrite (.ofInstantiation I) :=
    fun I n => by cases n <;> rfl
  induction t generalizing I with
  | prim | undet | var => simp [Rewriting.ofInstantiation]
  | tuple elems ih => simpa using fun t ht => ih t ht I
  | array elem length ih => simpa using ⟨ih I, nat I length⟩
  | struct decl typeArgs natArgs ih => simpa using ⟨fun t ht => ih t ht I, fun n _ => nat I n⟩
  | fn params result generics ihp ihr =>
    have under : (Rewriting.ofInstantiation I).under generics =
        .ofInstantiation (I.without generics) := by
      simp only [Rewriting.under, Rewriting.ofInstantiation, Instantiation.types_without,
        Instantiation.nats_without]
      congr <;> funext n <;> split <;> rfl
    simpa [under, ParamType.inst] using ⟨fun p hp => ihp p hp _, ihr _⟩
  | option inner ih => simpa using ih I

theorem rewritePlain_eq_self {t : Ty} (h : ∀ v ∈ t.vars, ρ.Keeps v) : t.rewritePlain ρ = t :=
  calc t.rewritePlain ρ = t.rewritePlain (.ofSubstitution {}) := rewritePlain_congr h
    _ = t.subst {} := (subst_eq_plain {} t).symm
    _ = t := subst_eq_self fun v _ => by cases v <;> simp [Substitution.Binds]

/-- **A test for what is kept makes no difference** if what passes it mentions nothing that is
    replaced. -/
theorem rewrite_eq_plain {kept : Ty → Bool} (h : ∀ u, kept u → ∀ v ∈ u.vars, ρ.Keeps v) (t : Ty) :
    t.rewrite kept ρ = t.rewritePlain ρ := by
  have visited {ρ : Rewriting} (h : ∀ u, kept u → ∀ v ∈ u.vars, ρ.Keeps v) (t : Ty)
      (visit : kept t = false → t.rewrite kept ρ = t.rewritePlain ρ) :
      t.rewrite kept ρ = t.rewritePlain ρ := by
    cases hk : kept t with
    | true => rw [rewrite.eq_def, if_pos hk, rewritePlain_eq_self (h t hk)]
    | false => exact visit hk
  induction t generalizing ρ with
  | prim | var | undet => exact visited h _ fun hk => by simp [hk]
  | tuple elems ih => exact visited h _ fun hk => by simpa [hk] using fun t ht => ih t ht h
  | array elem length ih => exact visited h _ fun hk => by simpa [hk] using ih h
  | struct decl typeArgs natArgs ih =>
    exact visited h _ fun hk => by simpa [hk] using fun t ht => ih t ht h
  | fn params result generics ihp ihr =>
    have under : ∀ u, kept u → ∀ v ∈ u.vars, (ρ.under generics).Keeps v := fun u hu v hv =>
      Rewriting.Keeps.under (h u hu v hv)
    exact visited h _ fun hk => by simpa [hk] using ⟨fun p hp => ihp p hp under, ihr under⟩
  | option inner ih => exact visited h _ fun hk => by simpa [hk] using ih h

end Ty

end

/-! ## Sets of free variables -/

theorem Dict.mem_distinct {κ : Type} [LT κ] [DecidableEq κ] [DecidableLT κ] [LE κ]
    [Std.IsLinearOrder κ] [Std.LawfulOrderLT κ] {k : κ} {ks : List κ} :
    k ∈ distinct ks ↔ k ∈ ks := by
  have mem_keys : ∀ d : Dict κ Unit, k ∈ d.keys ↔ (d.get? k).isSome := fun d => by
    simp [keys, get?, List.lookup_isSome_iff]
  have insert : ∀ d : Dict κ Unit,
      k ∈ ((ks.map fun k => (k, ())).foldl (fun d e => d.insert e.1 e.2) d).keys ↔
        k ∈ d.keys ∨ k ∈ ks := by
    induction ks with
    | nil => simp
    | cons k' ks ih =>
      intro d
      rw [List.map_cons, List.foldl_cons, ih, List.mem_cons, mem_keys, mem_keys, get?_insert]
      by_cases hk : k = k' <;> simp [hk]
  rw [distinct, ofList, insert ∅, mem_keys]
  simp

namespace FreeVariables

variable {free : FreeVariables} {v : Var}

/-- Whether there are undetermined types or nats. -/
def hasUndetermined (free : FreeVariables) : Bool :=
  !free.undeterminedTypes.isEmpty || !free.undeterminedNats.isEmpty

/-- Whether there are generic parameters. -/
def hasParameters (free : FreeVariables) : Bool :=
  !free.typeVariables.isEmpty || !free.natVariables.isEmpty

/-- A variable is in the set of its kind. -/
def Mem (free : FreeVariables) : Var → Prop
  | .type n => n ∈ free.typeVariables
  | .nat n => n ∈ free.natVariables
  | .undetType stamp => stamp ∈ free.undeterminedTypes
  | .undetNat stamp => stamp ∈ free.undeterminedNats

theorem keeps_of_not_hasUndetermined (S : Substitution) (h : !free.hasUndetermined)
    (hv : free.Mem v) : (Rewriting.ofSubstitution S).Keeps v := by
  cases v with
  | type n => exact fun _ _ => rfl
  | nat n => rfl
  | undetType stamp | undetNat stamp => simp_all [hasUndetermined, Mem]

theorem keeps_of_not_hasParameters (I : Instantiation) (h : !free.hasParameters)
    (hv : free.Mem v) : (Rewriting.ofInstantiation I).Keeps v := by
  cases v with
  | undetType stamp | undetNat stamp => rfl
  | type n | nat n => simp_all [hasParameters, Mem]

end FreeVariables

theorem Ty.mem_freeVariables {t : Ty} {v : Var} : t.freeVariables.Mem v ↔ v ∈ t.vars := by
  have kind {κ : Type} {f : Var → Option κ} {k : κ} {v : Var} (h : ∀ u, f u = some k ↔ u = v) :
      k ∈ t.vars.filterMap f ↔ v ∈ t.vars := by
    simp [List.mem_filterMap, h]
  cases v with
  | type n => exact Dict.mem_distinct.trans (kind fun u => by cases u <;> simp [Var.typeName?])
  | nat n => exact Dict.mem_distinct.trans (kind fun u => by cases u <;> simp [Var.natName?])
  | undetType stamp =>
    exact Dict.mem_distinct.trans (kind fun u => by cases u <;> simp [Var.typeStamp?])
  | undetNat stamp =>
    exact Dict.mem_distinct.trans (kind fun u => by cases u <;> simp [Var.natStamp?])

/-- Two instantiations have the same arguments for some variables. -/
structure Instantiation.AgreesOn (free : FreeVariables) (I J : Instantiation) : Prop where
  types : ∀ n ∈ free.typeVariables, I.types.get? n = J.types.get? n
  nats : ∀ n ∈ free.natVariables, I.nats.get? n = J.nats.get? n

/-- **Pruned rewriting is plain rewriting.**  Applying a substitution or an instantiation gives what
    the recursion gives that visits every node; and so does the recursion that keeps the subtrees
    among whose free variables there are no undetermined ones, or no generic parameters.  So two
    instantiations give the same if they agree on the free variables. -/
theorem pruned_rewriting_eq_plain (t : Ty) (S : Substitution) (I : Instantiation) :
    (S.apply t = t.rewritePlain (.ofSubstitution S) ∧
        t.rewrite (fun u => !u.freeVariables.hasUndetermined) (.ofSubstitution S) =
          t.rewritePlain (.ofSubstitution S)) ∧
      (I.apply t = t.rewritePlain (.ofInstantiation I) ∧
        t.rewrite (fun u => !u.freeVariables.hasParameters) (.ofInstantiation I) =
          t.rewritePlain (.ofInstantiation I)) ∧
      ∀ J, I.AgreesOn t.freeVariables J → I.apply t = J.apply t := by
  refine ⟨⟨?_, ?_⟩, ⟨?_, ?_⟩, fun J agree => ?_⟩
  · rw [S.apply_eq, Ty.subst_eq_plain]
  · exact Ty.rewrite_eq_plain (fun u hu v hv =>
      FreeVariables.keeps_of_not_hasUndetermined S hu (Ty.mem_freeVariables.mpr hv)) t
  · rw [I.apply_eq, Ty.inst_eq_plain]
  · exact Ty.rewrite_eq_plain (fun u hu v hv =>
      FreeVariables.keeps_of_not_hasParameters I hu (Ty.mem_freeVariables.mpr hv)) t
  · rw [I.apply_eq, J.apply_eq, Ty.inst_eq_plain, Ty.inst_eq_plain]
    refine Ty.rewritePlain_congr fun v hv => ?_
    rw [← Ty.mem_freeVariables] at hv
    cases v with
    | type n =>
      rintro p rfl
      simp only [Rewriting.ofInstantiation, agree.types p.name hv]
    | nat n => simp only [Rewriting.AgreeAt, Rewriting.ofInstantiation, agree.nats n hv]
    | undetType | undetNat => rfl

end QuantumStatics
