/-
  Substitutions in solved form.

  A substitution is solved if no undetermined type or nat that it binds is mentioned by what
  it binds them to.  Applying it once is then applying it as often as one likes.

  `S.Refines S'` says that `S'` goes further than `S`: what `S` has found out makes no
  difference to it.  A solved substitution goes further by binding one more stamp
  (`Substitution.Then`).
-/
import QuantumStatics.Proofs.Ty.Equality

namespace QuantumStatics

/-! ## Variables -/

theorem Ty.varsAll_eq (ts : List Ty) : varsAll ts = ts.flatMap vars :=
  companion_eq_flatMap rfl (fun _ _ => rfl) ts

theorem Ty.varsParams_eq (ps : List ParamType) :
    varsParams ps = ps.flatMap fun p => p.type.vars := by
  refine companion_eq_flatMap rfl ?_ ps
  rintro ⟨t, ownership⟩ ps
  rfl

namespace NatTerm

variable (S : Substitution)

@[simp] theorem subst_const (value : UInt64) : (const value).subst S = .const value := rfl

@[simp] theorem subst_var (name : String) : (var name).subst S = .var name := rfl

@[simp] theorem subst_undet (stamp : Stamp) :
    (undet stamp).subst S = (S.nats.get? stamp).getD (.undet stamp) := rfl

end NatTerm

namespace Substitution

/-- A variable is an undetermined type or nat with an image. -/
def Binds (S : Substitution) : Var → Prop
  | .undetType stamp => (S.types.get? stamp).isSome
  | .undetNat stamp => (S.nats.get? stamp).isSome
  | .type _ | .nat _ => False

/-- Nothing that is bound is mentioned in an image. -/
structure Solved (S : Substitution) : Prop where
  type {stamp : Stamp} {t : Ty} : S.types.get? stamp = some t → ∀ v ∈ t.vars, ¬ S.Binds v
  nat {stamp : Stamp} {n : NatTerm} : S.nats.get? stamp = some n → ∀ v ∈ n.vars, ¬ S.Binds v

/-- A later substitution tells apart neither an undetermined type or nat nor its image. -/
structure Refines (S S' : Substitution) : Prop where
  type {stamp : Stamp} {t : Ty} :
    S.types.get? stamp = some t → t.subst S' = (Ty.undet stamp).subst S'
  nat {stamp : Stamp} {n : NatTerm} :
    S.nats.get? stamp = some n → n.subst S' = (NatTerm.undet stamp).subst S'

end Substitution

/-! ## Replacing undetermined types and nats -/

/-- A function on types goes through every constructor but undetermined types, with a function
    on nats that changes undetermined nats only. -/
structure Replaces (f : Ty → Ty) (g : NatTerm → NatTerm) : Prop where
  prim (name : String) (cls : OwnershipClass) : f (.prim name cls) = .prim name cls
  var (p : TypeParam) : f (.var p) = .var p
  tuple (ts : List Ty) : f (.tuple ts) = .tuple (ts.map f)
  array (t : Ty) (n : NatTerm) : f (.array t n) = .array (f t) (g n)
  struct (d : StructDecl) (ts : List Ty) (ns : List NatTerm) :
    f (.struct d ts ns) = .struct d (ts.map f) (ns.map g)
  fn (ps : List ParamType) (r : Ty) (generics : Generics) :
    f (.fn ps r generics) = .fn (ps.map fun p => ⟨f p.type, p.ownership⟩) (f r) generics
  option (t : Ty) : f (.option t) = .option (f t)
  const (value : UInt64) : g (.const value) = .const value
  natVar (name : String) : g (.var name) = .var name

namespace Replaces

theorem id : Replaces id id where
  prim _ _ := rfl
  var _ := rfl
  tuple ts := by simp
  array _ _ := rfl
  struct d ts ns := by simp
  fn ps r generics := by
    have same : ∀ p : ParamType, ParamType.mk p.type p.ownership = p := fun p => by cases p; rfl
    simp [same]
  option _ := rfl
  const _ := rfl
  natVar _ := rfl

theorem subst (S : Substitution) : Replaces (Ty.subst S) (NatTerm.subst S) := by
  constructor <;> simp [ParamType.subst]

theorem comp {f f' : Ty → Ty} {g g' : NatTerm → NatTerm} (h : Replaces f g)
    (h' : Replaces f' g') : Replaces (f' ∘ f) (g' ∘ g) := by
  constructor <;> simp [h.prim, h.var, h.tuple, h.array, h.struct, h.fn, h.option, h.const,
    h.natVar, h'.prim, h'.var, h'.tuple, h'.array, h'.struct, h'.fn, h'.option, h'.const,
    h'.natVar]

/-- **Such functions agree on a type if they agree on the undetermined types and nats that it
    mentions.** -/
theorem congr {f f' : Ty → Ty} {g g' : NatTerm → NatTerm} (h : Replaces f g)
    (h' : Replaces f' g') {t : Ty}
    (ht : ∀ stamp, .undetType stamp ∈ t.vars → f (.undet stamp) = f' (.undet stamp))
    (hn : ∀ stamp, .undetNat stamp ∈ t.vars → g (.undet stamp) = g' (.undet stamp)) :
    f t = f' t := by
  have nat : ∀ n : NatTerm, (∀ stamp, .undetNat stamp ∈ n.vars → g (.undet stamp) = g' (.undet stamp)) →
      g n = g' n := by
    intro n hn
    cases n with
    | const value => rw [h.const, h'.const]
    | var name => rw [h.natVar, h'.natVar]
    | undet stamp => exact hn stamp (List.mem_singleton_self _)
  induction t with
  | prim name cls => rw [h.prim, h'.prim]
  | var p => rw [h.var, h'.var]
  | undet stamp => exact ht stamp (List.mem_singleton_self _)
  | tuple elems ih =>
    simp only [Ty.vars, Ty.varsAll_eq, List.mem_flatMap] at ht hn
    rw [h.tuple, h'.tuple, List.map_congr_left fun t hm => ih t hm
      (fun stamp hs => ht stamp ⟨t, hm, hs⟩) fun stamp hs => hn stamp ⟨t, hm, hs⟩]
  | array elem length ih =>
    simp only [Ty.vars, List.mem_append] at ht hn
    rw [h.array, h'.array, ih (fun stamp hs => ht stamp (.inl hs)) fun stamp hs =>
      hn stamp (.inl hs), nat length fun stamp hs => hn stamp (.inr hs)]
  | struct decl typeArgs natArgs ih =>
    simp only [Ty.vars, Ty.varsAll_eq, List.mem_append, List.mem_flatMap] at ht hn
    rw [h.struct, h'.struct, List.map_congr_left fun t hm => ih t hm
      (fun stamp hs => ht stamp (.inl ⟨t, hm, hs⟩)) fun stamp hs => hn stamp (.inl ⟨t, hm, hs⟩),
      List.map_congr_left fun n hm => nat n fun stamp hs => hn stamp (.inr ⟨n, hm, hs⟩)]
  | fn params result generics ihp ihr =>
    simp only [Ty.vars, Ty.varsParams_eq, List.mem_filter, List.mem_append, List.mem_flatMap,
      Var.boundBy, Bool.not_false, and_true] at ht hn
    rw [h.fn, h'.fn, ihr (fun stamp hs => ht stamp (.inr hs)) fun stamp hs => hn stamp (.inr hs),
      List.map_congr_left fun p hm => by
        rw [ihp p hm (fun stamp hs => ht stamp (.inl ⟨p, hm, hs⟩)) fun stamp hs =>
          hn stamp (.inl ⟨p, hm, hs⟩)]]
  | option inner ih => rw [h.option, h'.option, ih ht hn]

end Replaces

variable {S S' S'' σ : Substitution}

open Substitution

theorem NatTerm.subst_eq_self {n : NatTerm} (h : ∀ v ∈ n.vars, ¬ S.Binds v) : n.subst S = n := by
  cases n with
  | const | var => rfl
  | undet stamp =>
    have : S.nats.get? stamp = none := by simpa [vars, Binds] using h
    simp [this]

theorem Ty.subst_eq_self {t : Ty} (h : ∀ v ∈ t.vars, ¬ S.Binds v) : t.subst S = t := by
  refine (Replaces.subst S).congr .id (fun stamp hs => ?_) fun stamp hs => ?_
  · have : S.types.get? stamp = .none := by simpa [Binds] using h _ hs
    simp [this]
  · have : S.nats.get? stamp = .none := by simpa [Binds] using h _ hs
    simp [this]

theorem NatTerm.mem_vars_subst {n : NatTerm} {v : Var} (h : v ∈ (n.subst S).vars) :
    (v ∈ n.vars ∧ ¬ S.Binds v) ∨ ∃ stamp m, S.nats.get? stamp = some m ∧ v ∈ m.vars := by
  cases n with
  | const => cases h
  | var name =>
    refine .inl ⟨h, ?_⟩
    cases List.mem_singleton.mp h
    exact id
  | undet stamp =>
    rw [subst_undet] at h
    cases hs : S.nats.get? stamp with
    | some m =>
      rw [hs] at h
      exact .inr ⟨stamp, m, hs, h⟩
    | none =>
      rw [hs] at h
      cases List.mem_singleton.mp h
      exact .inl ⟨h, by simp [Binds, hs]⟩

/-- A variable occurs in what a stamp is bound to. -/
def Substitution.Mentions (S : Substitution) (v : Var) : Prop :=
  (∃ stamp t, S.types.get? stamp = some t ∧ v ∈ t.vars) ∨
    ∃ stamp n, S.nats.get? stamp = some n ∧ v ∈ n.vars

theorem Ty.mem_vars_subst {t : Ty} {v : Var} (h : v ∈ (t.subst S).vars) :
    (v ∈ t.vars ∧ ¬ S.Binds v) ∨ S.Mentions v := by
  have nat : ∀ {n : NatTerm}, v ∈ (n.subst S).vars → (v ∈ n.vars ∧ ¬ S.Binds v) ∨ S.Mentions v :=
    fun h => (NatTerm.mem_vars_subst h).imp_right .inr
  induction t with
  | prim => cases h
  | var p =>
    refine .inl ⟨h, ?_⟩
    cases List.mem_singleton.mp h
    exact id
  | undet stamp =>
    rw [subst_undet] at h
    cases hs : S.types.get? stamp with
    | some t =>
      rw [hs] at h
      exact .inr (.inl ⟨stamp, t, hs, h⟩)
    | none =>
      rw [hs] at h
      cases List.mem_singleton.mp h
      exact .inl ⟨h, by simp [Binds, hs]⟩
  | tuple elems ih =>
    simp only [subst_tuple, vars, varsAll_eq, List.mem_flatMap, List.mem_map] at h ⊢
    obtain ⟨_, ⟨t, ht, rfl⟩, h⟩ := h
    exact (ih t ht h).imp_left (And.imp_left fun hv => ⟨t, ht, hv⟩)
  | array elem length ih =>
    simp only [subst_array, vars, List.mem_append] at h ⊢
    rcases h with h | h
    · exact (ih h).imp_left (And.imp_left .inl)
    · exact (nat h).imp_left (And.imp_left .inr)
  | struct decl typeArgs natArgs ih =>
    simp only [subst_struct, vars, varsAll_eq, List.mem_append, List.mem_flatMap,
      List.mem_map] at h ⊢
    rcases h with ⟨_, ⟨t, ht, rfl⟩, h⟩ | ⟨_, ⟨n, hn, rfl⟩, h⟩
    · exact (ih t ht h).imp_left (And.imp_left fun hv => .inl ⟨t, ht, hv⟩)
    · exact (nat h).imp_left (And.imp_left fun hv => .inr ⟨n, hn, hv⟩)
  | fn params result generics ihp ihr =>
    simp only [subst_fn, vars, varsParams_eq, List.mem_filter, List.mem_append, List.mem_flatMap,
      List.mem_map] at h ⊢
    obtain ⟨⟨_, ⟨p, hp, rfl⟩, h⟩ | h, free⟩ := h
    · exact (ihp p hp h).imp_left (And.imp_left fun hv => ⟨.inl ⟨p, hp, hv⟩, free⟩)
    · exact (ihr h).imp_left (And.imp_left fun hv => ⟨.inr hv, free⟩)
  | option inner ih => exact ih (by simpa [vars] using h)

namespace Substitution

theorem apply_eq (S : Substitution) (t : Ty) : S.apply t = t.subst S := by
  unfold apply
  split
  · rename_i h
    obtain ⟨ht, hn⟩ := Bool.and_eq_true_iff.mp h
    refine (Ty.subst_eq_self fun v _ => ?_).symm
    cases v <;> simp [Binds, Dict.get?_of_isEmpty ht, Dict.get?_of_isEmpty hn]
  · rfl

theorem applyNat_eq (S : Substitution) (n : NatTerm) : S.applyNat n = n.subst S := by
  rw [applyNat]

/-! ## Solved form -/

theorem Solved.not_mentions (h : S.Solved) {v : Var} (hv : S.Mentions v) : ¬ S.Binds v := by
  rcases hv with ⟨stamp, t, ht, hv⟩ | ⟨stamp, n, hn, hv⟩
  · exact h.type ht v hv
  · exact h.nat hn v hv

theorem Solved.not_binds (h : S.Solved) {t : Ty} {v : Var} (hv : v ∈ (t.subst S).vars) :
    ¬ S.Binds v := by
  rcases Ty.mem_vars_subst hv with ⟨-, hb⟩ | hm
  · exact hb
  · exact h.not_mentions hm

theorem Solved.not_binds_nat (h : S.Solved) {n : NatTerm} {v : Var}
    (hv : v ∈ (n.subst S).vars) : ¬ S.Binds v := by
  rcases NatTerm.mem_vars_subst hv with ⟨-, hb⟩ | hm
  · exact hb
  · exact h.not_mentions (.inr hm)

theorem solved_empty : ({} : Substitution).Solved where
  type h := by cases h
  nat h := by cases h

/-! ## Finer substitutions -/

theorem Refines.subst_nat (h : S.Refines S') (n : NatTerm) : (n.subst S).subst S' = n.subst S' := by
  cases n with
  | const | var => rfl
  | undet stamp =>
    rw [NatTerm.subst_undet]
    cases hs : S.nats.get? stamp with
    | none => rfl
    | some n => exact h.nat hs

theorem Refines.subst (h : S.Refines S') (t : Ty) : (t.subst S).subst S' = t.subst S' := by
  refine ((Replaces.subst S).comp (.subst S')).congr (.subst S') (fun stamp _ => ?_)
    fun stamp _ => h.subst_nat (.undet stamp)
  simp only [Function.comp_apply, Ty.subst_undet S]
  cases hs : S.types.get? stamp with
  | none => rfl
  | some t => exact h.type hs

theorem Solved.refines (h : S.Solved) : S.Refines S where
  type hs := by simp [Ty.subst_eq_self (h.type hs), hs]
  nat hs := by simp [NatTerm.subst_eq_self (h.nat hs), hs]

theorem Refines.trans (h : S.Refines S') (h' : S'.Refines S'') : S.Refines S'' where
  type hs := by rw [← h'.subst, h.type hs, h'.subst]
  nat hs := by rw [← h'.subst_nat, h.nat hs, h'.subst_nat]

theorem Refines.equal (h : S.Refines S') {l r : Ty} (he : (l.subst S).equal (r.subst S)) :
    (l.subst S').equal (r.subst S') := by
  rw [← h.subst l, ← h.subst r]
  exact Ty.equal_subst S' he

/-! ## Binding one more stamp -/

/-- `S'` is `S` followed by `σ`. -/
structure Then (S σ S' : Substitution) : Prop where
  types (stamp : Stamp) :
    S'.types.get? stamp = ((S.types.get? stamp).map (·.subst σ)).or (σ.types.get? stamp)
  nats (stamp : Stamp) :
    S'.nats.get? stamp = ((S.nats.get? stamp).map (·.subst σ)).or (σ.nats.get? stamp)

theorem Then.subst_nat (h : S.Then σ S') (n : NatTerm) : n.subst S' = (n.subst S).subst σ := by
  cases n with
  | const | var => rfl
  | undet stamp =>
    simp only [NatTerm.subst_undet, h.nats]
    cases hs : S.nats.get? stamp <;> simp

theorem Then.subst (h : S.Then σ S') (t : Ty) : t.subst S' = (t.subst S).subst σ := by
  refine (Replaces.subst S').congr ((Replaces.subst S).comp (.subst σ)) (fun stamp _ => ?_)
    fun stamp _ => h.subst_nat (.undet stamp)
  simp only [Function.comp_apply, Ty.subst_undet, h.types]
  cases hs : S.types.get? stamp <;> simp

/-- A substitution binds other stamps than a solved one, and neither mentions what is bound. -/
structure Apart (S σ : Substitution) : Prop where
  solved : S.Solved
  later : σ.Solved
  images {v : Var} : σ.Mentions v → ¬ S.Binds v

theorem Then.binds (h : S.Then σ S') {v : Var} (hv : S'.Binds v) : S.Binds v ∨ σ.Binds v := by
  cases v with
  | type | nat => cases hv
  | undetType stamp =>
    simp only [Binds, h.types] at hv ⊢
    cases hs : S.types.get? stamp <;> simp_all
  | undetNat stamp =>
    simp only [Binds, h.nats] at hv ⊢
    cases hs : S.nats.get? stamp <;> simp_all

theorem Then.solved (h : S.Then σ S') (ha : S.Apart σ) : S'.Solved := by
  have free : ∀ {v}, (¬ S.Binds v ∧ ¬ σ.Binds v) ∨ σ.Mentions v → ¬ S'.Binds v := by
    rintro v (⟨hS, hσ⟩ | hm) hv
    · exact (h.binds hv).elim hS hσ
    · exact (h.binds hv).elim (ha.images hm) (ha.later.not_mentions hm)
  constructor
  · intro stamp t ht v hv
    refine free ?_
    rw [h.types] at ht
    cases hs : S.types.get? stamp with
    | none => exact .inr (.inl ⟨stamp, t, by simpa [hs] using ht, hv⟩)
    | some u =>
      obtain rfl : u.subst σ = t := by simpa [hs] using ht
      exact (Ty.mem_vars_subst hv).imp_left (And.imp_left (ha.solved.type hs v))
  · intro stamp n hn v hv
    refine free ?_
    rw [h.nats] at hn
    cases hs : S.nats.get? stamp with
    | none => exact .inr (.inr ⟨stamp, n, by simpa [hs] using hn, hv⟩)
    | some m =>
      obtain rfl : m.subst σ = n := by simpa [hs] using hn
      exact (NatTerm.mem_vars_subst hv).imp (And.imp_left (ha.solved.nat hs v)) .inr

theorem Then.refines (h : S.Then σ S') (hS : S.Solved) : S.Refines S' where
  type {stamp t} hs := by rw [h.subst, Ty.subst_eq_self (hS.type hs)]; simp [h.types, hs]
  nat {stamp n} hs := by rw [h.subst_nat, NatTerm.subst_eq_self (hS.nat hs)]; simp [h.nats, hs]

end Substitution

end QuantumStatics
