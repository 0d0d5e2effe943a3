/-
  What checking a body keeps.

  An `Upkeep` is a property of types and nats that holds of all that checking a body starts from or
  meets: of declared types, of the instances of signatures and fields, and of what is put together
  from these.

  Of some properties this can be said only in the end.  The types of a call depend on its generic
  arguments, and whether these are within the bounds of the parameters is checked at the end of the
  statement.  A `Prospect` is a property of types in a run that ends with the substitution `S`: it
  holds of the types of a call once the arguments are known to be within the bounds.

  So there are two sides to what is known of something that checking yields (`Aspect`): what holds
  now, and what will hold if the run ends as it should.
-/
import QuantumStatics.Proofs.Elaboration.Soundness
import QuantumStatics.Proofs.Ty.Subterms
import QuantumStatics.Proofs.Unification.Ground

namespace QuantumStatics.Elaboration

open Check

/-! ## Properties of types -/

/-- Properties of types, of nats and of what is remembered about classes that checking a body with
    the generic parameters `g` against the table `T` keeps. -/
structure Upkeep (T : SignatureTable) (g : Generics) where
  /-- What is asked of the types that a definition declares and states. -/
  declared : Ty → Prop
  type : Ty → Prop
  nat : NatTerm → Prop
  memo : ClassMemo → Prop
  stated {location : Location} {t : Ty} : declared t → checkType T g location t = .ok () → type t
  prim {name : String} {cls : OwnershipClass} : Ty.builtin? name = some (.prim name cls) →
    type (.prim name cls)
  undet {k : Stamp} : type (.undet k)
  natUndet {k : Stamp} : nat (.undet k)
  const {n : UInt64} : nat (.const n)
  tuple {ts : List Ty} : (∀ t ∈ ts, type t) → type (.tuple ts)
  array {t : Ty} {n : NatTerm} : type t → nat n → type (.array t n)
  component {t u : Ty} : type t → u ∈ t.components → type u
  ownNats {t : Ty} {n : NatTerm} : type t → n ∈ t.ownNats → nat n
  subst {S : Substitution} {t : Ty} : (∀ {k u}, S.types.get? k = some u → type u) →
    (∀ {k n}, S.nats.get? k = some n → nat n) → type t → type (t.subst S)
  keyed : T.Keyed
  fnRef {n : String} {s : Signature} : T.find? n = some s → s.isGeneric = false →
    type s.functionType
  signature {n : String} {s : Signature} {I : Instantiation} : T.find? n = some s →
    I.For s.generics → (∀ {m u}, I.types.get? m = some u → type u) →
    (∀ {m k}, I.nats.get? m = some k → nat k) →
    (∀ p ∈ s.params, type (I.apply p.type)) ∧ type (I.apply s.result)
  fields {d : StructDecl} {ts : List Ty} {ns : List NatTerm} {fs : List Field} :
    type (.struct d ts ns) → d.instantiateFields ts ns = .ok fs → ∀ f ∈ fs, type f.type
  classify {t : Ty} {c : OwnershipClass} {m m' : ClassMemo} : type t → memo m →
    ClassMemo.classify t m = .ok c m' → memo m'

/-- A property of types that checking a body keeps in a run which ends with `S`, if the generic
    arguments of calls are within the bounds of the parameters. -/
structure Prospect {T : SignatureTable} {g : Generics} (U : Upkeep T g) (S : Substitution) where
  type : Ty → Prop
  /-- What is known of a generic argument once it is admitted by the parameter. -/
  within : TypeParam → Ty → Prop
  declared {t : Ty} : U.declared t → type t
  prim {name : String} {cls : OwnershipClass} : type (.prim name cls)
  undet {k : Stamp} : type (.undet k)
  tuple {ts : List Ty} : (∀ t ∈ ts, type t) → type (.tuple ts)
  array {t : Ty} {n : UInt64} : type t → type (.array t (.const n))
  component {t u : Ty} : type t → u ∈ t.components → type u
  subst {S' : Substitution} {t : Ty} : S'.Refines S →
    (∀ {k u}, S'.types.get? k = some u → type u) → type t → type (t.subst S')
  fnRef {n : String} {s : Signature} : T.find? n = some s → s.isGeneric = false →
    type s.functionType
  signature {n : String} {s : Signature} {I : Instantiation} : T.find? n = some s →
    I.For s.generics → (∀ {m u}, I.types.get? m = some u → U.type u ∧ type u) →
    (∀ p ∈ s.generics.types, ∀ u, I.types.get? p.name = some u → within p (u.subst S)) →
    (∀ {m n}, I.nats.get? m = some n → n.GroundIn S) →
    (∀ p ∈ s.params, type (I.apply p.type)) ∧ type (I.apply s.result)
  fields {d : StructDecl} {ts : List Ty} {ns : List NatTerm} {fs : List Field} :
    U.type (.struct d ts ns) → type (.struct d ts ns) → d.instantiateFields ts ns = .ok fs →
    ∀ f ∈ fs, type f.type
  admitted {p : TypeParam} {t : Ty} {c : OwnershipClass} {m m' : ClassMemo} : U.type t →
    t.hasUndetermined = false → U.memo m → ClassMemo.classify t m = .ok c m' → p.admits c →
    within p t

/-- Two sides of what is known of something: what holds now and what holds in the end. -/
structure Aspect (α : Type) where
  now : α → Prop
  later : α → Prop

namespace Aspect

variable {α : Type} {G : Aspect α} {H H' : Prop} {a : α}

/-- Something has both sides of an aspect, the second one if `H` holds. -/
structure Holds (G : Aspect α) (H : Prop) (a : α) : Prop where
  now : G.now a
  later : H → G.later a

theorem Holds.mono (h : G.Holds H a) (lift : H' → H) : G.Holds H' a :=
  ⟨h.now, fun h' => h.later (lift h')⟩

/-- Nothing is known. -/
def any : Aspect α := ⟨fun _ => True, fun _ => True⟩

theorem holds_any : (any : Aspect α).Holds H a := ⟨trivial, fun _ => trivial⟩

/-- The aspect of every element of a list. -/
def each (G : Aspect α) : Aspect (List α) :=
  ⟨fun l => ∀ a ∈ l, G.now a, fun l => ∀ a ∈ l, G.later a⟩

theorem holds_each {l : List α} : G.each.Holds H l ↔ ∀ a ∈ l, G.Holds H a :=
  ⟨fun h a ha => ⟨h.now a ha, fun hH => h.later hH a ha⟩,
    fun h => ⟨fun a ha => (h a ha).now, fun hH a ha => (h a ha).later hH⟩⟩

theorem holds_each_nil : G.each.Holds H [] := ⟨nofun, fun _ => nofun⟩

theorem holds_each_cons {l : List α} :
    G.each.Holds H (a :: l) ↔ G.Holds H a ∧ G.each.Holds H l := by
  rw [holds_each, holds_each, List.forall_mem_cons]

/-- The aspect of what is given, if anything is. -/
def opt (G : Aspect α) : Aspect (Option α) :=
  ⟨fun o => ∀ a ∈ o, G.now a, fun o => ∀ a ∈ o, G.later a⟩

theorem holds_opt_none : G.opt.Holds H none := ⟨nofun, fun _ => nofun⟩

theorem holds_opt_some : G.opt.Holds H (some a) ↔ G.Holds H a :=
  ⟨fun h => ⟨h.now a rfl, fun hH => h.later hH a rfl⟩,
    fun h => ⟨by rintro _ ⟨⟩; exact h.now, by rintro hH _ ⟨⟩; exact h.later hH⟩⟩

end Aspect

/-! ## States -/

/-- Two states agree in what has been found out, in the bindings and in the calls seen. -/
structure Same (s s' : BodyState) : Prop where
  subs : s'.subs = s.subs
  env : s'.env = s.env
  loops : s'.loops = s.loops
  calls : s'.calls = s.calls

theorem Same.refl (s : BodyState) : Same s s := ⟨rfl, rfl, rfl, rfl⟩

theorem Same.trans {s s₁ s' : BodyState} (h : Same s s₁) (h' : Same s₁ s') : Same s s' :=
  ⟨h'.subs.trans h.subs, h'.env.trans h.env, h'.loops.trans h.loops, h'.calls.trans h.calls⟩

/-- More may have been found out, and more calls seen. -/
structure Further (s s' : BodyState) : Prop where
  refines : s.subs.Refines s'.subs
  calls : s.calls ⊆ s'.calls

theorem Further.trans {s s₁ s' : BodyState} (h : Further s s₁) (h' : Further s₁ s') :
    Further s s' :=
  ⟨h.refines.trans h'.refines, List.Subset.trans h.calls h'.calls⟩

namespace Upkeep

variable {T : SignatureTable} {g : Generics} (U : Upkeep T g)

/-- What has been found out has the property. -/
structure Images (S : Substitution) : Prop where
  types {k u} : S.types.get? k = some u → U.type u
  nats {k n} : S.nats.get? k = some n → U.nat n

/-- Every binding has a type with the property. -/
def Binds (env : Env) : Prop := ∀ {n t}, env.bindings.get? n = some t → U.type t

/-- All that a state mentions has the property. -/
structure Ready (s : BodyState) : Prop where
  solved : s.subs.Solved
  images : U.Images s.subs
  env : U.Binds s.env
  jumps : ∀ frame ∈ s.loops, ∀ e ∈ frame.breaks ++ frame.continues, U.Binds e
  calls : ∀ c ∈ s.calls, ∀ t ∈ c.typeArgs, U.type t
  memo : U.memo s.memo

variable {U}

theorem natSubst {S : Substitution} (hS : U.Images S) {n : NatTerm} (hn : U.nat n) :
    U.nat (n.subst S) := by
  cases n with
  | const | var => exact hn
  | undet k =>
    rw [NatTerm.subst_undet]
    cases hk : S.nats.get? k with
    | none => exact U.natUndet
    | some n => exact hS.nats hk

theorem Images.then {S σ S' : Substitution} (hS : U.Images S) (hσ : U.Images σ)
    (h : S.Then σ S') : U.Images S' where
  types {k u} hk := by
    rw [h.types] at hk
    cases hs : S.types.get? k with
    | none => exact hσ.types (by simpa [hs] using hk)
    | some w =>
      obtain rfl : w.subst σ = u := by simpa [hs] using hk
      exact U.subst hσ.types hσ.nats (hS.types hs)
  nats {k n} hk := by
    rw [h.nats] at hk
    cases hs : S.nats.get? k with
    | none => exact hσ.nats (by simpa [hs] using hk)
    | some m =>
      obtain rfl : m.subst σ = n := by simpa [hs] using hk
      exact natSubst hσ (hS.nats hs)

theorem images_ofType {k : Stamp} {t : Ty} (ht : U.type t) : U.Images (.ofType k t) where
  types hk := by
    obtain ⟨-, rfl⟩ : _ ∧ t = _ := by simpa using hk
    exact ht
  nats hk := by simp at hk

theorem images_ofNat {k : Stamp} {n : NatTerm} (hn : U.nat n) : U.Images (.ofNat k n) where
  types hk := by simp at hk
  nats hk := by
    obtain ⟨-, rfl⟩ : _ ∧ n = _ := by simpa using hk
    exact hn

variable (U)

/-- **The unifier keeps the property.** -/
def pairs : PairInvariant where
  types _ S l r := U.Images S ∧ U.type l ∧ U.type r
  nats S n m := U.Images S ∧ U.nat n ∧ U.nat m
  symm h := ⟨h.1, h.2.2, h.2.1⟩
  natSymm h := ⟨h.1, h.2.2, h.2.1⟩
  subst _ h := ⟨h.1, U.subst h.1.types h.1.nats h.2.1, U.subst h.1.types h.1.nats h.2.2⟩
  natSubst _ h := ⟨h.1, natSubst h.1 h.2.1, natSubst h.1 h.2.2⟩
  tuple h p hp := ⟨h.1, U.component h.2.1 (List.of_mem_zip hp).1,
    U.component h.2.2 (List.of_mem_zip hp).2⟩
  array h := ⟨⟨h.1, U.component h.2.1 (List.mem_singleton_self _),
      U.component h.2.2 (List.mem_singleton_self _)⟩,
    h.1, U.ownNats h.2.1 (List.mem_singleton_self _), U.ownNats h.2.2 (List.mem_singleton_self _)⟩
  struct h := ⟨fun _ hp => ⟨h.1, U.component h.2.1 (List.of_mem_zip hp).1,
      U.component h.2.2 (List.of_mem_zip hp).2⟩,
    fun _ hp => ⟨h.1, U.ownNats h.2.1 (List.of_mem_zip hp).1,
      U.ownNats h.2.2 (List.of_mem_zip hp).2⟩⟩
  fn h := by
    refine ⟨fun p hp => ⟨h.1, U.component h.2.1 ?_, U.component h.2.2 ?_⟩,
      h.1, U.component h.2.1 ?_, U.component h.2.2 ?_⟩
    · exact List.mem_append_left _ (List.mem_map_of_mem (List.of_mem_zip hp).1)
    · exact List.mem_append_left _ (List.mem_map_of_mem (List.of_mem_zip hp).2)
    · exact List.mem_append_right _ (List.mem_singleton_self _)
    · exact List.mem_append_right _ (List.mem_singleton_self _)
  option h := ⟨h.1, U.component h.2.1 (List.mem_singleton_self _),
    U.component h.2.2 (List.mem_singleton_self _)⟩
  bindType _ _ hthen bound := by
    have images := bound.1.then (images_ofType bound.2.2) hthen
    exact ⟨fun h => ⟨images, h.2⟩, fun h => ⟨images, h.2⟩⟩
  bindNat _ _ hthen bound := by
    have images := bound.1.then (images_ofNat bound.2.2) hthen
    exact ⟨fun h => ⟨images, h.2⟩, fun h => ⟨images, h.2⟩⟩

end Upkeep

namespace Prospect

variable {T : SignatureTable} {g : Generics} {U : Upkeep T g} {S : Substitution}
  (F : Prospect U S)

/-- What has been found out has the property in the end. -/
def Images (S' : Substitution) : Prop := ∀ {k u}, S'.types.get? k = some u → F.type u

/-- **The unifier keeps a property that types have in the end.** -/
def unifying : TypeInvariant where
  holds _ S' t := S'.Refines S → F.Images S' ∧ F.type t
  subst _ h hr := ⟨(h hr).1, F.subst hr (h hr).1 (h hr).2⟩
  component h hu hr := ⟨(h hr).1, F.component (h hr).2 hu⟩
  bindType {d d' S₁ S₂ k t u} unbound apart hthen _ bound h hr := by
    have before := (hthen.refines apart.solved).trans hr
    have image : ∀ {i w}, (Substitution.ofType k t).types.get? i = some w → i = k ∧ t = w := by
      intro i w hw
      simpa using hw
    have refines : (Substitution.ofType k t).Refines S := by
      refine ⟨fun {i w} hw => ?_, fun hw => by simp at hw⟩
      obtain ⟨rfl, rfl⟩ := image hw
      exact hr.type (by simp [hthen.types, unbound])
    refine ⟨fun {j v} hj => ?_, (h before).2⟩
    rw [hthen.types] at hj
    have later : F.Images (.ofType k t) := fun {i w} hw => by
      obtain ⟨-, rfl⟩ := image hw
      exact (bound before).2
    cases hs : S₁.types.get? j with
    | none => exact later (by simpa [hs] using hj)
    | some w =>
      obtain rfl : w.subst (.ofType k t) = v := by simpa [hs] using hj
      exact F.subst refines later ((h before).1 hs)
  bindNat {d S₁ S₂ k n u} unbound apart hthen h hr := by
    have before := (hthen.refines apart.solved).trans hr
    have refines : (Substitution.ofNat k n).Refines S := by
      refine ⟨fun hw => by simp at hw, fun {i w} hw => ?_⟩
      obtain ⟨rfl, rfl⟩ : i = k ∧ n = w := by simpa using hw
      exact hr.nat (by simp [hthen.nats, unbound])
    refine ⟨fun {j v} hj => ?_, (h before).2⟩
    rw [hthen.types] at hj
    cases hs : S₁.types.get? j with
    | none => simp [hs] at hj
    | some w =>
      obtain rfl : w.subst (.ofNat k n) = v := by simpa [hs] using hj
      exact F.subst refines (fun hi => by simp at hi) ((h before).1 hs)

/-- The generic arguments of a call are determined, and within the bounds of the parameters. -/
structure Settled (c : PendingCall) : Prop where
  types : ∀ x ∈ c.generics.types.zip c.typeArgs, F.within x.1 (x.2.subst S)
  nats : ∀ x ∈ c.generics.nats.zip c.natArgs, x.2.GroundIn S

/-- A run that has come to the state `s` ends with `S`, which settles the generic calls seen so
    far. -/
structure Ends (s : BodyState) : Prop where
  refines : s.subs.Refines S
  calls : ∀ c ∈ s.calls, F.Settled c

/-- Every binding has a type with the property in the end. -/
def Binds (env : Env) : Prop := ∀ {n t}, env.bindings.get? n = some t → F.type t

/-- What has been found out and all bindings have the property in the end. -/
structure Fine (s : BodyState) : Prop where
  images : F.Images s.subs
  env : F.Binds s.env
  jumps : ∀ frame ∈ s.loops, ∀ e ∈ frame.breaks ++ frame.continues, F.Binds e

variable {F} {s s' : BodyState}

theorem Ends.of_further (h : F.Ends s') (hf : Further s s') : F.Ends s :=
  ⟨hf.refines.trans h.refines, fun c hc => h.calls c (hf.calls hc)⟩

variable (F)

/-- What is known of a type. -/
def types : Aspect Ty := ⟨U.type, F.type⟩

/-- What is known of an environment. -/
def envs : Aspect Env := ⟨fun env => U.Binds env, fun env => F.Binds env⟩

/-- What is known of a state. -/
def states : Aspect BodyState := ⟨U.Ready, F.Fine⟩

/-! ## Computations -/

variable {α β : Type}

/-- A computation keeps what is known, and its result has the aspect `G`: now, and in a run that
    ends with `S`, provided that `H` holds, and `A` of the result. -/
def KeepsIf (H : Prop) (A : α → Prop) (G : Aspect α) (x : Check α) : Prop :=
  ∀ s a s', U.Ready s → x s = .ok a s' → U.Ready s' ∧ Further s s' ∧ G.now a ∧
    (F.Ends s' → H → A a → F.Fine s → F.Fine s' ∧ G.later a)

/-- A computation keeps what is known, whatever its result. -/
abbrev Keeps (H : Prop) (G : Aspect α) (x : Check α) : Prop := F.KeepsIf H (fun _ => True) G x

variable {F}

theorem further_of_same (h : Same s s') (hS : s.subs.Solved) : Further s s' :=
  ⟨h.subs ▸ hS.refines, h.calls ▸ List.Subset.refl _⟩

theorem fine_of_same (h : Same s s') (hs : F.Fine s) : F.Fine s' :=
  ⟨fun hk => hs.images (h.subs ▸ hk), h.env ▸ hs.env, h.loops ▸ hs.jumps⟩

theorem ready_of_same (h : Same s s') (hs : U.Ready s) (hm : U.memo s'.memo) : U.Ready s' :=
  ⟨h.subs ▸ hs.solved, h.subs ▸ hs.images, h.env ▸ hs.env, h.loops ▸ hs.jumps,
    h.calls ▸ hs.calls, hm⟩

namespace KeepsIf

variable {H H' : Prop} {A : α → Prop} {B : β → Prop} {G G' : Aspect α} {G₁ : Aspect β}

theorem pure {a : α} (h : G.Holds H a) : F.KeepsIf H A G (pure a) := by
  rintro s _ _ hs ⟨⟩
  exact ⟨hs, further_of_same (.refl s) hs.solved, h.now, fun _ hH _ fine => ⟨fine, h.later hH⟩⟩

/-- **One computation after another.**  What is assumed of the result of the first has to show in
    how the second ends. -/
theorem bindIf {x : Check α} {f : α → Check β} (hx : F.KeepsIf H A G x)
    (hA : ∀ a s b s', f a s = .ok b s' → F.Ends s' → B b → A a)
    (hf : ∀ {H'}, (H' → H) → ∀ a, (H' → A a) → G.Holds H' a → F.KeepsIf H' B G₁ (f a)) :
    F.KeepsIf H B G₁ (x >>= f) := by
  intro s b s' hs h
  obtain ⟨a, s₁, ha, hb⟩ := bind_eq_ok.mp h
  obtain ⟨ready, first, now, keeps⟩ := hx s a s₁ hs ha
  have next : F.KeepsIf (H ∧ A a ∧ G.later a) B G₁ (f a) :=
    hf (fun h => h.1) a (fun h => h.2.1) ⟨now, fun h => h.2.2⟩
  obtain ⟨ready', second, now', keeps'⟩ := next s₁ b s' ready hb
  refine ⟨ready', first.trans second, now', fun ends hH hB fine => ?_⟩
  have hA := hA a s₁ b s' hb ends hB
  obtain ⟨fine₁, later⟩ := keeps (ends.of_further second) hH hA fine
  exact keeps' ends ⟨hH, hA, later⟩ hB fine₁

theorem bind {x : Check α} {f : α → Check β} (hx : F.Keeps H G x)
    (hf : ∀ {H'}, (H' → H) → ∀ a, G.Holds H' a → F.KeepsIf H' B G₁ (f a)) :
    F.KeepsIf H B G₁ (x >>= f) :=
  hx.bindIf (fun _ _ _ _ _ _ _ => trivial) fun lift a _ => hf lift a

theorem mono {x : Check α} (hx : F.KeepsIf H A G x)
    (hG : ∀ {H'}, (H' → H) → ∀ a, G.Holds H' a → G'.Holds H' a) : F.KeepsIf H A G' x := by
  intro s a s' hs h
  obtain ⟨ready, further, now, keeps⟩ := hx s a s' hs h
  have both : G'.Holds (H ∧ G.later a) a := hG (fun h => h.1) a ⟨now, fun h => h.2⟩
  refine ⟨ready, further, both.now, fun ends hH hA fine => ?_⟩
  obtain ⟨fine', later⟩ := keeps ends hH hA fine
  exact ⟨fine', both.later ⟨hH, later⟩⟩

theorem weaken {x : Check α} (hx : F.Keeps H G x) : F.KeepsIf H A G x := by
  intro s a s' hs h
  obtain ⟨ready, further, now, keeps⟩ := hx s a s' hs h
  exact ⟨ready, further, now, fun ends hH _ => keeps ends hH trivial⟩

theorem assuming {x : Check α} {C : Prop} (hx : F.Keeps (H ∧ C) G x) :
    F.KeepsIf H (fun _ => C) G x := by
  intro s a s' hs h
  obtain ⟨ready, further, now, keeps⟩ := hx s a s' hs h
  exact ⟨ready, further, now, fun ends hH hC => keeps ends ⟨hH, hC⟩ trivial⟩

theorem same {x : Check α}
    (now : ∀ s a s', U.Ready s → x s = .ok a s' → Same s s' ∧ U.memo s'.memo ∧ G.now a)
    (later : ∀ s a s', x s = .ok a s' → F.Ends s → H → F.Fine s → G.later a) :
    F.KeepsIf H A G x := by
  intro s a s' hs h
  obtain ⟨same, memo, ha⟩ := now s a s' hs h
  have further := further_of_same same hs.solved
  exact ⟨ready_of_same same hs memo, further, ha, fun ends hH _ fine =>
    ⟨fine_of_same same fine, later s a s' h (ends.of_further further) hH fine⟩⟩

theorem reject {location : Location} {cause : Cause} :
    F.KeepsIf H A G (Analysis.reject location cause) := nofun

theorem ofExcept {x : Except Failure α} :
    F.KeepsIf H A ⟨fun a => x = .ok a, fun _ => True⟩ (Analysis.ofExcept x) := by
  refine same (fun s a s' hs h => ?_) fun _ _ _ _ _ _ _ => trivial
  obtain ⟨ha, rfl⟩ := ofExcept_eq_ok.mp h
  exact ⟨.refl s, hs.memo, ha⟩

theorem ofDefect {x : Except Defect α} :
    F.KeepsIf H A ⟨fun a => x = .ok a, fun _ => True⟩ (Analysis.ofDefect x) := by
  refine same (fun s a s' hs h => ?_) fun _ _ _ _ _ _ _ => trivial
  obtain ⟨ha, rfl⟩ := ofDefect_eq_ok.mp h
  exact ⟨.refl s, hs.memo, ha⟩

theorem guard {c : Prop} [Decidable c] {location : Location} {cause : Cause} {f : PUnit → Check β}
    (hf : ¬ c → F.KeepsIf H B G₁ (f ⟨⟩)) :
    F.KeepsIf H B G₁ (if c then Analysis.reject location cause >>= f else f ⟨⟩) := by
  split
  · rintro s b s' - h
    obtain ⟨_, _, h, -⟩ := bind_eq_ok.mp h
    exact absurd h reject_ne_ok
  · rename_i hc
    exact hf hc

theorem get : F.Keeps H F.states get := by
  rintro s _ _ hs ⟨⟩
  exact ⟨hs, further_of_same (.refl s) hs.solved, hs, fun _ _ _ fine => ⟨fine, fine⟩⟩

theorem modify {f : BodyState → BodyState} (subs : ∀ s, (f s).subs = s.subs)
    (calls : ∀ s, (f s).calls = s.calls) (ready : ∀ s, U.Ready s → U.Ready (f s))
    (fine : ∀ s, H → F.Fine s → F.Fine (f s)) : F.Keeps H .any (modify f) := by
  rintro s _ _ hs ⟨⟩
  refine ⟨ready s hs, ⟨?_, ?_⟩, trivial, fun _ hH _ hf => ⟨fine s hH hf, trivial⟩⟩
  · rw [subs]
    exact hs.solved.refines
  · rw [calls]
    exact List.Subset.refl _

end KeepsIf

end Prospect

/-! ## Parts of typed programs -/

open Typed (Part Expr Stmt)

section Parts

variable {T : SignatureTable} {g : Generics} {U : Upkeep T g} {S : Substitution}
  {F : Prospect U S} {H : Prop}

/-- A part has the property.  A call of a local binding has no generic arguments. -/
def Upkeep.part (U : Upkeep T g) : Part → Prop
  | .type t => U.type t
  | .nat n => U.nat n
  | .natParam n => g.hasNat n
  | .call _ c => c.kind = .localValue → c.typeArgs = [] ∧ c.natArgs = []

/-- A part has the property in the end.  The generic arguments of a call are determined, and within
    the bounds of the parameters. -/
def Prospect.part (F : Prospect U S) : Part → Prop
  | .type t => F.type t
  | .nat n => n.GroundIn S
  | .natParam _ => True
  | .call _ c => ∀ s, T.find? c.callee = some s → c.kind ≠ .localValue →
    ∀ x ∈ s.generics.types.zip c.typeArgs, F.within x.1 (x.2.subst S)

/-- What is known of a part. -/
def Prospect.parts (F : Prospect U S) : Aspect Part := ⟨U.part, F.part⟩

/-- Every part of an expression has the property. -/
def Prospect.exprs (F : Prospect U S) : Aspect Expr :=
  ⟨fun e => ∀ p ∈ e.parts, U.part p, fun e => ∀ p ∈ e.parts, F.part p⟩

/-- Every part of a statement has the property. -/
def Prospect.stmts (F : Prospect U S) : Aspect Stmt :=
  ⟨fun s => ∀ p ∈ s.parts, U.part p, fun s => ∀ p ∈ s.parts, F.part p⟩

theorem holds_part_type {t : Ty} : F.parts.Holds H (.type t) ↔ F.types.Holds H t :=
  ⟨fun h => ⟨h.now, h.later⟩, fun h => ⟨h.now, h.later⟩⟩

theorem holds_exprs {e : Expr} : F.exprs.Holds H e ↔ ∀ p ∈ e.parts, F.parts.Holds H p :=
  ⟨fun h p hp => ⟨h.now p hp, fun hH => h.later hH p hp⟩,
    fun h => ⟨fun p hp => (h p hp).now, fun hH p hp => (h p hp).later hH⟩⟩

theorem holds_stmts {s : Stmt} : F.stmts.Holds H s ↔ ∀ p ∈ s.parts, F.parts.Holds H p :=
  ⟨fun h p hp => ⟨h.now p hp, fun hH => h.later hH p hp⟩,
    fun h => ⟨fun p hp => (h p hp).now, fun hH p hp => (h p hp).later hH⟩⟩

theorem holds_exprs_each {es : List Expr} :
    F.exprs.each.Holds H es ↔ ∀ p ∈ Expr.partsAll es, F.parts.Holds H p := by
  rw [Aspect.holds_each, Expr.forall_mem_partsAll]
  exact forall₂_congr fun _ _ => holds_exprs

theorem holds_stmts_each {ss : List Stmt} :
    F.stmts.each.Holds H ss ↔ ∀ p ∈ Stmt.partsAll ss, F.parts.Holds H p := by
  rw [Aspect.holds_each, Stmt.forall_mem_partsAll]
  exact forall₂_congr fun _ _ => holds_stmts

theorem holds_builtin {name : String} {cls : OwnershipClass}
    (h : Ty.builtin? name = some (.prim name cls)) : F.types.Holds H (.prim name cls) :=
  ⟨U.prim h, fun _ => F.prim⟩

theorem holds_component {t u : Ty} (h : F.types.Holds H t) (hu : u ∈ t.components) :
    F.types.Holds H u :=
  ⟨U.component h.now hu, fun hH => F.component (h.later hH) hu⟩

theorem holds_tuple {ts : List Ty} (h : F.types.each.Holds H ts) : F.types.Holds H (.tuple ts) :=
  ⟨U.tuple h.now, fun hH => F.tuple (h.later hH)⟩

theorem forall_parts_call {Q : Part → Prop} {location : Location} {t : Ty} {c : Typed.CallTarget}
    {es : List Expr} : (∀ p ∈ (Expr.call location t c es).parts, Q p) ↔
      ((∀ u ∈ c.typeArgs, Q (.type u)) ∧ ∀ n ∈ c.natArgs, Q (.nat n)) ∧ Q (.type t) ∧
        (∀ e ∈ es, ∀ p ∈ e.parts, Q p) ∧ Q (.call location c) := by
  simp only [Typed.Expr.parts, List.forall_mem_append, List.forall_mem_cons, List.forall_mem_map,
    Expr.forall_mem_partsAll, List.not_mem_nil, false_imp_iff, implies_true, and_true]

theorem holds_type {e : Expr} (h : F.exprs.Holds H e) : F.types.Holds H e.type := by
  cases e with
  | int | name | fnRef | tuple | array | field | subscript =>
    exact holds_part_type.mp (holds_exprs.mp h _ (List.mem_cons_self ..))
  | float | bool | natParam => exact holds_builtin rfl
  | call location t target args =>
    exact holds_part_type.mp
      (holds_exprs.mp h _ (List.mem_append_right _ (List.mem_cons_self ..)))

end Parts

end QuantumStatics.Elaboration
