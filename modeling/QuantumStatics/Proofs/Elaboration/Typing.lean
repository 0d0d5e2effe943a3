/-
  Checked expressions are well typed.

  The types of a typed expression may mention what is still to be inferred, and what is found out
  later is put in at the end.  So what checking an expression yields is stated under every
  substitution that is at least as fine as what has been found out (`Yields`).

  A `TypeDiscipline` is a property of types that the checker keeps: it holds of every type that
  checking a body starts from or meets.
-/
import QuantumStatics.Proofs.Elaboration.Inference
import QuantumStatics.Proofs.Signature.Registered
import QuantumStatics.Proofs.Ty.Instantiation
import QuantumStatics.Proofs.Typed.WellTyped
import QuantumStatics.Proofs.Unification.Runs

namespace QuantumStatics

variable {location : Location} {expected : Option Ty}

theorem Ty.subst_of_determined {S : Substitution} {t : Ty} (h : ∀ v ∈ t.vars, ¬ v.isUndetermined) :
    t.subst S = t := by
  refine subst_eq_self fun v hv hb => h v hv ?_
  cases v with
  | undetType | undetNat => rfl
  | type | nat => cases hb

namespace Elaboration

/-! ## Properties of types -/

/-- A property of types that checking bodies against the table `T` keeps. -/
structure TypeDiscipline (T : SignatureTable) where
  holds : Ty → Prop
  prim {name : String} {cls : OwnershipClass} : holds (.prim name cls)
  undet {k : Stamp} : holds (.undet k)
  tuple {ts : List Ty} : (∀ t ∈ ts, holds t) → holds (.tuple ts)
  array {t : Ty} {n : NatTerm} : holds t → holds (.array t n)
  component {t u : Ty} : holds t → u ∈ t.components → holds u
  subst {S : Substitution} {t : Ty} :
    (∀ {k u}, S.types.get? k = some u → holds u) → holds t → holds (t.subst S)
  -- Signatures and declarations leave nothing to be inferred and lead to types with the property.
  keyed : T.Keyed
  fnRef {n : String} {s : Signature} : T.find? n = some s → s.isGeneric = false →
    holds s.functionType
  signature {n : String} {s : Signature} {I : Instantiation} : T.find? n = some s →
    (∀ {m u}, I.types.get? m = some u → holds u) →
    (∀ p ∈ s.params, holds (I.apply p.type)) ∧ holds (I.apply s.result)
  determined {n : String} {s : Signature} : T.find? n = some s →
    (∀ p ∈ s.params, ∀ v ∈ p.type.vars, ¬ v.isUndetermined) ∧
      ∀ v ∈ s.result.vars, ¬ v.isUndetermined
  fields {d : StructDecl} {ts : List Ty} {ns : List NatTerm} {fs : List Field} :
    holds (.struct d ts ns) → d.instantiateFields ts ns = .ok fs → ∀ f ∈ fs, holds f.type
  declared {d : StructDecl} {ts : List Ty} {ns : List NatTerm} : holds (.struct d ts ns) →
    ∀ f ∈ d.fields, ∀ v ∈ f.type.vars, ¬ v.isUndetermined

namespace TypeDiscipline

variable {T : SignatureTable} (K : TypeDiscipline T)

/-- The unifier keeps the property. -/
def unifying : TypeInvariant where
  holds _ S t := (∀ {k u}, S.types.get? k = some u → K.holds u) ∧ K.holds t
  subst _ h := ⟨h.1, K.subst h.1 h.2⟩
  component h hu := ⟨h.1, K.component h.2 hu⟩
  bindType {d d' S S' k t u} _ _ hthen _ bound h := by
    refine ⟨fun {j v} hj => ?_, h.2⟩
    rw [hthen.types] at hj
    have image : ∀ {i w}, (Substitution.ofType k t).types.get? i = some w → K.holds w := by
      intro i w hw
      obtain ⟨-, rfl⟩ : i = k ∧ t = w := by simpa using hw
      exact bound.2
    cases hs : S.types.get? j with
    | none => exact image (by simpa [hs] using hj)
    | some w =>
      obtain rfl : w.subst (.ofType k t) = v := by simpa [hs] using hj
      exact K.subst image (h.1 hs)
  bindNat {d S S' k n u} _ _ hthen h := by
    refine ⟨fun {j v} hj => ?_, h.2⟩
    rw [hthen.types] at hj
    cases hs : S.types.get? j with
    | none => simp [hs] at hj
    | some w =>
      obtain rfl : w.subst (.ofNat k n) = v := by simpa [hs] using hj
      exact K.subst (fun hi => by simp at hi) (h.1 hs)

/-- Every binding has a type with the property. -/
def Binds (env : Env) : Prop := ∀ {n t}, env.bindings.get? n = some t → K.holds t

/-- A state that a body may be checked from: what is found out is in solved form, and all types
    have the property. -/
structure Ready (s : BodyState) : Prop where
  solved : s.subs.Solved
  images {k t} : s.subs.types.get? k = some t → K.holds t
  env : K.Binds s.env
  jumps : ∀ frame ∈ s.loops, ∀ e ∈ frame.breaks ++ frame.continues, K.Binds e

/-- If a computation succeeds, its result satisfies `D`, and `P` under all that may be found out
    later. -/
def Yields {α : Type} (D : α → Prop) (P : Substitution → α → Prop) (x : Check α) : Prop :=
  ∀ s a s', K.Ready s → x s = .ok a s' →
    K.Ready s' ∧ s.subs.Advances s'.subs ∧ D a ∧ ∀ S, s'.subs.Refines S → P S a

variable {K}

namespace Yields

variable {α β : Type} {D : α → Prop} {E : β → Prop} {P : Substitution → α → Prop}
  {Q : Substitution → β → Prop} {cause : Cause} {c : Prop}

theorem pure {a : α} (hD : D a) (hP : ∀ S, P S a) : K.Yields D P (pure a) := by
  rintro s _ _ hs ⟨⟩
  exact ⟨hs, .refl hs.solved, hD, fun S _ => hP S⟩

/-- **One computation after another.**  What the first yields is known of what comes later. -/
theorem bind {x : Check α} {f : α → Check β} (hx : K.Yields D P x)
    (hf : ∀ a, D a → K.Yields E (fun S b => P S a → Q S b) (f a)) : K.Yields E Q (x >>= f) := by
  intro s b s' hs h
  obtain ⟨a, s₁, ha, hb⟩ := bind_eq_ok.mp h
  obtain ⟨ready, first, hD, hP⟩ := hx s a s₁ hs ha
  obtain ⟨ready', second, hE, hQ⟩ := hf a hD s₁ b s' ready hb
  exact ⟨ready', first.trans second, hE, fun S hr => hQ S hr (hP S (second.refines.trans hr))⟩

theorem mono {D' : α → Prop} {P' : Substitution → α → Prop} {x : Check α} (hx : K.Yields D P x)
    (hD : ∀ a, D a → D' a) (hP : ∀ S a, D a → P S a → P' S a) : K.Yields D' P' x := by
  intro s a s' hs h
  obtain ⟨ready, adv, ha, hS⟩ := hx s a s' hs h
  exact ⟨ready, adv, hD a ha, fun S hr => hP S a ha (hS S hr)⟩

theorem get : K.Yields K.Ready (fun _ _ => True) get := by
  rintro s _ _ hs ⟨⟩
  exact ⟨hs, .refl hs.solved, hs, fun _ _ => trivial⟩

theorem modify {f : BodyState → BodyState} (hf : ∀ s, (f s).subs = s.subs)
    (hr : ∀ s, K.Ready s → K.Ready (f s)) :
    K.Yields (fun _ => True) (fun _ _ => True) (modify f) := by
  rintro s _ _ hs ⟨⟩
  refine ⟨hr s hs, ?_, trivial, fun _ _ => trivial⟩
  rw [hf]
  exact .refl hs.solved

theorem reject : K.Yields D P (Analysis.reject location cause) := nofun

theorem ofExcept {x : Except Failure α} :
    K.Yields (fun a => x = .ok a) (fun _ _ => True) (Analysis.ofExcept x) := by
  intro s a s' hs h
  obtain ⟨ha, rfl⟩ := ofExcept_eq_ok.mp h
  exact ⟨hs, .refl hs.solved, ha, fun _ _ => trivial⟩

theorem ofDefect {x : Except Defect α} :
    K.Yields (fun a => x = .ok a) (fun _ _ => True) (Analysis.ofDefect x) := by
  intro s a s' hs h
  obtain ⟨ha, rfl⟩ := ofDefect_eq_ok.mp h
  exact ⟨hs, .refl hs.solved, ha, fun _ _ => trivial⟩

theorem guard [Decidable c] {f : PUnit → Check β} (hf : ¬ c → K.Yields E Q (f ⟨⟩)) :
    K.Yields E Q (if c then Analysis.reject location cause >>= f else f ⟨⟩) := by
  split
  · rintro s b s' - h
    obtain ⟨_, _, h, -⟩ := bind_eq_ok.mp h
    exact absurd h reject_ne_ok
  · rename_i hc
    exact hf hc

theorem ensure [Decidable c] {f : PUnit → Check β} (hf : c → K.Yields E Q (f ⟨⟩)) :
    K.Yields E Q (if c then f ⟨⟩ else Analysis.reject location cause >>= f) := by
  split
  · rename_i hc
    exact hf hc
  · rintro s b s' - h
    obtain ⟨_, _, h, -⟩ := bind_eq_ok.mp h
    exact absurd h reject_ne_ok

theorem require [Decidable c] :
    K.Yields (fun _ => c) (fun _ _ => True)
      (if c then Pure.pure () else Analysis.reject location cause) := by
  split
  · rename_i hc
    exact .pure hc fun _ => trivial
  · exact .reject

end Yields

end TypeDiscipline

namespace Check

open TypeDiscipline

variable {T : SignatureTable} {K : TypeDiscipline T} {t l r : Ty} {e : Expr} {s : Signature}
  {Γ : Scope} {call : OpenCall} {args : List Expr}

/-! ## Types -/

theorem resolve_yields (ht : K.holds t) :
    K.Yields K.holds (fun S u => u.subst S = t.subst S) (resolve t) := by
  intro s u s' hs h
  obtain ⟨_, _, hget, h⟩ := bind_eq_ok.mp h
  obtain ⟨rfl, rfl⟩ := get_eq_ok.mp hget
  obtain ⟨rfl, rfl⟩ := pure_eq_ok.mp h
  rw [Substitution.apply_eq]
  exact ⟨hs, .refl hs.solved, K.subst hs.images ht, fun S hr => hr.subst t⟩

theorem freshType_yields : K.Yields K.holds (fun _ _ => True) freshType := by
  rintro s _ _ hs ⟨⟩
  exact ⟨⟨hs.solved, hs.images, hs.env, hs.jumps⟩, .refl hs.solved, K.undet, fun _ _ => trivial⟩

/-- Arguments for all parameters, with the property. -/
structure Args (K : TypeDiscipline T) (g : Generics) (I : Instantiation) : Prop where
  all : I.For g
  types {m u} : I.types.get? m = some u → K.holds u

theorem freshArgs_yields (g : Generics) :
    K.Yields (Args K g) (fun _ _ => True) (freshArgs g) := by
  rintro s _ _ hs ⟨⟩
  refine ⟨⟨hs.solved, hs.images, hs.env, hs.jumps⟩, .refl hs.solved,
    ⟨Instantiation.for_fresh g s.next, fun {m u} hm => ?_⟩, fun _ _ => trivial⟩
  change (Instantiation.fresh g s.next).1.types.get? m = some u at hm
  dsimp only [Instantiation.fresh, Instantiation.pair] at hm
  rw [Dict.get?_ofListFirst, lookup_zip_map] at hm
  obtain ⟨k, -, rfl⟩ := Option.map_eq_some_iff.mp hm
  exact K.undet

theorem classify_yields (t : Ty) : K.Yields (fun _ => True) (fun _ _ => True) (classify t) := by
  intro s c s' hs h
  unfold classify at h
  split at h
  · cases h
    exact ⟨⟨hs.solved, hs.images, hs.env, hs.jumps⟩, .refl hs.solved, trivial, fun _ _ => trivial⟩
  · cases h

/-- **Types that have been unified stay equal**, and the result is what has become of them. -/
theorem unifyOr_yields {onError : UnificationError → Substitution → Rejection} (hl : K.holds l)
    (hr : K.holds r) :
    K.Yields K.holds (fun S t => (l.subst S).equal (r.subst S) ∧ t.subst S = l.subst S)
      (unifyOr onError l r) := by
  intro s t s' hs h
  obtain ⟨inferred, unified⟩ := unifyOr_eq_ok h
  obtain ⟨equal, result⟩ := unified hs.solved
  have adv := inferred.advances hs.solved
  have kept : K.unifying.pairs.types 0 s'.subs l r := by
    unfold unifyOr at h
    split at h
    · rename_i u subs hu
      cases h
      have start : ∀ d, K.unifying.pairs.types d s.subs l r := fun d =>
        ⟨⟨hs.images, hl⟩, ⟨hs.images, hr⟩⟩
      exact ((PairInvariant.unify_ends hs.solved (start _)).ok hu).types (start 0)
    · cases h
  refine ⟨⟨adv.solved, kept.1.1, inferred.env ▸ hs.env, inferred.loops ▸ hs.jumps⟩, adv, ?_, ?_⟩
  · rw [result]
    exact K.subst kept.1.1 hl
  · intro S hS
    rw [result]
    exact ⟨hS.equal equal, hS.subst l⟩

theorem unifyAt_yields {what : String} (hl : K.holds l) (hr : K.holds r) :
    K.Yields (fun _ => True) (fun S _ => (l.subst S).equal (r.subst S))
      (unifyAt location what l r) :=
  (unifyOr_yields hl hr).bind fun _ _ => .pure trivial fun _ h => h.1

theorem placeUse_yields (ht : K.holds t) (context : Typed.UseKind) :
    K.Yields (fun _ => True) (fun _ _ => True) (placeUse t context) := by
  refine (resolve_yields ht).bind fun t _ => ?_
  split
  · exact .pure trivial fun _ _ => trivial
  · exact (classify_yields t).bind fun _ _ => .pure trivial fun _ _ _ => trivial

theorem binding?_yields (name : String) :
    K.Yields (fun t? => ∀ t ∈ t?, K.holds t) (fun _ _ => True) (binding? name) :=
  Yields.get.bind fun _ hs => .pure (fun _ ht => hs.env ht) fun _ _ => trivial

/-! ## Parts of expressions -/

open Typed (Expr)

/-- Every type of an expression has the property. -/
abbrev Holds (K : TypeDiscipline T) (e : Expr) : Prop := e.EachType K.holds

/-- An expression is well typed, with what has been found out put in. -/
abbrev Sound (T : SignatureTable) (S : Substitution) (e : Expr) : Prop := (e.subst S).WellTyped T

theorem Holds.type (h : Holds K e) : K.holds e.type := Expr.EachType.type K.prim h

theorem expect_yields (he : Holds K e) (ht : K.holds t) (location : Location) (what : String) :
    K.Yields (fun _ => True) (fun S _ => (t.subst S).equal (e.type.subst S))
      (expect e t location what) :=
  unifyAt_yields ht he.type

theorem setUse_yields (he : Holds K e) (context : Typed.UseKind) :
    K.Yields (fun e' => Holds K e' ∧ e'.type = e.type) (fun S e' => Sound T S e → Sound T S e')
      (setUse context e) := by
  unfold setUse
  split
  · refine (placeUse_yields he.type context).bind fun _ _ => .pure ⟨he, rfl⟩ fun S _ _ => ?_
    exact .name
  · refine (placeUse_yields he.type context).bind fun _ _ => .pure ⟨he, rfl⟩ fun S _ h => ?_
    rw [Sound, Expr.subst] at h ⊢
    cases h with
    | field object struct index fields found type =>
      exact .field object struct index fields found type
  · refine (placeUse_yields he.type context).bind fun _ _ => .pure ⟨he, rfl⟩ fun S _ h => ?_
    rw [Sound, Expr.subst] at h ⊢
    cases h with
    | subscript indexed index array position => exact .subscript indexed index array position
  · exact .pure ⟨he, rfl⟩ fun _ => id

theorem functionType_subst {n : String} (h : T.find? n = some s) (K : TypeDiscipline T)
    (S : Substitution) : s.functionType.subst S = s.functionType := by
  obtain ⟨params, result⟩ := K.determined h
  refine Ty.subst_of_determined fun v hv => ?_
  simp only [Signature.functionType, Ty.vars, Ty.varsParams_eq, List.mem_filter, List.mem_append,
    List.mem_flatMap, List.mem_map] at hv
  obtain ⟨⟨_, ⟨p, hp, rfl⟩, hv⟩ | hv, -⟩ := hv
  · exact params p hp v hv
  · exact result v hv

theorem lookupName_yields {K : TypeDiscipline Γ.table} (location : Location) (name : String)
    (context : Typed.UseKind) :
    K.Yields (Holds K) (Sound Γ.table) (lookupName Γ location name context) := by
  refine (binding?_yields name).bind fun t? ht => ?_
  split
  · refine (placeUse_yields (ht _ rfl) context).bind fun _ _ => .pure (ht _ rfl) fun _ _ _ => ?_
    exact .name
  · refine .guard fun _ => ?_
    split
    · exact .pure trivial fun _ _ => .natParam
    · split
      · rename_i s hs
        refine .guard fun hg => ?_
        have hg : s.isGeneric = false := by simpa using hg
        refine .pure (K.fnRef hs hg) fun S _ => ?_
        rw [Sound, Expr.subst, functionType_subst hs K]
        exact .fnRef hs hg rfl
      · exact .reject

/-! ## Calls -/

/-- What equality sees of a type, with what has been found out put in. -/
def seen (S : Substitution) (t : Ty) : Ty := (t.subst S).skeleton

theorem seen_eq_iff {S : Substitution} : seen S l = seen S r ↔ (l.subst S).equal (r.subst S) :=
  (Ty.equal_iff _ _).symm

/-- The receiver of a call, if it has one. -/
def OpenCall.receivers (call : OpenCall) : List (Expr × Ownership) := call.receiver.toList

/-- Every type of an opened call with `count` parameters has the property. -/
structure OpenCall.Holds (K : TypeDiscipline T) (count : Nat) (call : OpenCall) : Prop where
  result : K.holds call.result
  params : ∀ p ∈ call.params, K.holds p.type
  count : call.params.length = count
  receivers : ∀ r ∈ call.receivers, Check.Holds K r.1
  inst {m u} : call.inst.types.get? m = some u → K.holds u

/-- A call has been opened with a signature, whose first parameters take the receiver. -/
structure OpenCall.OpensWith (T : SignatureTable) (S : Substitution) (call : OpenCall)
    (s : Signature) (selves : List ParamType) : Prop where
  find : T.find? call.callee = some s
  generics : call.generics = s.generics
  inst : call.inst.For s.generics
  result : call.result = call.inst.apply s.result
  params : s.params.map (fun p => ⟨call.inst.apply p.type, p.ownership⟩) = selves ++ call.params
  passed : selves.map (·.ownership) = call.receivers.map (·.2)
  receivers : selves.map (fun q => seen S q.type) = call.receivers.map fun r => seen S r.1.type

/-- The receiver of a call is well typed, and a call of a function has a signature. -/
structure OpenCall.Sound (T : SignatureTable) (S : Substitution) (call : OpenCall) : Prop where
  receivers : ∀ r ∈ call.receivers, Check.Sound T S r.1
  signature : call.kind ≠ .localValue → ∃ s selves, call.OpensWith T S s selves

theorem checkArity_yields (location : Location) (callee : String) (expected given : Nat) :
    K.Yields (fun _ => given = expected) (fun _ _ => True)
      (checkArity location callee expected given) :=
  .require

theorem expectResult_yields {result : Ty} (he : ∀ t ∈ expected, K.holds t) (hr : K.holds result)
    (location : Location) (callee : String) :
    K.Yields (fun _ => True) (fun _ _ => True) (expectResult location callee expected result) := by
  unfold expectResult
  split
  · exact (unifyAt_yields (he _ rfl) hr).mono (fun _ => id) fun _ _ _ _ => trivial
  · exact .pure trivial fun _ => trivial

theorem openSignature_yields (hs : T.find? s.name = some s) (he : ∀ t ∈ expected, K.holds t)
    (location : Location) (kind : Typed.CallKind) (count : Nat) :
    K.Yields (fun call => call.Holds K count ∧ call.kind = kind ∧ call.receiver = none)
      (fun S call => call.OpensWith T S s [])
      (openSignature location s kind count expected) := by
  refine (checkArity_yields location s.name _ count).bind fun _ hcount => ?_
  refine (freshArgs_yields s.generics).bind fun I args => ?_
  obtain ⟨params, result⟩ := K.signature hs args.types
  refine (expectResult_yields he result location s.name).bind fun _ _ => .pure ⟨?_, rfl, rfl⟩ ?_
  · exact ⟨result, List.forall_mem_map.mpr params, by rw [List.length_map, hcount], nofun,
      args.types⟩
  · intro S _ _ _
    exact ⟨hs, rfl, args.all, rfl, rfl, rfl, rfl⟩

theorem openLocalCall_yields {type : Ty} (ht : K.holds type) (he : ∀ t ∈ expected, K.holds t)
    (location : Location) (callee : String) (count : Nat) :
    K.Yields (OpenCall.Holds K count) (OpenCall.Sound T)
      (openLocalCall location callee type count expected) := by
  refine (resolve_yields ht).bind fun t ht => ?_
  split
  · rename_i params result generics
    have hresult : K.holds result :=
      K.component ht (List.mem_append_right _ (List.mem_singleton_self _))
    refine (checkArity_yields location callee _ count).bind fun _ hcount => ?_
    refine (expectResult_yields he hresult location callee).bind fun _ _ => .pure ?_ ?_
    · refine ⟨hresult, fun p hp => K.component ht ?_, hcount.symm, nofun, nofun⟩
      exact List.mem_append_left _ (List.mem_map_of_mem hp)
    · intro S _ _ _
      exact ⟨nofun, fun h => absurd rfl h⟩
  · exact .reject

theorem lookup_yields (location : Location) (name : String) :
    K.Yields (fun s => T.find? s.name = some s) (fun _ _ => True) (T.lookup name location) := by
  unfold SignatureTable.lookup
  split
  · rename_i s hs
    exact .pure (K.keyed hs ▸ hs) fun _ => trivial
  · exact .reject

theorem openCall_yields {K : TypeDiscipline Γ.table} (he : ∀ t ∈ expected, K.holds t)
    (location : Location) (callee : String) (count : Nat) :
    K.Yields (OpenCall.Holds K count) (OpenCall.Sound Γ.table)
      (openCall Γ location callee count expected) := by
  refine (binding?_yields callee).bind fun t? ht => ?_
  split
  · exact (openLocalCall_yields (ht _ rfl) he location callee count).mono (fun _ => id)
      fun _ _ _ h _ => h
  · refine .guard fun _ => (lookup_yields location callee).bind fun s hs => ?_
    refine (openSignature_yields hs he location _ count).mono (fun _ h => h.1) ?_
    intro S call hcall h _ _
    exact ⟨by simp [OpenCall.receivers, hcall.2.2], fun _ => ⟨s, [], h⟩⟩

theorem findMethod?_eq_some {method : String} (K : TypeDiscipline T)
    (h : T.findMethod? t method = some s) : T.find? s.name = some s := by
  unfold SignatureTable.findMethod? at h
  split at h
  · exact K.keyed h ▸ h
  · exact K.keyed h ▸ h
  · cases h

theorem openMethodCall_yields {K : TypeDiscipline Γ.table} {receiver : Expr} (hr : Holds K receiver)
    (he : ∀ t ∈ expected, K.holds t) (location : Location) (method : String) (count : Nat) :
    K.Yields (OpenCall.Holds K count)
      (fun S call => Sound Γ.table S receiver → call.Sound Γ.table S)
      (openMethodCall Γ location receiver method count expected) := by
  refine (resolve_yields hr.type).bind fun t _ => ?_
  split
  · exact .guard fun _ => .reject
  · rename_i s hs
    have hs := findMethod?_eq_some K hs
    refine (openSignature_yields hs he location .method _).bind fun call hcall => ?_
    obtain ⟨holds, kind, -⟩ := hcall
    split
    · rename_i self params hparams
      obtain ⟨hself, hrest⟩ := List.forall_mem_cons.mp (hparams ▸ holds.params)
      refine (expect_yields hr hself location s.name).bind fun _ _ => ?_
      refine (setUse_yields hr _).bind fun receiver' hr' =>
        .pure ?_ fun S used same opens _ sound => ?_
      · refine ⟨holds.result, hrest, ?_, List.forall_mem_singleton.mpr hr'.1, holds.inst⟩
        simpa [hparams] using holds.count
      · refine ⟨List.forall_mem_singleton.mpr (used sound), fun _ => ⟨s, [self], ?_⟩⟩
        refine ⟨opens.find, opens.generics, opens.inst, opens.result, ?_, rfl, ?_⟩
        · rw [opens.params, hparams]
          rfl
        · simp only [OpenCall.receivers, Option.toList_some, List.map_cons, List.map_nil, hr'.2]
          rw [seen_eq_iff.mpr same]
    · rename_i hparams
      have := holds.count
      simp [hparams] at this

theorem map_type_substAll (S : Substitution) (es : List Expr) :
    (Expr.substAll S es).map Expr.type = es.map fun e => e.type.subst S := by
  rw [Expr.substAll_eq_map, List.map_map]
  exact List.map_congr_left fun e _ => Expr.type_subst S e

/-- The callee of a call and its generic arguments. -/
def OpenCall.target (call : OpenCall) : Typed.CallTarget where
  callee := call.callee
  kind := call.kind
  ownership := call.receivers.map (·.2) ++ call.params.map (·.ownership)
  typeArgs := call.generics.typeNames.filterMap call.inst.types.get?
  natArgs := call.generics.nats.filterMap call.inst.nats.get?

/-- **A call fits the signature that it has been opened with**, if its arguments have the types of
    the parameters. -/
theorem OpenCall.OpensWith.fits {S : Substitution} {selves : List ParamType}
    (h : call.OpensWith T S s selves) (K : TypeDiscipline T)
    (hargs : call.params.map (fun p => seen S p.type) = args.map fun e => seen S e.type) :
    (call.target.subst S).Fits T (call.result.subst S)
      ((call.receivers.map (·.1) ++ args).map fun e => e.type.subst S) := by
  obtain ⟨J, hJ, follows⟩ := Instantiation.exists_ofArgs S h.inst
  obtain ⟨params, result⟩ := K.determined h.find
  have instantiated : ∀ {t : Ty}, (∀ v ∈ t.vars, ¬ v.isUndetermined) →
      (call.inst.apply t).subst S = J.apply t := fun ht => by
    rw [Instantiation.apply_eq, Instantiation.apply_eq, Ty.subst_inst follows ht]
  have types : s.params.map (fun p => (J.apply p.type).skeleton) =
      ((call.receivers.map (·.1) ++ args).map fun e => e.type.subst S).map Ty.skeleton :=
    calc
      _ = s.params.map fun p => seen S (call.inst.apply p.type) :=
        List.map_congr_left fun p hp => by rw [seen, instantiated (params p hp)]
      _ = (selves ++ call.params).map fun q => seen S q.type := by
        rw [← h.params, List.map_map]
        rfl
      _ = (call.receivers.map (·.1) ++ args).map fun e => seen S e.type := by
        rw [List.map_append, h.receivers, hargs, List.map_append, List.map_map]
        rfl
      _ = _ := (List.map_map ..).symm
  obtain ⟨count, arg⟩ := map_eq_map_iff_zip.mp types
  refine ⟨s, J, h.find, ?_, count.symm, fun p hp => ?_, ?_, ?_⟩
  · simpa only [Typed.CallTarget.subst, OpenCall.target, h.generics] using hJ
  · exact (Ty.equal_iff _ _).mpr (arg p hp).symm
  · rw [h.result, instantiated result]
    exact Ty.equal_refl _
  · have passed := congrArg (List.map ParamType.ownership) h.params
    rw [List.map_map, List.map_append, h.passed] at passed
    exact passed.symm

/-- What a call leaves to be determined by the end of the statement. -/
def OpenCall.pending (call : OpenCall) (location : Location) : List PendingCall :=
  if call.generics.isEmpty then []
  else [⟨location, call.callee, call.generics, call.target.typeArgs, call.target.natArgs⟩]

theorem closeCall_eq_ok {s s' : BodyState} (h : closeCall location call args s = .ok e s') :
    e = .call location call.result call.target (call.receivers.map (·.1) ++ args) ∧
      s' = { s with calls := s.calls ++ call.pending location } := by
  unfold closeCall at h
  rw [OpenCall.target, OpenCall.receivers, OpenCall.pending]
  cases hr : call.receiver with
  | none | some _ =>
    rw [hr] at h
    dsimp only at h
    split at h
    · rename_i plain
      cases h
      rw [if_pos plain, List.append_nil]
      exact ⟨rfl, rfl⟩
    · rename_i some
      obtain ⟨_, s₁, hs, h⟩ := bind_eq_ok.mp h
      cases modify_eq_ok.mp hs
      cases h
      rw [if_neg some]
      exact ⟨rfl, rfl⟩

theorem closeCall_yields {count : Nat} (hcall : call.Holds K count) (hargs : ∀ e ∈ args, Holds K e)
    (location : Location) :
    K.Yields (Holds K)
      (fun S e => call.Sound T S → (∀ e ∈ args, Sound T S e) →
        call.params.map (fun p => seen S p.type) = args.map (fun e => seen S e.type) → Sound T S e)
      (closeCall location call args) := by
  intro s e s' hs h
  obtain ⟨rfl, rfl⟩ := closeCall_eq_ok h
  refine ⟨⟨hs.solved, hs.images, hs.env, hs.jumps⟩, .refl hs.solved, ?_, ?_⟩
  · refine ⟨hcall.result, fun u hu => ?_, Expr.eachTypeAll_iff.mpr ?_⟩
    · obtain ⟨n, -, hn⟩ := List.mem_filterMap.mp hu
      exact hcall.inst hn
    · exact List.forall_mem_append.mpr ⟨List.forall_mem_map.mpr hcall.receivers, hargs⟩
  · intro S _ opened sound types
    rw [Sound, Expr.subst]
    refine .call ?_ fun hk => ?_
    · rw [Expr.substAll_eq_map]
      exact List.forall_mem_map.mpr
        (List.forall_mem_append.mpr ⟨List.forall_mem_map.mpr opened.receivers, sound⟩)
    · obtain ⟨s, selves, opens⟩ := opened.signature hk
      rw [map_type_substAll]
      exact opens.fits K types

/-! ## Projections -/

/-- **The type of a field**: what the declaration of the struct says for the arguments. -/
theorem fieldOf_yields {object : Expr} (ho : Holds K object) (location : Location)
    (label : String) :
    K.Yields (fun r => K.holds r.2)
      (fun S r => ∀ use, Sound T S object → Sound T S (.field location r.2 object label r.1 use))
      (fieldOf location object label) := by
  refine (resolve_yields ho.type).bind fun t ht => ?_
  split
  · rename_i decl typeArgs natArgs
    split
    · exact .reject
    · rename_i index hindex
      refine Yields.ofDefect.bind fun fields hfields => ?_
      split
      · rename_i f hf
        refine .pure (K.fields ht hfields f (List.mem_of_getElem? hf)) fun S _ same use sound => ?_
        rw [Sound, Expr.subst]
        have type : (object.subst S).type = (Ty.struct decl typeArgs natArgs).subst S := by
          rw [Expr.type_subst, same]
        rw [Ty.subst_struct] at type
        refine .field (f := ⟨f.name, f.type.subst S⟩) sound type hindex
          (StructDecl.instantiateFields_subst S (K.declared ht) hfields) ?_ rfl
        rw [List.getElem?_map, hf]
        rfl
      · exact .reject
  · exact .reject

theorem elementOf_yields {indexed : Expr} (hi : Holds K indexed) (location : Location) :
    K.Yields K.holds (fun S t => ∃ n, indexed.type.subst S = .array (t.subst S) n)
      (elementOf location indexed) := by
  refine (resolve_yields hi.type).bind fun t ht => ?_
  split
  · rename_i elem length
    refine .pure (K.component ht (List.mem_singleton_self _)) fun S same => ⟨length.subst S, ?_⟩
    rw [← same, Ty.subst_array]
  · exact .reject

theorem equal_prim_of_primName? {name : String} {cls : OwnershipClass}
    (h : t.primName? = some name) : t.equal (.prim name cls) := by
  cases t with
  | prim name' cls' =>
    cases h
    simp [Ty.equal]
  | _ => cases h

theorem checkIndex_yields {index : Expr} (hi : Holds K index) (location : Location) :
    K.Yields (fun _ => True)
      (fun S _ => (index.type.subst S).equal .int ∨ (index.type.subst S).equal .nat)
      (checkIndex location index) := by
  refine (resolve_yields hi.type).bind fun t _ => ?_
  split
  · rename_i hname
    refine .pure trivial fun S same => ?_
    rw [← same]
    cases t with
    | prim name cls => exact hname.imp equal_prim_of_primName? equal_prim_of_primName?
    | _ => simp [Ty.primName?] at hname
  · split
    · refine (expect_yields hi K.prim location _).mono (fun _ => id) fun S _ _ h _ => .inl ?_
      exact Ty.equal_symm h
    · exact .reject

/-! ## Expected types -/

theorem literalType_yields (he : ∀ t ∈ expected, K.holds t) (value : Int64) :
    K.Yields (fun t => t = .int ∨ t = .nat) (fun _ _ => True) (literalType expected value) := by
  unfold literalType
  split
  · exact .pure (.inl rfl) fun _ => trivial
  · refine (resolve_yields (he _ rfl)).bind fun t _ => .pure ?_ fun _ _ => trivial
    split
    · exact .inr rfl
    · exact .inl rfl

theorem tupleHints_yields (he : ∀ t ∈ expected, K.holds t) (count : Nat) :
    K.Yields (fun hints => ∀ hint ∈ hints, ∀ t ∈ hint, K.holds t) (fun _ _ => True)
      (tupleHints expected count) := by
  have unknown : ∀ hint ∈ List.replicate count (none : Option Ty), ∀ t ∈ hint, K.holds t := by
    intro hint hh
    rw [List.eq_of_mem_replicate hh]
    exact nofun
  unfold tupleHints
  split
  · exact .pure unknown fun _ => trivial
  · refine (resolve_yields (he _ rfl)).bind fun t ht => ?_
    split
    · refine .pure ?_ fun _ _ => trivial
      split
      · exact List.forall_mem_map.mpr fun u hu _ hv => by
          cases hv
          exact K.component ht hu
      · exact unknown
    · exact .pure unknown fun _ _ => trivial

theorem arrayHint_yields (he : ∀ t ∈ expected, K.holds t) :
    K.Yields K.holds (fun _ _ => True) (arrayHint expected) := by
  unfold arrayHint
  split
  · exact freshType_yields
  · refine (resolve_yields (he _ rfl)).bind fun t ht => ?_
    split
    · exact .pure (K.component ht (List.mem_singleton_self _)) fun _ _ => trivial
    · exact freshType_yields.mono (fun _ => id) fun _ _ _ _ _ => trivial

theorem checkOperator_yields {K : TypeDiscipline Γ.table} {left : Expr} (hl : Holds K left)
    (location : Location) (op method : String) :
    K.Yields (fun _ => True) (fun _ _ => True) (checkOperator Γ location op method left) := by
  refine (resolve_yields hl.type).bind fun t _ => ?_
  split
  · exact .pure trivial fun _ _ => trivial
  · exact .reject

theorem operatorMethod_yields (location : Location) (op : String) (method? : Option String) :
    K.Yields (fun _ => True) (fun _ _ => True) (operatorMethod location op method?) := by
  unfold operatorMethod
  split
  · exact .pure trivial fun _ => trivial
  · exact .reject

theorem operandHint_holds (he : ∀ t ∈ expected, K.holds t) (method : String) :
    ∀ t ∈ operandHint method expected, K.holds t := by
  unfold operandHint
  split
  · exact nofun
  · exact he

end Check

/-! ## Expressions -/

open Check

variable {Γ : Scope} {K : TypeDiscipline Γ.table}

theorem forall_mem_none {α : Type} {P : α → Prop} : ∀ b ∈ (none : Option α), P b := nofun

theorem forall_mem_some {α : Type} {P : α → Prop} {a : α} (h : P a) : ∀ b ∈ some a, P b := by
  rintro b ⟨⟩
  exact h

mutual

/-- **A checked expression is well typed**, once what is found out has been put in. -/
theorem checkExpr_yields {expected : Option Ty} (he : ∀ t ∈ expected, K.holds t)
    (context : Typed.UseKind) :
    ∀ e : Source.Expr, e.EachType K.holds →
      K.Yields (Holds K) (Sound Γ.table) (checkExpr Γ expected context e)
  | .int location value, _ => by
    refine (literalType_yields he value).bind fun t ht => .pure ?_ fun S _ => ?_
    · rcases ht with rfl | rfl <;> exact K.prim
    · rcases ht with rfl | rfl
      · exact .int (.inl rfl)
      · exact .int (.inr rfl)
  | .float location value, _ => .pure trivial fun _ => .float
  | .bool location value, _ => .pure trivial fun _ => .bool
  | .name location n, _ => lookupName_yields location n context
  | .tuple location elems, h => by
    refine (tupleHints_yields he elems.length).bind fun hints hhints => ?_
    refine (checkElems_yields hints elems hhints h).bind fun typed ht =>
      .pure ?_ fun S sound _ => ?_
    · exact ⟨K.tuple (List.forall_mem_map.mpr fun e he => (ht e he).type),
        Typed.Expr.eachTypeAll_iff.mpr ht⟩
    · rw [Sound, Typed.Expr.subst]
      refine .tuple ?_ ?_
      · rw [Typed.Expr.substAll_eq_map]
        exact List.forall_mem_map.mpr sound
      · rw [map_type_substAll, Ty.subst_tuple, List.map_map]
        rfl
  | .array location elems, h => by
    refine (arrayHint_yields he).bind fun elem hel => ?_
    refine (checkMembers_yields hel elems h).bind fun typed ht => ?_
    refine (resolve_yields hel).bind fun t htype => .pure ?_ fun S same members _ => ?_
    · exact ⟨K.array htype, Typed.Expr.eachTypeAll_iff.mpr ht.1⟩
    · have type : ∀ e ∈ Typed.Expr.substAll S typed, e.type.equal (t.subst S) := by
        rw [Typed.Expr.substAll_eq_map]
        refine List.forall_mem_map.mpr fun e he => ?_
        rw [Typed.Expr.type_subst, same]
        exact Ty.equal_symm (members e he).2
      rw [Sound, Typed.Expr.subst]
      refine .array ?_ type ?_
      · rw [Typed.Expr.substAll_eq_map]
        exact List.forall_mem_map.mpr fun e he => (members e he).1
      · rw [Typed.Expr.substAll_eq_map, List.length_map, ht.2, Ty.subst_array]
        rfl
  | .call location callee args, h => by
    refine (openCall_yields he location callee args.length).bind fun call hcall => ?_
    refine (checkArgs_yields call.params args hcall.params hcall.count h).bind fun typed ht => ?_
    refine (closeCall_yields hcall ht location).mono (fun _ => id) fun S e _ sound args opened => ?_
    exact sound opened args.1 args.2
  | .methodCall location receiver method args, h => by
    refine (checkExpr_yields forall_mem_none .borrow receiver h.1).bind fun receiver hr => ?_
    refine (openMethodCall_yields hr he location method args.length).bind fun call hcall => ?_
    refine (checkArgs_yields call.params args hcall.params hcall.count h.2).bind fun typed ht => ?_
    refine (closeCall_yields hcall ht location).mono (fun _ => id)
      fun S e _ sound args opened receiver => ?_
    exact sound (opened receiver) args.1 args.2
  | .field location object label, h => by
    refine (checkExpr_yields forall_mem_none .borrow object h).bind fun object ho => ?_
    refine (fieldOf_yields ho location label).bind fun ⟨index, t⟩ ht => ?_
    refine (placeUse_yields ht context).bind fun use _ => .pure ⟨ht, ho⟩ fun S _ field object => ?_
    exact field use object
  | .subscript location indexed index, h => by
    refine (checkExpr_yields forall_mem_none .borrow indexed h.1).bind fun typed hi => ?_
    refine (elementOf_yields hi location).bind fun elem hel => ?_
    refine (checkExpr_yields forall_mem_none .borrow index h.2).bind fun position hp => ?_
    refine (checkIndex_yields hp index.location).bind fun _ _ => ?_
    refine (placeUse_yields hel context).bind fun use _ => .pure ⟨hel, hi, hp⟩ ?_
    intro S _ index position array indexed
    obtain ⟨n, array⟩ := array
    rw [Sound, Typed.Expr.subst]
    refine .subscript indexed position (n := n) ?_ ?_
    · rw [Typed.Expr.type_subst, array]
    · rwa [Typed.Expr.type_subst]
  | .binary location op left right, h => by
    refine (operatorMethod_yields location op _).bind fun method _ => ?_
    have hint := operandHint_holds he method
    refine (checkExpr_yields hint .borrow left h.1).bind fun left hl => ?_
    refine (checkOperator_yields hl location op method).bind fun _ _ => ?_
    refine (openMethodCall_yields hl hint location method 1).bind fun call hcall => ?_
    split
    · rename_i p rest hparams
      obtain ⟨hp, -⟩ := List.forall_mem_cons.mp (hparams ▸ hcall.params)
      refine (checkExpr_yields (forall_mem_some hp) _ right h.2).bind fun typed hr => ?_
      refine (expect_yields hr hp right.location _).bind fun _ _ => ?_
      refine (closeCall_yields hcall (List.forall_mem_singleton.mpr hr) location).mono
        (fun _ => id) ?_
      intro S e _ sound same right opened _ left _
      refine sound (opened left) (List.forall_mem_singleton.mpr right) ?_
      have single : rest = [] := by simpa [hparams] using hcall.count
      rw [hparams, single]
      exact congrArg (fun t => [t]) (seen_eq_iff.mpr same)
    · rename_i hparams
      have := hcall.count
      simp [hparams] at this
  | .unary location op operand, h => by
    refine (operatorMethod_yields location op _).bind fun method _ => ?_
    have hint := operandHint_holds he method
    refine (checkExpr_yields he .borrow operand h).bind fun operand ho => ?_
    refine (checkOperator_yields ho location op method).bind fun _ _ => ?_
    refine (openMethodCall_yields ho hint location method 0).bind fun call hcall => ?_
    refine (closeCall_yields hcall (List.forall_mem_nil _) location).mono (fun _ => id) ?_
    intro S e _ sound opened _ operand _
    refine sound (opened operand) nofun ?_
    rw [List.length_eq_zero_iff.mp hcall.count]
    rfl
  | .annotated location expr t, h => by
    refine TypeDiscipline.Yields.ofExcept.bind fun _ _ => ?_
    refine (checkExpr_yields (forall_mem_some h.2) context expr h.1).bind fun typed ht => ?_
    refine (expect_yields ht h.2 location _).bind fun _ _ => .pure ht fun S _ sound _ => sound

theorem checkArgs_yields {callee : String} : ∀ (params : List ParamType) (args : List Source.Expr),
    (∀ p ∈ params, K.holds p.type) → params.length = args.length →
    Source.Expr.EachTypeAll K.holds args →
      K.Yields (fun typed => ∀ e ∈ typed, Holds K e)
        (fun S typed => (∀ e ∈ typed, Sound Γ.table S e) ∧
          params.map (fun p => seen S p.type) = typed.map fun e => seen S e.type)
        (checkArgs Γ callee params args)
  | [], [], _, _, _ => .pure nofun fun _ => ⟨nofun, rfl⟩
  | p :: ps, e :: es, hps, hcount, h => by
    obtain ⟨hp, hps⟩ := List.forall_mem_cons.mp hps
    refine (checkExpr_yields (forall_mem_some hp) _ e h.1).bind fun typed ht => ?_
    refine (expect_yields ht hp e.location callee).bind fun _ _ => ?_
    refine (checkArgs_yields ps es hps (Nat.succ.inj hcount) h.2).bind fun rest hrest => .pure ?_ ?_
    · exact List.forall_mem_cons.mpr ⟨ht, hrest⟩
    · intro S later same sound
      refine ⟨List.forall_mem_cons.mpr ⟨sound, later.1⟩, ?_⟩
      rw [List.map_cons, List.map_cons, later.2, seen_eq_iff.mpr same]
  | [], _ :: _, _, hcount, _ | _ :: _, [], _, hcount, _ => by cases hcount

theorem checkElems_yields : ∀ (hints : List (Option Ty)) (elems : List Source.Expr),
    (∀ hint ∈ hints, ∀ t ∈ hint, K.holds t) → Source.Expr.EachTypeAll K.holds elems →
      K.Yields (fun typed => ∀ e ∈ typed, Holds K e)
        (fun S typed => ∀ e ∈ typed, Sound Γ.table S e) (checkElems Γ hints elems)
  | hint :: hints, e :: es, hh, h => by
    obtain ⟨hhint, hhints⟩ := List.forall_mem_cons.mp hh
    refine (checkExpr_yields hhint .consume e h.1).bind fun typed ht => ?_
    refine (checkElems_yields hints es hhints h.2).bind fun rest hrest => .pure ?_ ?_
    · exact List.forall_mem_cons.mpr ⟨ht, hrest⟩
    · exact fun S later sound => List.forall_mem_cons.mpr ⟨sound, later⟩
  | [], [], _, _ | [], _ :: _, _, _ | _ :: _, [], _, _ => .pure nofun fun _ => nofun

theorem checkMembers_yields {elem : Ty} (hel : K.holds elem) :
    ∀ elems : List Source.Expr, Source.Expr.EachTypeAll K.holds elems →
      K.Yields (fun typed => (∀ e ∈ typed, Holds K e) ∧ typed.length = elems.length)
        (fun S typed => ∀ e ∈ typed, Sound Γ.table S e ∧ (elem.subst S).equal (e.type.subst S))
        (checkMembers Γ elem elems)
  | [], _ => .pure ⟨nofun, rfl⟩ fun _ => nofun
  | e :: es, h => by
    refine (checkExpr_yields (forall_mem_some hel) .consume e h.1).bind fun typed ht => ?_
    refine (expect_yields ht hel e.location _).bind fun _ _ => ?_
    refine (checkMembers_yields hel es h.2).bind fun rest hrest => .pure ?_ ?_
    · exact ⟨List.forall_mem_cons.mpr ⟨ht, hrest.1⟩, congrArg (· + 1) hrest.2⟩
    · exact fun S later same sound => List.forall_mem_cons.mpr ⟨⟨sound, same⟩, later⟩

end

end Elaboration

end QuantumStatics
