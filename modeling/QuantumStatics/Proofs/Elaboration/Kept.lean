/-
  What checking an expression keeps.

  Expressions are checked with types that are declared, found in the environment, instances of
  signatures and fields, or put together from these.  So a property that all these keep holds of all
  parts of the checked expression.
-/
import QuantumStatics.Proofs.Elaboration.Upkeep

namespace QuantumStatics.Elaboration

open Check
open Typed (Part Expr Stmt)

variable {expected : Option Ty}

namespace Check

variable {T : SignatureTable} {g : Generics} {U : Upkeep T g} {S : Substitution} {F : Prospect U S}
  {H : Prop} {t l r : Ty} {e : Expr} {call : OpenCall} {s s' : BodyState} {location : Location}
  {args : List Expr}

/-! ## Types -/

theorem resolve_keeps (ht : F.types.Holds H t) : F.Keeps H F.types (resolve t) := by
  refine .same (fun s u s' hs h => ?_) fun s u s' h ends hH fine => ?_
  · obtain ⟨rfl, rfl⟩ := resolve_eq_ok h
    exact ⟨.refl s', hs.memo, U.subst hs.images.types hs.images.nats ht.now⟩
  · obtain ⟨rfl, -⟩ := resolve_eq_ok h
    exact F.subst ends.refines fine.images (ht.later hH)

theorem freshType_keeps : F.Keeps H F.types freshType := by
  refine .same (fun s t s' hs h => ?_) fun s t s' h _ _ _ => ?_
  · cases h
    exact ⟨⟨rfl, rfl, rfl, rfl⟩, hs.memo, U.undet⟩
  · cases h
    exact F.undet

/-- Arguments for all parameters that are still to be inferred. -/
structure Fresh (gs : Generics) (I : Instantiation) : Prop where
  all : I.For gs
  types {m u} : I.types.get? m = some u → ∃ k, u = .undet k
  nats {m n} : I.nats.get? m = some n → ∃ k, n = .undet k

theorem fresh_fresh (gs : Generics) (next : Stamp) : Fresh gs (Instantiation.fresh gs next).1 where
  all := Instantiation.for_fresh gs next
  types {m u} hm := by
    dsimp only [Instantiation.fresh, Instantiation.pair] at hm
    rw [Dict.get?_ofListFirst, lookup_zip_map] at hm
    obtain ⟨k, -, rfl⟩ := Option.map_eq_some_iff.mp hm
    exact ⟨k, rfl⟩
  nats {m n} hm := by
    dsimp only [Instantiation.fresh, Instantiation.pair] at hm
    rw [Dict.get?_ofListFirst, lookup_zip_map] at hm
    obtain ⟨k, -, rfl⟩ := Option.map_eq_some_iff.mp hm
    exact ⟨k, rfl⟩

theorem freshArgs_keeps (gs : Generics) :
    F.Keeps H ⟨Fresh gs, fun _ => True⟩ (freshArgs gs) := by
  refine .same (fun s I s' hs h => ?_) fun _ _ _ _ _ _ _ => trivial
  cases h
  exact ⟨⟨rfl, rfl, rfl, rfl⟩, hs.memo, fresh_fresh gs s.next⟩

theorem classify_eq_ok {c : OwnershipClass} (h : classify t s = .ok c s') :
    Same s s' ∧ ClassMemo.classify t s.memo = .ok c s'.memo := by
  unfold classify at h
  split at h
  · rename_i hc
    cases h
    exact ⟨⟨rfl, rfl, rfl, rfl⟩, hc⟩
  · cases h

theorem classify_keeps (ht : U.type t) : F.Keeps H .any (classify t) := by
  refine .same (fun s c s' hs h => ?_) fun _ _ _ _ _ _ _ => trivial
  obtain ⟨same, class_⟩ := classify_eq_ok h
  exact ⟨same, U.classify ht hs.memo class_, trivial⟩

theorem unifyOr_keeps {onError : UnificationError → Substitution → Rejection}
    (hl : F.types.Holds H l) (hr : F.types.Holds H r) :
    F.Keeps H F.types (unifyOr onError l r) := by
  intro s t s' hs h
  obtain ⟨inferred, unified⟩ := unifyOr_eq_ok h
  have advances := inferred.advances hs.solved
  obtain ⟨-, rfl⟩ := unified hs.solved
  unfold unifyOr at h
  split at h
  · rename_i u subs hu
    cases h
    have start : U.pairs.types 0 s.subs l r := ⟨hs.images, hl.now, hr.now⟩
    have kept := ((PairInvariant.unify_ends (I := U.pairs) hs.solved start).ok hu).types start
    refine ⟨⟨advances.solved, kept.1, hs.env, hs.jumps, hs.calls, hs.memo⟩,
      ⟨advances.refines, List.Subset.refl _⟩, U.subst kept.1.types kept.1.nats hl.now,
      fun ends hH _ fine => ?_⟩
    have start : ∀ d, F.unifying.pairs.types d s.subs l r := fun d =>
      ⟨fun _ => ⟨fine.images, hl.later hH⟩, fun _ => ⟨fine.images, hr.later hH⟩⟩
    have later := ((PairInvariant.unify_ends hs.solved (start _)).ok hu).types (start 0)
    have images : F.Images subs := (later.1 ends.refines).1
    exact ⟨⟨images, fine.env, fine.jumps⟩, F.subst ends.refines images (hl.later hH)⟩
  · cases h

theorem unifyAt_keeps {what : String} (hl : F.types.Holds H l) (hr : F.types.Holds H r) :
    F.Keeps H .any (unifyAt location what l r) :=
  (unifyOr_keeps hl hr).bind fun _ _ _ => .pure Aspect.holds_any

theorem placeUse_keeps (ht : F.types.Holds H t) (context : Typed.UseKind) :
    F.Keeps H .any (placeUse t context) := by
  refine (resolve_keeps ht).bind fun _ t ht => ?_
  split
  · exact .pure Aspect.holds_any
  · exact (classify_keeps ht.now).bind fun _ _ _ => .pure Aspect.holds_any

theorem binding?_keeps (name : String) : F.Keeps H F.types.opt (binding? name) := by
  refine Prospect.KeepsIf.get.bind fun _ s hs => .pure ⟨fun t ht => ?_, fun h t ht => ?_⟩
  · exact hs.now.env ht
  · exact (hs.later h).env ht

/-! ## Parts of expressions -/

theorem expect_keeps (he : F.exprs.Holds H e) (ht : F.types.Holds H t) (location : Location)
    (what : String) : F.Keeps H .any (expect e t location what) :=
  unifyAt_keeps ht (holds_type he)

theorem setUse_keeps (he : F.exprs.Holds H e) (context : Typed.UseKind) :
    F.Keeps H F.exprs (setUse context e) := by
  have ht := holds_type he
  unfold setUse
  split
  · exact (placeUse_keeps ht context).bind fun lift _ _ =>
      .pure ⟨he.now, fun h => he.later (lift h)⟩
  · exact (placeUse_keeps ht context).bind fun lift _ _ =>
      .pure ⟨he.now, fun h => he.later (lift h)⟩
  · exact (placeUse_keeps ht context).bind fun lift _ _ =>
      .pure ⟨he.now, fun h => he.later (lift h)⟩
  · exact .pure he

/-! ## Calls -/

/-- The types of a call have the property now. -/
structure OpenCall.Kept (U : Upkeep T g) (call : OpenCall) : Prop where
  result : U.type call.result
  params : ∀ p ∈ call.params, U.type p.type
  receivers : ∀ r ∈ call.receivers, ∀ p ∈ r.1.parts, U.part p
  types {m u} : call.inst.types.get? m = some u → U.type u
  nats {m n} : call.inst.nats.get? m = some n → U.nat n
  localValue : call.kind = .localValue → call.generics = {}
  signature : call.kind ≠ .localValue →
    ∃ s, T.find? call.callee = some s ∧ call.generics = s.generics

/-- The types of a call have the property in the end. -/
structure OpenCall.Promising (F : Prospect U S) (call : OpenCall) : Prop where
  result : F.type call.result
  params : ∀ p ∈ call.params, F.type p.type
  receivers : ∀ r ∈ call.receivers, ∀ p ∈ r.1.parts, F.part p
  types {m u} : call.inst.types.get? m = some u → F.type u
  nats {m n} : call.inst.nats.get? m = some n → n.GroundIn S

/-- What is known of an opened call. -/
def openCalls (F : Prospect U S) : Aspect OpenCall := ⟨OpenCall.Kept U, OpenCall.Promising F⟩

/-- The generic arguments of a call are determined, and within the bounds of the parameters. -/
structure OpenCall.Settled (F : Prospect U S) (call : OpenCall) : Prop where
  types : ∀ x ∈ call.generics.types.zip call.target.typeArgs, F.within x.1 (x.2.subst S)
  nats : ∀ x ∈ call.generics.nats.zip call.target.natArgs, x.2.GroundIn S

theorem holds_params (h : (openCalls F).Holds H call) :
    ∀ p ∈ call.params, F.types.Holds H p.type := fun p hp =>
  ⟨h.now.params p hp, fun hH => (h.later hH).params p hp⟩

theorem forall_zip_filterMap {α β : Type} {ps : List α} {f : α → Option β} {P : α → β → Prop}
    (h : ∀ p ∈ ps, (f p).isSome) : (∀ x ∈ ps.zip (ps.filterMap f), P x.1 x.2) ↔
      ∀ p ∈ ps, ∀ u, f p = some u → P p u := by
  induction ps with
  | nil => simp
  | cons p ps ih =>
    obtain ⟨hp, h⟩ := List.forall_mem_cons.mp h
    obtain ⟨u, hu⟩ := Option.isSome_iff_exists.mp hp
    rw [List.filterMap_cons_some hu, List.zip_cons_cons, List.forall_mem_cons,
      List.forall_mem_cons, ih h]
    refine and_congr_left' ⟨fun hP v hv => ?_, fun hP => hP u hu⟩
    cases hu.symm.trans hv
    exact hP

/-- **What a settled call has for its generic parameters.** -/
theorem args_of_settled (h : call.inst.For call.generics) (settled : OpenCall.Settled F call) :
    (∀ p ∈ call.generics.types, ∀ u, call.inst.types.get? p.name = some u →
      F.within p (u.subst S)) ∧ ∀ {m n}, call.inst.nats.get? m = some n → n.GroundIn S := by
  have types := settled.types
  rw [OpenCall.target, Generics.typeNames, List.filterMap_map] at types
  refine ⟨(forall_zip_filterMap fun p hp => ?_).mp types, fun {m n} hn => ?_⟩
  · exact (h.types p.name).mpr (List.mem_map_of_mem hp)
  · refine (forall_zip_filterMap (P := fun _ n => n.GroundIn S) fun m hm => ?_).mp settled.nats m
      ((h.nats m).mp (Option.isSome_of_eq_some hn)) n hn
    exact (h.nats m).mpr hm

theorem checkArity_keeps (location : Location) (callee : String) (expected given : Nat) :
    F.Keeps H .any (checkArity location callee expected given) := by
  unfold checkArity
  split
  · exact .pure Aspect.holds_any
  · exact .reject

theorem expectResult_keeps {result : Ty} (he : F.types.opt.Holds H expected)
    (hr : F.types.Holds H result) (location : Location) (callee : String) :
    F.Keeps H .any (expectResult location callee expected result) := by
  unfold expectResult
  split
  · exact unifyAt_keeps (Aspect.holds_opt_some.mp he) hr
  · exact .pure Aspect.holds_any

/-- **A call that is opened with a signature** has types with the property, in the end if its
    generic arguments are within the bounds. -/
theorem openSignature_keeps {s : Signature} (hs : T.find? s.name = some s)
    (he : F.types.opt.Holds H expected) (location : Location) {kind : Typed.CallKind}
    (hk : kind ≠ .localValue) (count : Nat) :
    F.KeepsIf H (OpenCall.Settled F) (openCalls F)
      (openSignature location s kind count expected) := by
  refine (checkArity_keeps location s.name _ count).bind fun lift _ _ => ?_
  refine (freshArgs_keeps s.generics).bind fun lift' I fresh => ?_
  obtain ⟨all, types, nats⟩ := fresh.now
  have known : ∀ {m u}, I.types.get? m = some u → U.type u ∧ F.type u := fun {m u} hu => by
    obtain ⟨k, rfl⟩ := types hu
    exact ⟨U.undet, F.undet⟩
  have knownNats : ∀ {m n}, I.nats.get? m = some n → U.nat n := fun {m n} hn => by
    obtain ⟨k, rfl⟩ := nats hn
    exact U.natUndet
  obtain ⟨params, result⟩ := U.signature hs all (fun hu => (known hu).1) knownNats
  have later := fun args : (∀ p ∈ s.generics.types, ∀ u, I.types.get? p.name = some u →
      F.within p (u.subst S)) ∧ ∀ {m n}, I.nats.get? m = some n → n.GroundIn S =>
    F.signature hs all known args.1 args.2
  refine Prospect.KeepsIf.bindIf (.assuming (expectResult_keeps
    (he.mono fun h => lift (lift' h.1)) ⟨result, fun h => (later h.2).2⟩ location s.name))
    (fun _ _ _ _ h _ settled => ?_) fun _ _ within _ => .pure ⟨?_, fun h => ?_⟩
  · obtain ⟨rfl, -⟩ := pure_eq_ok.mp h
    exact args_of_settled all settled
  · exact ⟨result, List.forall_mem_map.mpr params, nofun, fun hu => (known hu).1, knownNats,
      fun h => absurd h hk, fun _ => ⟨s, hs, rfl⟩⟩
  · obtain ⟨params, result⟩ := later (within h)
    exact ⟨result, List.forall_mem_map.mpr params, nofun, fun hu => (known hu).2, (within h).2⟩

theorem openLocalCall_keeps {type : Ty} (ht : F.types.Holds H type)
    (he : F.types.opt.Holds H expected) (location : Location) (callee : String) (count : Nat) :
    F.Keeps H (openCalls F) (openLocalCall location callee type count expected) := by
  refine (resolve_keeps ht).bind fun lift t ht => ?_
  split
  · rename_i params result generics
    have hresult := holds_component ht (List.mem_append_right _ (List.mem_singleton_self _))
    have hparams : ∀ p ∈ params, F.types.Holds _ p.type := fun p hp =>
      holds_component ht (List.mem_append_left _ (List.mem_map_of_mem hp))
    refine (checkArity_keeps location callee _ count).bind fun lift₁ _ _ => ?_
    refine (expectResult_keeps (he.mono fun h => lift (lift₁ h)) (hresult.mono lift₁) location
      callee).bind fun lift₂ _ _ => .pure ⟨?_, fun h => ?_⟩
    · exact ⟨hresult.now, fun p hp => (hparams p hp).now, nofun, nofun, nofun, fun _ => rfl,
        fun h => absurd rfl h⟩
    · have h := lift₁ (lift₂ h)
      exact ⟨hresult.later h, fun p hp => (hparams p hp).later h, nofun, nofun, nofun⟩
  · exact .reject

theorem lookup_keeps (U : Upkeep T g) {F : Prospect U S} (location : Location) (name : String) :
    F.Keeps H ⟨fun s => T.find? s.name = some s, fun _ => True⟩ (T.lookup name location) := by
  unfold SignatureTable.lookup
  split
  · rename_i s hs
    rw [← U.keyed hs] at hs
    exact .pure ⟨hs, fun _ => trivial⟩
  · exact .reject

theorem closeCall_settled (h : closeCall location call args s = .ok e s') (ends : F.Ends s') :
    OpenCall.Settled F call := by
  obtain ⟨-, rfl⟩ := closeCall_eq_ok h
  have pending := (List.forall_mem_append.mp ends.calls).2
  unfold OpenCall.pending at pending
  split at pending
  · rename_i plain
    obtain ⟨types, nats⟩ : call.generics.types = [] ∧ call.generics.nats = [] := by
      simpa [Generics.isEmpty] using plain
    exact ⟨by simp [types], by simp [nats]⟩
  · obtain ⟨types, nats⟩ := pending _ (List.mem_singleton_self _)
    exact ⟨types, nats⟩

/-- **All parts of a call have the property**, and its generic arguments are within the bounds of
    the parameters. -/
theorem closeCall_keeps (hcall : (openCalls F).Holds H call) (hargs : F.exprs.each.Holds H args)
    (location : Location) : F.Keeps H F.exprs (closeCall location call args) := by
  intro s e s' hs h
  obtain ⟨rfl, hs'⟩ := closeCall_eq_ok h
  have typeArgs : ∀ u ∈ call.target.typeArgs, ∃ m, call.inst.types.get? m = some u := fun u hu =>
    (List.mem_filterMap.mp hu).imp fun _ h => h.2
  have natArgs : ∀ n ∈ call.target.natArgs, ∃ m, call.inst.nats.get? m = some n := fun n hn =>
    (List.mem_filterMap.mp hn).imp fun _ h => h.2
  refine ⟨?_, ?_, ?_, fun ends hH _ fine => ⟨?_, ?_⟩⟩
  · rw [hs']
    refine ⟨hs.solved, hs.images, hs.env, hs.jumps, List.forall_mem_append.mpr ⟨hs.calls, ?_⟩,
      hs.memo⟩
    unfold OpenCall.pending
    split
    · exact nofun
    · refine List.forall_mem_singleton.mpr fun u hu => ?_
      obtain ⟨m, hm⟩ := typeArgs u hu
      exact hcall.now.types hm
  · rw [hs']
    exact ⟨hs.solved.refines, List.subset_append_left ..⟩
  · refine forall_parts_call.mpr ?_
    refine ⟨⟨fun u hu => ?_, fun n hn => ?_⟩, hcall.now.result,
      List.forall_mem_append.mpr ⟨?_, hargs.now⟩, fun hk => ?_⟩
    · obtain ⟨m, hm⟩ := typeArgs u hu
      exact hcall.now.types hm
    · obtain ⟨m, hm⟩ := natArgs n hn
      exact hcall.now.nats hm
    · exact List.forall_mem_map.mpr hcall.now.receivers
    · simp [OpenCall.target, hcall.now.localValue hk, Generics.typeNames]
  · rw [hs']
    exact ⟨fine.images, fine.env, fine.jumps⟩
  · refine forall_parts_call.mpr ?_
    refine ⟨⟨fun u hu => ?_, fun n hn => ?_⟩, (hcall.later hH).result,
      List.forall_mem_append.mpr ⟨List.forall_mem_map.mpr (hcall.later hH).receivers,
        hargs.later hH⟩, fun sig hsig hk => ?_⟩
    · obtain ⟨m, hm⟩ := typeArgs u hu
      exact (hcall.later hH).types hm
    · obtain ⟨m, hm⟩ := natArgs n hn
      exact (hcall.later hH).nats hm
    · obtain ⟨sig', hsig', generics⟩ := hcall.now.signature hk
      cases hsig.symm.trans hsig'
      rw [← generics]
      exact (closeCall_settled h ends).types

/-! ## Projections -/

theorem fieldOf_keeps {object : Expr} (ho : F.exprs.Holds H object) (location : Location)
    (label : String) :
    F.Keeps H ⟨fun r => U.type r.2, fun r => F.type r.2⟩ (fieldOf location object label) := by
  refine (resolve_keeps (holds_type ho)).bind fun _ t ht => ?_
  split
  · split
    · exact .reject
    · refine Prospect.KeepsIf.ofDefect.bind fun lift fields hfields => ?_
      split
      · rename_i f hf
        have mem := List.mem_of_getElem? hf
        exact .pure ⟨U.fields ht.now hfields.now f mem, fun h =>
          F.fields ht.now (ht.later (lift h)) hfields.now f mem⟩
      · exact .reject
  · exact .reject

theorem elementOf_keeps {indexed : Expr} (hi : F.exprs.Holds H indexed) (location : Location) :
    F.Keeps H F.types (elementOf location indexed) := by
  refine (resolve_keeps (holds_type hi)).bind fun _ t ht => ?_
  split
  · exact .pure (holds_component ht (List.mem_singleton_self _))
  · exact .reject

theorem checkIndex_keeps {index : Expr} (hi : F.exprs.Holds H index) (location : Location) :
    F.Keeps H .any (checkIndex location index) := by
  refine (resolve_keeps (holds_type hi)).bind fun lift t _ => ?_
  split
  · exact .pure Aspect.holds_any
  · split
    · exact expect_keeps (hi.mono lift) (holds_builtin rfl) location _
    · exact .reject

/-! ## Expected types -/

theorem literalType_keeps (he : F.types.opt.Holds H expected) (value : Int64) :
    F.Keeps H F.types (literalType expected value) := by
  unfold literalType
  split
  · exact .pure (holds_builtin rfl)
  · refine (resolve_keeps (Aspect.holds_opt_some.mp he)).bind fun _ t _ => .pure ?_
    split
    · exact holds_builtin rfl
    · exact holds_builtin rfl

theorem tupleHints_keeps (he : F.types.opt.Holds H expected) (count : Nat) :
    F.Keeps H F.types.opt.each (tupleHints expected count) := by
  have unknown : ∀ {H'}, F.types.opt.each.Holds H' (List.replicate count none) := fun {H'} =>
    Aspect.holds_each.mpr fun hint hh => by
      rw [List.eq_of_mem_replicate hh]
      exact Aspect.holds_opt_none
  unfold tupleHints
  split
  · exact .pure unknown
  · refine (resolve_keeps (Aspect.holds_opt_some.mp he)).bind fun _ t ht => ?_
    split
    · refine .pure ?_
      split
      · refine Aspect.holds_each.mpr (List.forall_mem_map.mpr fun u hu => ?_)
        exact Aspect.holds_opt_some.mpr (holds_component ht hu)
      · exact unknown
    · exact .pure unknown

theorem arrayHint_keeps (he : F.types.opt.Holds H expected) :
    F.Keeps H F.types (arrayHint expected) := by
  unfold arrayHint
  split
  · exact freshType_keeps
  · refine (resolve_keeps (Aspect.holds_opt_some.mp he)).bind fun _ t ht => ?_
    split
    · exact .pure (holds_component ht (List.mem_singleton_self _))
    · exact freshType_keeps

theorem operatorMethod_keeps (location : Location) (op : String) (method? : Option String) :
    F.Keeps H .any (operatorMethod location op method?) := by
  unfold operatorMethod
  split
  · exact .pure Aspect.holds_any
  · exact .reject

theorem operandHint_keeps (he : F.types.opt.Holds H expected) (method : String) :
    F.types.opt.Holds H (operandHint method expected) := by
  unfold operandHint
  split
  · exact Aspect.holds_opt_none
  · exact he

end Check

/-! ## Expressions -/

section Expressions

variable {Γ : Scope} {U : Upkeep Γ.table Γ.generics} {S : Substitution} {F : Prospect U S}
  {H : Prop}

theorem holds_stated {location : Location} {t : Ty} (ht : U.declared t)
    (h : checkType Γ.table Γ.generics location t = .ok ()) : F.types.Holds H t :=
  ⟨U.stated ht h, fun _ => F.declared ht⟩

theorem lookupName_keeps (location : Location) (name : String) (context : Typed.UseKind) :
    F.Keeps H F.exprs (lookupName Γ location name context) := by
  refine (binding?_keeps name).bind fun _ t? ht => ?_
  split
  · have ht := Aspect.holds_opt_some.mp ht
    refine (placeUse_keeps ht context).bind fun lift _ _ => .pure ?_
    exact holds_exprs.mpr (List.forall_mem_singleton.mpr (holds_part_type.mpr (ht.mono lift)))
  · refine .guard fun _ => ?_
    split
    · rename_i hn
      exact .pure (holds_exprs.mpr (List.forall_mem_singleton.mpr ⟨hn, fun _ => trivial⟩))
    · split
      · rename_i s hs
        refine .guard fun hg => .pure ?_
        have hg : s.isGeneric = false := by simpa using hg
        refine holds_exprs.mpr (List.forall_mem_singleton.mpr (holds_part_type.mpr ?_))
        exact ⟨U.fnRef hs hg, fun _ => F.fnRef hs hg⟩
      · exact .reject

theorem openCall_keeps (he : F.types.opt.Holds H expected) (location : Location) (callee : String)
    (count : Nat) :
    F.KeepsIf H (OpenCall.Settled F) (openCalls F)
      (openCall Γ location callee count expected) := by
  refine (binding?_keeps callee).bind fun lift t? ht => ?_
  split
  · exact .weaken
      (openLocalCall_keeps (Aspect.holds_opt_some.mp ht) (he.mono lift) location callee count)
  · refine .guard fun _ => (lookup_keeps U location callee).bind fun lift' s hs => ?_
    refine openSignature_keeps hs.now (he.mono fun h => lift (lift' h)) location ?_ count
    split
    · exact nofun
    · exact nofun

theorem openMethodCall_keeps {receiver : Expr} (hr : F.exprs.Holds H receiver)
    (he : F.types.opt.Holds H expected) (location : Location) (method : String) (count : Nat) :
    F.KeepsIf H (OpenCall.Settled F) (openCalls F)
      (openMethodCall Γ location receiver method count expected) := by
  refine (resolve_keeps (holds_type hr)).bind fun lift t _ => ?_
  split
  · exact .guard fun _ => .reject
  · rename_i s hs
    have hs : Γ.table.find? s.name = some s := by
      unfold SignatureTable.findMethod? at hs
      split at hs
      · exact U.keyed hs ▸ hs
      · exact U.keyed hs ▸ hs
      · cases hs
    refine Prospect.KeepsIf.bindIf (openSignature_keeps hs (he.mono lift) location
      (by decide : Typed.CallKind.method ≠ .localValue) _)
      (fun call b r b' h _ settled => ?_) fun lift' call _ hcall => ?_
    · -- The receiver is added, and the generic arguments stay.
      cases hp : call.params with
      | nil =>
        simp only [hp] at h
        obtain ⟨rfl, -⟩ := pure_eq_ok.mp h
        exact settled
      | cons self params =>
        simp only [hp] at h
        obtain ⟨_, _, -, h⟩ := bind_eq_ok.mp h
        obtain ⟨_, _, -, h⟩ := bind_eq_ok.mp h
        obtain ⟨rfl, -⟩ := pure_eq_ok.mp h
        exact ⟨settled.types, settled.nats⟩
    · split
      · rename_i self params hparams
        obtain ⟨hself, hrest⟩ := List.forall_mem_cons.mp (hparams ▸ holds_params hcall)
        have hr := hr.mono fun h => lift (lift' h)
        refine (expect_keeps hr hself location s.name).bind fun lift₁ _ _ => ?_
        refine (setUse_keeps (hr.mono lift₁) _).bind fun lift₂ receiver' hr' => .pure ?_
        refine ⟨⟨hcall.now.result, fun p hp => (hrest p hp).now, ?_, hcall.now.types,
          hcall.now.nats, hcall.now.localValue, hcall.now.signature⟩, fun h => ?_⟩
        · exact List.forall_mem_singleton.mpr hr'.now
        · have promising := hcall.later (lift₁ (lift₂ h))
          exact ⟨promising.result, fun p hp => (hrest p hp).later (lift₁ (lift₂ h)),
            List.forall_mem_singleton.mpr (hr'.later h), promising.types, promising.nats⟩
      · exact .pure hcall

theorem checkOperator_keeps {left : Expr} (hl : F.exprs.Holds H left) (location : Location)
    (op method : String) : F.Keeps H .any (checkOperator Γ location op method left) := by
  refine (resolve_keeps (holds_type hl)).bind fun _ t _ => ?_
  split
  · exact .pure Aspect.holds_any
  · exact .reject

mutual

theorem checkExpr_keeps {H : Prop} {expected : Option Ty} (he : F.types.opt.Holds H expected)
    (context : Typed.UseKind) : ∀ e : Source.Expr, e.EachType U.declared →
      F.Keeps H F.exprs (checkExpr Γ expected context e)
  | .int location value, _ =>
    (literalType_keeps he value).bind fun _ t ht => .pure
      (holds_exprs.mpr (List.forall_mem_singleton.mpr (holds_part_type.mpr ht)))
  | .float location value, _ | .bool location value, _ => .pure (holds_exprs.mpr nofun)
  | .name location n, _ => lookupName_keeps location n context
  | .tuple location elems, h => by
    refine (tupleHints_keeps he elems.length).bind fun _ hints hhints => ?_
    refine (checkElems_keeps hints elems hhints h).bind fun _ typed ht => .pure ?_
    refine holds_exprs.mpr (List.forall_mem_cons.mpr
      ⟨holds_part_type.mpr (holds_tuple ?_), holds_exprs_each.mp ht⟩)
    exact Aspect.holds_each.mpr (List.forall_mem_map.mpr fun e he =>
      holds_type (Aspect.holds_each.mp ht e he))
  | .array location elems, h => by
    refine (arrayHint_keeps he).bind fun _ elem hel => ?_
    refine (checkMembers_keeps hel elems h).bind fun lift typed ht => ?_
    refine (resolve_keeps (hel.mono lift)).bind fun lift' t htype => .pure ?_
    refine holds_exprs.mpr (List.forall_mem_cons.mpr ⟨holds_part_type.mpr ?_,
      holds_exprs_each.mp (ht.mono lift')⟩)
    exact ⟨U.array htype.now U.const, fun h => F.array (htype.later h)⟩
  | .call location callee args, h => by
    refine Prospect.KeepsIf.bindIf (openCall_keeps he location callee args.length)
      (fun call b e b' hrun ends _ => ?_) fun _ call _ hcall => ?_
    · obtain ⟨_, _, -, hrun⟩ := bind_eq_ok.mp hrun
      exact closeCall_settled hrun ends
    · refine (checkArgs_keeps call.params args (holds_params hcall) h).bind fun lift typed ht => ?_
      exact closeCall_keeps (hcall.mono lift) ht location
  | .methodCall location receiver method args, h => by
    refine (checkExpr_keeps Aspect.holds_opt_none .borrow receiver h.1).bind
      fun lift receiver hr => ?_
    refine Prospect.KeepsIf.bindIf
      (openMethodCall_keeps hr (he.mono lift) location method args.length)
      (fun call b e b' hrun ends _ => ?_) fun _ call _ hcall => ?_
    · obtain ⟨_, _, -, hrun⟩ := bind_eq_ok.mp hrun
      exact closeCall_settled hrun ends
    · refine (checkArgs_keeps call.params args (holds_params hcall) h.2).bind
        fun lift typed ht => ?_
      exact closeCall_keeps (hcall.mono lift) ht location
  | .field location object label, h => by
    refine (checkExpr_keeps Aspect.holds_opt_none .borrow object h).bind fun _ object ho => ?_
    refine (fieldOf_keeps ho location label).bind fun lift ⟨index, t⟩ ht => ?_
    have ht : F.types.Holds _ t := ⟨ht.now, ht.later⟩
    refine (placeUse_keeps ht context).bind fun lift' use _ => .pure ?_
    exact holds_exprs.mpr (List.forall_mem_cons.mpr ⟨holds_part_type.mpr (ht.mono lift'),
      holds_exprs.mp (ho.mono fun h => lift (lift' h))⟩)
  | .subscript location indexed index, h => by
    refine (checkExpr_keeps Aspect.holds_opt_none .borrow indexed h.1).bind fun _ typed hi => ?_
    refine (elementOf_keeps hi location).bind fun lift elem hel => ?_
    refine (checkExpr_keeps Aspect.holds_opt_none .borrow index h.2).bind
      fun lift₁ position hp => ?_
    refine (checkIndex_keeps hp index.location).bind fun lift₂ _ _ => ?_
    refine (placeUse_keeps (hel.mono fun h => lift₁ (lift₂ h)) context).bind
      fun lift₃ use _ => .pure ?_
    refine holds_exprs.mpr (List.forall_mem_cons.mpr ⟨holds_part_type.mpr
      (hel.mono fun h => lift₁ (lift₂ (lift₃ h))), List.forall_mem_append.mpr ⟨?_, ?_⟩⟩)
    · exact holds_exprs.mp (hi.mono fun h => lift (lift₁ (lift₂ (lift₃ h))))
    · exact holds_exprs.mp (hp.mono fun h => lift₂ (lift₃ h))
  | .binary location op left right, h => by
    refine (operatorMethod_keeps location op _).bind fun lift method _ => ?_
    have hint := operandHint_keeps (he.mono lift) method
    refine (checkExpr_keeps hint .borrow left h.1).bind fun lift₁ left hl => ?_
    refine (checkOperator_keeps hl location op method).bind fun lift₂ _ _ => ?_
    refine Prospect.KeepsIf.bindIf (openMethodCall_keeps (hl.mono lift₂)
      (hint.mono fun h => lift₁ (lift₂ h)) location method 1)
      (fun call b e b' hrun ends _ => ?_) fun _ call _ hcall => ?_
    · cases hp : call.params with
      | nil =>
        simp only [hp] at hrun
        exact closeCall_settled hrun ends
      | cons p params =>
        simp only [hp] at hrun
        obtain ⟨_, _, -, hrun⟩ := bind_eq_ok.mp hrun
        obtain ⟨_, _, -, hrun⟩ := bind_eq_ok.mp hrun
        exact closeCall_settled hrun ends
    · split
      · rename_i p rest hparams
        obtain ⟨hp, -⟩ := List.forall_mem_cons.mp (hparams ▸ holds_params hcall)
        refine (checkExpr_keeps (Aspect.holds_opt_some.mpr hp) _ right h.2).bind
          fun lift₃ typed hr => ?_
        refine (expect_keeps hr (hp.mono lift₃) right.location _).bind fun lift₄ _ _ => ?_
        refine closeCall_keeps (hcall.mono fun h => lift₃ (lift₄ h)) ?_ location
        exact Aspect.holds_each_cons.mpr ⟨hr.mono lift₄, Aspect.holds_each_nil⟩
      · exact closeCall_keeps hcall Aspect.holds_each_nil location
  | .unary location op operand, h => by
    refine (operatorMethod_keeps location op _).bind fun lift method _ => ?_
    have hint := operandHint_keeps (he.mono lift) method
    refine (checkExpr_keeps (he.mono lift) .borrow operand h).bind fun lift₁ operand ho => ?_
    refine (checkOperator_keeps ho location op method).bind fun lift₂ _ _ => ?_
    refine Prospect.KeepsIf.bindIf (openMethodCall_keeps (ho.mono lift₂)
      (hint.mono fun h => lift₁ (lift₂ h)) location method 0)
      (fun call b e b' hrun ends _ => closeCall_settled hrun ends) fun _ call _ hcall => ?_
    exact closeCall_keeps hcall Aspect.holds_each_nil location
  | .annotated location expr t, h => by
    refine Prospect.KeepsIf.ofExcept.bind fun _ _ stated => ?_
    have ht : ∀ {H'}, F.types.Holds H' t := holds_stated h.2 stated.now
    refine (checkExpr_keeps (Aspect.holds_opt_some.mpr ht) context expr h.1).bind
      fun _ typed htyped => ?_
    exact (expect_keeps htyped ht location _).bind fun lift _ _ => .pure (htyped.mono lift)

theorem checkArgs_keeps {H : Prop} {callee : String} : ∀ (params : List ParamType)
    (args : List Source.Expr), (∀ p ∈ params, F.types.Holds H p.type) →
    Source.Expr.EachTypeAll U.declared args →
      F.Keeps H F.exprs.each (checkArgs Γ callee params args)
  | p :: ps, e :: es, hps, h => by
    obtain ⟨hp, hps⟩ := List.forall_mem_cons.mp hps
    refine (checkExpr_keeps (Aspect.holds_opt_some.mpr hp) _ e h.1).bind fun lift typed ht => ?_
    refine (expect_keeps ht (hp.mono lift) e.location callee).bind fun lift₁ _ _ => ?_
    refine (checkArgs_keeps ps es (fun p hp => (hps p hp).mono fun h => lift (lift₁ h)) h.2).bind
      fun lift₂ rest hrest => .pure ?_
    exact Aspect.holds_each_cons.mpr ⟨ht.mono fun h => lift₁ (lift₂ h), hrest⟩
  | [], [], _, _ | [], _ :: _, _, _ | _ :: _, [], _, _ => .pure Aspect.holds_each_nil

theorem checkElems_keeps {H : Prop} : ∀ (hints : List (Option Ty)) (elems : List Source.Expr),
    F.types.opt.each.Holds H hints → Source.Expr.EachTypeAll U.declared elems →
      F.Keeps H F.exprs.each (checkElems Γ hints elems)
  | hint :: hints, e :: es, hh, h => by
    obtain ⟨hhint, hhints⟩ := Aspect.holds_each_cons.mp hh
    refine (checkExpr_keeps hhint .consume e h.1).bind fun lift typed ht => ?_
    refine (checkElems_keeps hints es (hhints.mono lift) h.2).bind fun lift₁ rest hrest => .pure ?_
    exact Aspect.holds_each_cons.mpr ⟨ht.mono lift₁, hrest⟩
  | [], [], _, _ | [], _ :: _, _, _ | _ :: _, [], _, _ => .pure Aspect.holds_each_nil

theorem checkMembers_keeps {H : Prop} {elem : Ty} (hel : F.types.Holds H elem) :
    ∀ elems : List Source.Expr, Source.Expr.EachTypeAll U.declared elems →
      F.Keeps H F.exprs.each (checkMembers Γ elem elems)
  | [], _ => .pure Aspect.holds_each_nil
  | e :: es, h => by
    refine (checkExpr_keeps (Aspect.holds_opt_some.mpr hel) .consume e h.1).bind
      fun lift typed ht => ?_
    refine (expect_keeps ht (hel.mono lift) e.location _).bind fun lift₁ _ _ => ?_
    refine (checkMembers_keeps (hel.mono fun h => lift (lift₁ h)) es h.2).bind
      fun lift₂ rest hrest => .pure ?_
    exact Aspect.holds_each_cons.mpr ⟨ht.mono fun h => lift₁ (lift₂ h), hrest⟩

end

end Expressions

end QuantumStatics.Elaboration
