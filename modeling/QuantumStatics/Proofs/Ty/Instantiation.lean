/-
  Instantiating types, and what inference finds out later.

  The checker opens a generic signature with arguments that are still to be inferred, and reads
  the fields of a struct whose arguments are not known yet.  What becomes of the types it gets in
  this way when the arguments are found out is what the arguments that were found out give.
-/
import QuantumStatics.Proofs.Unification.Solved
import QuantumStatics.Ty.Weight

namespace QuantumStatics

theorem NatTerm.inst_eq (I : Instantiation) (n : NatTerm) :
    n.inst I = match n with
      | .var name => (I.nats.get? name).getD n
      | .const _ | .undet _ => n := by
  cases n <;> rfl

namespace Instantiation

variable {I J : Instantiation} {S : Substitution}

theorem get?_foldl_erase {α : Type} (names : List String) (d : Dict String α) (n : String) :
    (names.foldl Dict.erase d).get? n = if n ∈ names then none else d.get? n := by
  induction names generalizing d with
  | nil => simp
  | cons m names ih =>
    rw [List.foldl_cons, ih, Dict.get?_erase]
    by_cases hn : n = m <;> simp [hn]

@[simp] theorem types_without (I : Instantiation) (g : Generics) (n : String) :
    (I.without g).types.get? n = if n ∈ g.typeNames then none else I.types.get? n :=
  get?_foldl_erase g.typeNames I.types n

@[simp] theorem nats_without (I : Instantiation) (g : Generics) (n : String) :
    (I.without g).nats.get? n = if n ∈ g.nats then none else I.nats.get? n :=
  get?_foldl_erase g.nats I.nats n

end Instantiation

namespace Instantiation

/-- `J` is `I` with what has been found out put in. -/
structure Follows (S : Substitution) (I J : Instantiation) : Prop where
  types (n : String) : J.types.get? n = (I.types.get? n).map (Ty.subst S)
  nats (n : String) : J.nats.get? n = (I.nats.get? n).map (NatTerm.subst S)

theorem Follows.without {S : Substitution} {I J : Instantiation} (h : Follows S I J)
    (g : Generics) : Follows S (I.without g) (J.without g) where
  types n := by
    rw [types_without, types_without, h.types]
    split <;> rfl
  nats n := by
    rw [nats_without, nats_without, h.nats]
    split <;> rfl

end Instantiation

open Instantiation

theorem NatTerm.subst_inst {S : Substitution} {I J : Instantiation} (h : Follows S I J)
    {n : NatTerm} (hn : ∀ v ∈ n.vars, ¬ v.isUndetermined) : (n.inst I).subst S = n.inst J := by
  cases n with
  | const => rfl
  | undet stamp => exact absurd rfl (hn _ (List.mem_singleton_self _))
  | var name =>
    simp only [inst_eq, h.nats]
    cases I.nats.get? name <;> rfl

theorem NatTerm.inst_eq_self {I : Instantiation} (hn : ∀ n, I.nats.get? n = none) (n : NatTerm) :
    n.inst I = n := by
  cases n <;> simp [inst_eq, hn]

namespace Ty

theorem inst_eq_self {I : Instantiation} (ht : ∀ n, I.types.get? n = Option.none)
    (hn : ∀ n, I.nats.get? n = Option.none) (t : Ty) : t.inst I = t := by
  induction t generalizing I with
  | prim | undet => simp
  | var p => simp [ht]
  | tuple elems ih =>
    rw [inst_tuple, List.map_congr_left fun t h => ih t h ht hn, List.map_id']
  | array elem length ih => rw [inst_array, ih ht hn, NatTerm.inst_eq_self hn]
  | struct decl typeArgs natArgs ih =>
    rw [inst_struct, List.map_congr_left fun t h => ih t h ht hn, List.map_id',
      List.map_congr_left fun n _ => NatTerm.inst_eq_self hn n, List.map_id']
  | fn params result generics ihp ihr =>
    have ht' : ∀ n, (I.without generics).types.get? n = Option.none := by simp [ht]
    have hn' : ∀ n, (I.without generics).nats.get? n = Option.none := by simp [hn]
    have param : ∀ p ∈ params, p.inst (I.without generics) = p := fun p hp => by
      rw [ParamType.inst, ihp p hp ht' hn']
      cases p; rfl
    rw [inst_fn, ihr ht' hn', List.map_congr_left param, List.map_id']
  | option inner ih => rw [inst_option, ih ht hn]

theorem inst_empty (t : Ty) : t.inst {} = t := inst_eq_self (fun _ => rfl) (fun _ => rfl) t

theorem skeleton_inst (I : Instantiation) (t : Ty) :
    (t.inst I).skeleton = (t.skeleton.inst I).skeleton := by
  induction t generalizing I with
  | prim | undet => simp [skeleton]
  | var p => cases hp : I.types.get? p.name <;> simp [skeleton, hp]
  | tuple elems ih => simpa [skeleton] using fun t ht => ih t ht I
  | array elem length ih => simpa [skeleton] using ih I
  | struct decl typeArgs natArgs ih => simpa [skeleton] using fun t ht => ih t ht I
  | fn params result generics ihp ihr =>
    simp only [inst_fn, skeleton, skeletonParams_eq_map, List.map_map, fn.injEq, ihr, and_true]
    exact List.map_congr_left fun p hp => by simp [skeletonParam, ParamType.inst, ihp p hp]
  | option inner ih => simpa [skeleton] using ih I

theorem equal_inst (I : Instantiation) {l r : Ty} (h : l.equal r) :
    (l.inst I).equal (r.inst I) := by
  rw [equal_iff] at h ⊢
  rw [skeleton_inst, h, ← skeleton_inst]

/-- **What becomes of an instantiated type is what the arguments that were found out give**, if
    the type itself leaves nothing to be inferred. -/
theorem subst_inst {S : Substitution} {I J : Instantiation} (h : Follows S I J) {t : Ty}
    (ht : ∀ v ∈ t.vars, ¬ v.isUndetermined) : (t.inst I).subst S = t.inst J := by
  induction t generalizing I J with
  | prim => simp
  | undet stamp => exact absurd rfl (ht _ (List.mem_singleton_self _))
  | var p =>
    rw [inst_var, inst_var, h.types]
    cases I.types.get? p.name <;> simp
  | tuple elems ih =>
    simp only [vars, varsAll_eq, List.mem_flatMap] at ht
    have parts : ∀ t ∈ elems, (subst S ∘ inst I) t = t.inst J := fun t hm =>
      ih t hm h fun v hv => ht v ⟨t, hm, hv⟩
    rw [inst_tuple, inst_tuple, subst_tuple, List.map_map, List.map_congr_left parts]
  | array elem length ih =>
    simp only [vars, List.mem_append] at ht
    rw [inst_array, inst_array, subst_array, ih h fun v hv => ht v (.inl hv),
      NatTerm.subst_inst h fun v hv => ht v (.inr hv)]
  | struct decl typeArgs natArgs ih =>
    simp only [vars, varsAll_eq, List.mem_append, List.mem_flatMap] at ht
    have types : ∀ t ∈ typeArgs, (subst S ∘ inst I) t = t.inst J := fun t hm =>
      ih t hm h fun v hv => ht v (.inl ⟨t, hm, hv⟩)
    have nats : ∀ n ∈ natArgs, (NatTerm.subst S ∘ NatTerm.inst I) n = n.inst J := fun n hm =>
      NatTerm.subst_inst h fun v hv => ht v (.inr ⟨n, hm, hv⟩)
    rw [inst_struct, inst_struct, subst_struct, List.map_map, List.map_map,
      List.map_congr_left types, List.map_congr_left nats]
  | fn params result generics ihp ihr =>
    have free : ∀ v ∈ varsParams params ++ result.vars, ¬ v.isUndetermined := by
      intro v hv hu
      refine ht v (List.mem_filter.mpr ⟨hv, ?_⟩) hu
      cases v <;> simp_all [Var.isUndetermined, Var.boundBy]
    simp only [varsParams_eq, List.mem_append, List.mem_flatMap] at free
    have param : ∀ p ∈ params, (ParamType.subst S ∘ ParamType.inst (I.without generics)) p =
        p.inst (J.without generics) := fun p hm => by
      rw [Function.comp_apply, ParamType.inst, ParamType.subst,
        ihp p hm (h.without generics) fun v hv => free v (.inl ⟨p, hm, hv⟩), ParamType.inst]
    rw [inst_fn, inst_fn, subst_fn, ihr (h.without generics) fun v hv => free v (.inr hv),
      List.map_map, List.map_congr_left param]
  | option inner ih => rw [inst_option, inst_option, subst_option, ih h ht]

end Ty

theorem Instantiation.apply_eq (I : Instantiation) (t : Ty) : I.apply t = t.inst I := by
  unfold apply
  split
  · rename_i h
    obtain ⟨ht, hn⟩ := Bool.and_eq_true_iff.mp h
    exact (Ty.inst_eq_self (Dict.get?_of_isEmpty ht) (Dict.get?_of_isEmpty hn) t).symm
  · rfl

/-! ## Arguments -/

section

variable {α : Type} {names : List String} {n : String}

theorem isSome_lookup_zip {xs : List α} (h : xs.length = names.length) :
    ((names.zip xs).lookup n).isSome ↔ n ∈ names := by
  induction names generalizing xs with
  | nil => simp
  | cons m names ih =>
    obtain ⟨x, xs, rfl⟩ := List.exists_cons_of_length_eq_add_one h
    rw [List.zip_cons_cons, lookup_entry, List.mem_cons, ← ih (by simpa using h)]
    by_cases hn : n = m <;> simp [hn]

theorem length_filterMap_eq {f : String → Option α} (h : ∀ m ∈ names, (f m).isSome) :
    (names.filterMap f).length = names.length := by
  induction names with
  | nil => rfl
  | cons m names ih =>
    obtain ⟨hm, h⟩ := List.forall_mem_cons.mp h
    obtain ⟨x, hx⟩ := Option.isSome_iff_exists.mp hm
    rw [List.filterMap_cons_some hx, List.length_cons, List.length_cons, ih h]

theorem lookup_zip_filterMap {f : String → Option α} (h : ∀ m, (f m).isSome ↔ m ∈ names)
    (n : String) : (names.zip (names.filterMap f)).lookup n = f n := by
  by_cases hn : n ∈ names
  · have some : ∀ m ∈ names, (f m).isSome := fun m => (h m).mpr
    clear h
    induction names with
    | nil => cases hn
    | cons m names ih =>
      obtain ⟨hm, rest⟩ := List.forall_mem_cons.mp some
      obtain ⟨x, hx⟩ := Option.isSome_iff_exists.mp hm
      rw [List.filterMap_cons_some hx, List.zip_cons_cons, lookup_entry]
      by_cases he : n = m
      · rw [if_pos he, he, hx]
      · rw [if_neg he, ih ((List.mem_cons.mp hn).resolve_left he) rest]
  · have outside : ((names.zip (names.filterMap f)).lookup n).isSome → False := fun hs =>
      hn ((isSome_lookup_zip (length_filterMap_eq fun m => (h m).mpr)).mp hs)
    rw [Option.not_isSome_iff_eq_none.mp outside, Option.not_isSome_iff_eq_none.mp (mt (h n).mp hn)]

end

namespace Instantiation

/-- Exactly the given parameters have arguments. -/
structure For (g : Generics) (I : Instantiation) : Prop where
  types (n : String) : (I.types.get? n).isSome ↔ n ∈ g.typeNames
  nats (n : String) : (I.nats.get? n).isSome ↔ n ∈ g.nats

theorem for_pair {g : Generics} {types : List Ty} {nats : List NatTerm}
    (ht : types.length = g.types.length) (hn : nats.length = g.nats.length) :
    (pair g types nats).For g where
  types n := by
    rw [pair, Dict.get?_ofListFirst, isSome_lookup_zip (by simpa [Generics.typeNames] using ht)]
  nats n := by rw [pair, Dict.get?_ofListFirst, isSome_lookup_zip hn]

theorem for_fresh (g : Generics) (next : Stamp) : (fresh g next).1.For g :=
  for_pair (by simp [fresh.stampsFrom]) (by simp [fresh.stampsFrom])

theorem follows_pair (S : Substitution) (g : Generics) (types : List Ty) (nats : List NatTerm) :
    Follows S (pair g types nats)
      (pair g (types.map (Ty.subst S)) (nats.map (NatTerm.subst S))) where
  types n := by rw [pair, pair, Dict.get?_ofListFirst, Dict.get?_ofListFirst, lookup_zip_map]
  nats n := by rw [pair, pair, Dict.get?_ofListFirst, Dict.get?_ofListFirst, lookup_zip_map]

/-- **The arguments that are read off an instantiation give it back**, with what has been found
    out about them put in. -/
theorem exists_ofArgs (S : Substitution) {g : Generics} {I : Instantiation} (h : I.For g) :
    ∃ J, ofArgs g ((g.typeNames.filterMap I.types.get?).map (Ty.subst S))
      ((g.nats.filterMap I.nats.get?).map (NatTerm.subst S)) = .ok J ∧ Follows S I J := by
  have types : (g.typeNames.filterMap I.types.get?).length = g.types.length := by
    rw [length_filterMap_eq fun n => (h.types n).mpr, Generics.typeNames, List.length_map]
  have nats : (g.nats.filterMap I.nats.get?).length = g.nats.length :=
    length_filterMap_eq fun n => (h.nats n).mpr
  refine ⟨_, if_pos ⟨by rw [List.length_map, types], by rw [List.length_map, nats]⟩, ?_, ?_⟩
  · intro n
    rw [pair, Dict.get?_ofListFirst, lookup_zip_map, lookup_zip_filterMap h.types]
  · intro n
    rw [pair, Dict.get?_ofListFirst, lookup_zip_map, lookup_zip_filterMap h.nats]

end Instantiation

/-! ## Fields -/

theorem StructDecl.instantiateFields_subst (S : Substitution) {d : StructDecl} {types : List Ty}
    {nats : List NatTerm} {fields : List Field}
    (hd : ∀ f ∈ d.fields, ∀ v ∈ f.type.vars, ¬ v.isUndetermined)
    (h : d.instantiateFields types nats = .ok fields) :
    d.instantiateFields (types.map (Ty.subst S)) (nats.map (NatTerm.subst S)) =
      .ok (fields.map fun f => ⟨f.name, f.type.subst S⟩) := by
  unfold instantiateFields at h ⊢
  split at h
  · rename_i hlen
    cases h
    rw [List.length_map, List.length_map, if_pos hlen, List.map_map]
    refine congrArg Except.ok (List.map_congr_left fun f hf => ?_)
    rw [Function.comp_apply, apply_eq, apply_eq,
      Ty.subst_inst (follows_pair S d.params types nats) (hd f hf)]
  · cases h

end QuantumStatics
