/-
  Arguments that are replaced in turn.

  The header of a definition is instantiated with the arguments of a call, and these with the
  arguments of the definition that the call stands in.
-/
import QuantumStatics.Proofs.Ty.Subterms

namespace QuantumStatics

namespace Instantiation

variable {n : String} {g : Generics} {types : List Ty} {nats : List NatTerm}

theorem mem_of_lookup {α : Type} {a : α} {es : List (String × α)} (h : es.lookup n = some a) :
    (n, a) ∈ es := by
  obtain ⟨before, after, rfl, -⟩ := List.lookup_eq_some_iff.mp h
  simp

theorem mem_of_types_pair {u : Ty} (h : (pair g types nats).types.get? n = some u) : u ∈ types := by
  rw [pair, Dict.get?_ofListFirst] at h
  exact (List.of_mem_zip (mem_of_lookup h)).2

theorem mem_of_nats_pair {m : NatTerm} (h : (pair g types nats).nats.get? n = some m) :
    m ∈ nats := by
  rw [pair, Dict.get?_ofListFirst] at h
  exact (List.of_mem_zip (mem_of_lookup h)).2

theorem ofArgs_eq_ok {ts : List Ty} {ns : List NatTerm} {I : Instantiation}
    (h : ofArgs g ts ns = .ok I) :
    ts.length = g.types.length ∧ ns.length = g.nats.length ∧ I = .pair g ts ns := by
  unfold ofArgs at h
  split at h
  · next lengths =>
    cases h
    exact ⟨lengths.1, lengths.2, rfl⟩
  · cases h

/-- The arguments of one instantiation, instantiated by another. -/
structure Composes (J I K : Instantiation) : Prop where
  types (n : String) : K.types.get? n = (J.types.get? n).map (Ty.inst I)
  nats (n : String) : K.nats.get? n = (J.nats.get? n).map (NatTerm.inst I)

theorem composes_pair (g : Generics) (types : List Ty) (nats : List NatTerm) (I : Instantiation) :
    (pair g types nats).Composes I
      (pair g (types.map (Ty.inst I)) (nats.map (NatTerm.inst I))) where
  types n := by rw [pair, pair, Dict.get?_ofListFirst, Dict.get?_ofListFirst, lookup_zip_map]
  nats n := by rw [pair, pair, Dict.get?_ofListFirst, Dict.get?_ofListFirst, lookup_zip_map]

/-- Arguments are equal, parameter by parameter. -/
structure Equal (I J : Instantiation) : Prop where
  types (n : String) : (I.types.get? n).map Ty.skeleton = (J.types.get? n).map Ty.skeleton
  nats (n : String) : I.nats.get? n = J.nats.get? n

theorem Equal.without {I J : Instantiation} (h : I.Equal J) (g : Generics) :
    (I.without g).Equal (J.without g) where
  types n := by
    rw [types_without, types_without]
    split
    · rfl
    · exact h.types n
  nats n := by
    rw [nats_without, nats_without]
    split
    · rfl
    · exact h.nats n

theorem equal_pair (g : Generics) {types types' : List Ty} (nats : List NatTerm)
    (h : types.map Ty.skeleton = types'.map Ty.skeleton) :
    (pair g types nats).Equal (pair g types' nats) where
  types n := by
    simp only [pair, Dict.get?_ofListFirst]
    rw [← lookup_zip_map, ← lookup_zip_map, h]
  nats n := rfl

end Instantiation

open Instantiation

namespace NatTerm

@[simp] theorem inst_var (I : Instantiation) (name : String) :
    (var name).inst I = (I.nats.get? name).getD (.var name) := inst_eq I (.var name)

theorem inst_congr {I J : Instantiation} (h : I.Equal J) (n : NatTerm) : n.inst I = n.inst J := by
  cases n with
  | const | undet => rfl
  | var name => rw [inst_var, inst_var, h.nats name]

end NatTerm

namespace Ty

theorem skeleton_inst_congr {I J : Instantiation} (h : I.Equal J) (t : Ty) :
    (t.inst I).skeleton = (t.inst J).skeleton := by
  induction t generalizing I J with
  | prim | undet => simp
  | var p =>
    have args := h.types p.name
    rw [inst_var, inst_var]
    cases hi : I.types.get? p.name <;> cases hj : J.types.get? p.name <;>
      simp only [hi, hj, Option.map_none, Option.map_some, reduceCtorEq, Option.some.injEq] at args
    · rfl
    · exact args
  | tuple elems ih => simpa [skeleton] using fun t ht => ih t ht h
  | array elem length ih =>
    rw [inst_array, inst_array, skeleton, skeleton, ih h, NatTerm.inst_congr h]
  | struct decl typeArgs natArgs ih =>
    simpa [skeleton, NatTerm.inst_congr h] using fun t ht => ih t ht h
  | fn params result generics ihp ihr =>
    simp only [inst_fn, skeleton, skeletonParams_eq_map, List.map_map, fn.injEq, and_true,
      ihr (h.without generics)]
    refine List.map_congr_left fun p hp => ?_
    simp [skeletonParam, ParamType.inst, ihp p hp (h.without generics)]
  | option inner ih => rw [inst_option, inst_option, skeleton, skeleton, ih h]

end Ty

end QuantumStatics
