/-
  Unification finds most general unifiers.

  A substitution `θ` respects another one if it does not tell apart what that one binds and what
  it binds it to.  What the unifier finds is forced: if `θ` makes the two types equal and respects
  the substitution that the unifier starts from, it respects every binding that the unifier adds,
  and the unifier does not fail.

  * `unify_mostGeneral`: success makes the types equal, and there is success whenever anything
    makes them equal, with a substitution that all of these respect.
-/
import QuantumStatics.Proofs.Unification.Depth

namespace QuantumStatics

namespace Substitution

/-- What is bound and what it is bound to become the same under `θ`. -/
structure Respects (θ S : Substitution) : Prop where
  type {k : Stamp} {t : Ty} : S.types.get? k = some t → θ.equates (.undet k) t
  nat {k : Stamp} {n : NatTerm} :
    S.nats.get? k = some n → θ.applyNat (.undet k) = θ.applyNat n

variable {θ S S' σ : Substitution}

namespace Respects

theorem subst_nat (h : θ.Respects S) (n : NatTerm) : (n.subst S).subst θ = n.subst θ := by
  cases n with
  | const | var => rfl
  | undet k =>
    rw [NatTerm.subst_undet]
    cases hk : S.nats.get? k with
    | none => rfl
    | some n => exact (h.nat hk).symm

theorem subst (h : θ.Respects S) (t : Ty) :
    ((t.subst S).subst θ).skeleton = (t.subst θ).skeleton := by
  induction t with
  | prim | var => simp
  | undet k =>
    rw [Ty.subst_undet S]
    cases hk : S.types.get? k with
    | none => rfl
    | some t => exact (equates_iff.mp (h.type hk)).symm
  | tuple elems ih => simpa [Ty.skeleton] using ih
  | array elem length ih => simpa [Ty.skeleton, h.subst_nat] using ih
  | struct decl typeArgs natArgs ih => simpa [Ty.skeleton, h.subst_nat] using ih
  | fn params result generics ihp ihr =>
    simpa [Ty.skeleton, Ty.skeletonParam, ParamType.subst, ihr] using ihp
  | option inner ih => simpa [Ty.skeleton] using ih

theorem equates_subst (h : θ.Respects S) {l r : Ty} (he : θ.equates l r) :
    θ.equates (l.subst S) (r.subst S) := by
  rw [equates_iff] at he ⊢
  rw [h.subst, h.subst, he]

theorem comp (h : θ.Respects S) (hσ : θ.Respects σ) (hthen : S.Then σ S') : θ.Respects S' where
  type {k t} hk := by
    rw [hthen.types] at hk
    cases hs : S.types.get? k with
    | none => exact hσ.type (by simpa [hs] using hk)
    | some u =>
      obtain rfl : u.subst σ = t := by simpa [hs] using hk
      rw [equates_iff, hσ.subst]
      exact equates_iff.mp (h.type hs)
  nat {k n} hk := by
    rw [hthen.nats] at hk
    cases hs : S.nats.get? k with
    | none => exact hσ.nat (by simpa [hs] using hk)
    | some m =>
      obtain rfl : m.subst σ = n := by simpa [hs] using hk
      rw [applyNat_eq _ (m.subst σ), hσ.subst_nat]
      exact h.nat hs

theorem ofType {k : Stamp} {t : Ty} (h : θ.equates (.undet k) t) : θ.Respects (.ofType k t) where
  type {j u} hj := by
    obtain ⟨rfl, rfl⟩ : j = k ∧ t = u := by simpa using hj
    exact h
  nat hj := by simp at hj

theorem ofNat {k : Stamp} {n : NatTerm} (h : (NatTerm.undet k).subst θ = n.subst θ) :
    θ.Respects (.ofNat k n) where
  type hj := by simp at hj
  nat {j m} hj := by
    obtain ⟨rfl, rfl⟩ : j = k ∧ n = m := by simpa using hj
    exact h

end Respects

/-- The substitution is respected, and the pairs become the same: **what a common solution keeps
    along every run**. -/
def solution (θ : Substitution) : PairInvariant where
  types _ S l r := θ.Respects S ∧ θ.equates l r
  nats S n m := θ.Respects S ∧ n.subst θ = m.subst θ
  symm h := ⟨h.1, equates_iff.mpr (equates_iff.mp h.2).symm⟩
  natSymm h := ⟨h.1, h.2.symm⟩
  subst _ h := ⟨h.1, h.1.equates_subst h.2⟩
  natSubst _ h := ⟨h.1, by rw [h.1.subst_nat, h.1.subst_nat, h.2]⟩
  tuple h p hp := ⟨h.1, (equates_tuple.mp h.2).2 p hp⟩
  array h := ⟨⟨h.1, (equates_array.mp h.2).1⟩, h.1, (equates_array.mp h.2).2⟩
  struct h := ⟨fun p hp => ⟨h.1, (equates_struct.mp h.2).2.1.2 p hp⟩,
    fun p hp => ⟨h.1, (equates_struct.mp h.2).2.2.2 p hp⟩⟩
  fn h := ⟨fun p hp => ⟨h.1, ((equates_fn.mp h.2).1.2 p hp).1⟩, h.1, (equates_fn.mp h.2).2.1⟩
  option h := ⟨h.1, equates_option.mp h.2⟩
  bindType _ _ hthen hb :=
    have respects := hb.1.comp (.ofType hb.2) hthen
    ⟨fun h => ⟨respects, h.2⟩, fun h => ⟨respects, h.2⟩⟩
  bindNat _ _ hthen hb :=
    have respects := hb.1.comp (.ofNat hb.2) hthen
    ⟨fun h => ⟨respects, h.2⟩, fun h => ⟨respects, h.2⟩⟩

theorem not_refuted_solution : ¬ (solution θ).Refuted := by
  rintro (⟨-, -, l, r, ⟨-, he⟩, hne⟩ | ⟨-, n, m, ⟨-, he⟩, hne⟩)
  · exact hne θ he
  · exact hne θ he

end Substitution

open Substitution

/-- **Unification computes a most general unifier.**  If it succeeds, the types have become equal
    and the result is what they became.  It does succeed if some `θ` that respects the substitution
    so far makes the types equal, and `θ` then respects all that has been found. -/
theorem unify_mostGeneral {S : Substitution} (hS : S.Solved) (l r : Ty) :
    (∀ t S', unify l r S = .ok t S' → S'.equates l r ∧ t = S'.apply l) ∧
      ∀ θ : Substitution, θ.Respects S → θ.equates l r →
        ∃ t S', unify l r S = .ok t S' ∧ θ.Respects S' := by
  refine ⟨fun t S' h => ?_, fun θ respects he => ?_⟩
  · obtain ⟨-, he, rfl⟩ := unify_eq_ok hS h
    rw [equates, apply_eq, apply_eq]
    exact ⟨he, rfl⟩
  · have ends := (solution θ).unify_ends hS (l := l) (r := r) ⟨respects, he⟩
    cases h : unify l r S with
    | ok t S' => exact ⟨t, S', rfl, ((ends.ok h).types (d := 0) (l := l) (r := r) ⟨respects, he⟩).1⟩
    | error e S' =>
      obtain ⟨-, ⟨endless, -⟩ | ⟨-, refuted⟩⟩ := ends.error h
      · exact absurd endless (unify_ne_endless hS h)
      · exact absurd refuted not_refuted_solution

/-- An undetermined type is bound to a tuple of another one already, and is to become a tuple of
    an array of undetermined length; binding it to a tuple of arrays of length 3 is one way. -/
theorem unify_mostGeneral_array :
    let S : Substitution := .ofType 0 (.tuple [.undet 1])
    let l : Ty := .undet 0
    let r : Ty := .tuple [.array .int (.undet 2)]
    let θ : Substitution :=
      { types := .insert (.insert ∅ 0 (.tuple [.array .int (.const 3)])) 1 (.array .int (.const 3)),
        nats := .insert ∅ 2 (.const 3) }
    (S.Solved ∧ θ.Respects S ∧ θ.equates l r) ∧
      ∃ t S', unify l r S = .ok t S' ∧ S'.equates l r ∧ t = S'.apply l ∧ θ.Respects S' := by
  intro S l r θ
  have solved : S.Solved :=
    (Unifier.apart_ofType solved_empty (fun v _ => by cases v <;> simp [Binds]) (by decide)).later
  have respects : θ.Respects S := .ofType (by rfl)
  have equates : θ.equates l r := by rfl
  obtain ⟨sound, complete⟩ := unify_mostGeneral solved l r
  obtain ⟨t, S', h, respects'⟩ := complete θ respects equates
  obtain ⟨equal, result⟩ := sound t S' h
  exact ⟨⟨solved, respects, equates⟩, t, S', h, equal, result, respects'⟩

end QuantumStatics
