/-
  One call of the unifier after another.

  The substitution is kept from call to call, also the bindings that a call has found before it
  fails.  It stays in solved form all the same, and no call takes back what an earlier one has
  found out: a stamp that is bound stays bound, to its old image with the new substitution
  applied (`Substitution.Extends`).

  * `afterAll_solved_extends`: what any sequence of calls does, starting from nothing.
-/
import QuantumStatics.Proofs.Unification.Runs

namespace QuantumStatics

namespace Substitution

/-- What is bound stays bound, to its image with the later substitution applied. -/
structure Extends (S S' : Substitution) : Prop where
  type {k : Stamp} {t : Ty} : S.types.get? k = some t → S'.types.get? k = some (S'.apply t)
  nat {k : Stamp} {n : NatTerm} : S.nats.get? k = some n → S'.nats.get? k = some (S'.applyNat n)

variable {S S' S'' σ : Substitution}

namespace Extends

theorem refl (hS : S.Solved) : S.Extends S where
  type hk := by rw [apply_eq, Ty.subst_eq_self (hS.type hk), hk]
  nat hk := by rw [applyNat_eq, NatTerm.subst_eq_self (hS.nat hk), hk]

theorem bind (h : S.Extends S') (hthen : S'.Then σ S'') : S.Extends S'' where
  type {k t} hk := by
    rw [hthen.types, h.type hk, apply_eq, apply_eq, hthen.subst]
    rfl
  nat {k n} hk := by
    rw [hthen.nats, h.nat hk, applyNat_eq, applyNat_eq, hthen.subst_nat]
    rfl

end Extends

/-- **Nothing is taken back along a run.** -/
def extending (S : Substitution) : TypeInvariant where
  holds _ S' _ := S.Extends S'
  subst _ := id
  component h _ := h
  bindType _ _ hthen _ _ h := h.bind hthen
  bindNat _ _ hthen h := h.bind hthen

theorem Solved.apply_apply (hS : S.Solved) (t : Ty) : S.apply (S.apply t) = S.apply t := by
  rw [apply_eq, apply_eq, hS.refines.subst]

theorem Solved.applyNat_applyNat (hS : S.Solved) (n : NatTerm) :
    S.applyNat (S.applyNat n) = S.applyNat n :=
  hS.refines.subst_nat n

end Substitution

open Substitution

/-- Two types or two nats that are to be made the same. -/
inductive Equation where
  | types (l r : Ty)
  | nats (l r : NatTerm)

namespace Equation

/-- Solves an equation. -/
def solve : Equation → Unifier Unit
  | .types l r => do let _ ← unify l r
  | .nats l r => do let _ ← unifyNats l r

/-- The substitution that a call leaves behind, whether it succeeds or fails. -/
def after (S : Substitution) (q : Equation) : Substitution :=
  match q.solve S with
  | .ok _ S' => S'
  | .error _ S' => S'

/-- The substitution that a sequence of calls leaves behind. -/
def afterAll (qs : List Equation) : Substitution := qs.foldl after {}

theorem solve_ends {S : Substitution} (hS : S.Solved) (q : Equation) :
    S.extending.pairs.Ends q.solve S := by
  have start : S.Extends S := .refl hS
  cases q with
  | types l r =>
    have ends : S.extending.pairs.Ends (unify l r) S := PairInvariant.unify_ends hS ⟨start, start⟩
    exact ends.bind fun _ S' kept => .pure kept.solved ()
  | nats l r =>
    have ends : S.extending.pairs.Ends (unifyNats l r) S := PairInvariant.nats_ends hS trivial
    exact ends.bind fun _ S' kept => .pure kept.solved ()

/-- **A call leaves a substitution in solved form behind that extends the earlier one.** -/
theorem after_extends {S : Substitution} (hS : S.Solved) (q : Equation) :
    (q.after S).Solved ∧ S.Extends (q.after S) := by
  have ends := solve_ends hS q
  have kept : S.extending.pairs.Keeps S (q.after S) := by
    unfold after
    cases h : q.solve S with
    | ok _ S' => exact ends.ok h
    | error e S' => exact (ends.error h).1
  have start : S.extending.pairs.types 0 S .int .int := ⟨.refl hS, .refl hS⟩
  exact ⟨kept.solved, (kept.types start).1⟩

theorem solved_foldl_after {S : Substitution} (hS : S.Solved) (qs : List Equation) :
    (qs.foldl after S).Solved := by
  induction qs generalizing S with
  | nil => exact hS
  | cons q qs ih => exact ih (after_extends hS q).1

/-- **Calls of the unifier, one after the other.**  After any of them, failed ones included, the
    substitution is in solved form.  A further call only refines it: what is bound stays bound, to
    its old image with the new substitution applied.  And applying it again changes nothing. -/
theorem afterAll_solved_extends (qs : List Equation) (q : Equation) :
    (afterAll qs).Solved ∧ (afterAll qs).Extends (q.after (afterAll qs)) ∧
      (∀ t, (afterAll qs).apply ((afterAll qs).apply t) = (afterAll qs).apply t) ∧
      ∀ n, (afterAll qs).applyNat ((afterAll qs).applyNat n) = (afterAll qs).applyNat n := by
  have solved : (afterAll qs).Solved := solved_foldl_after solved_empty qs
  exact ⟨solved, (after_extends solved q).2, solved.apply_apply, solved.applyNat_applyNat⟩

end Equation

end QuantumStatics
