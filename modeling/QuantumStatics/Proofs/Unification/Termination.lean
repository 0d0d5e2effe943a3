/-
  Unification ends.

  `Unifier.step` is the recursion of unification without a bound on its depth.  Neither the size of
  the types nor their nesting decreases from a call to the calls it makes, since a substitution that
  earlier components have extended is applied first.

  * `unify_ends_for_every_pair`: from a substitution in solved form the recursion ends at every pair
    of types, and `unify` gives its answer.
-/
import QuantumStatics.Proofs.Recursion
import QuantumStatics.Proofs.Ty.Subterms
import QuantumStatics.Proofs.Unification.Depth

namespace QuantumStatics

open Substitution Recursion

namespace Unifier

/-! ## The recursion -/

/-- Two types that are to be made the same, and the substitution found so far. -/
structure Call where
  l : Ty
  r : Ty
  S : Substitution

/-- How a call ends: with bindings for both types, or with a failure and the bindings so far. -/
abbrev Outcome := EStateM.Result UnificationError Substitution Unit

/-- Makes two types the same, their components by `go`. -/
def step (go : Call → Outcome) (c : Call) : Outcome :=
  match shapes (fun l r S => go ⟨l, r, S⟩) (c.S.apply c.l) (c.S.apply c.r) c.S with
  | .ok () S' => .ok () S'
  | .error e S' => .error (e.within (c.S.apply c.l) (c.S.apply c.r)) S'

/-- Makes two types the same whose components nest to a given depth at most. -/
def within (depth : Nat) (c : Call) : Outcome := types depth c.l c.r c.S

theorem within_succ (depth : Nat) (c : Call) : within (depth + 1) c = step (within depth) c := rfl

/-! ## Computations that do not run out of depth -/

variable {α β : Type}

/-- It is not for want of depth that a computation fails. -/
def InTime (o : EStateM.Result UnificationError Substitution α) : Prop :=
  ∀ e S, o = .error e S → e.clash ≠ .endless

/-- Where the first computation does not run out of depth, the second one does the same. -/
def Follows (x x' : Unifier α) : Prop := ∀ S, InTime (x S) → x' S = x S

theorem Follows.refl (x : Unifier α) : Follows x x := fun _ _ => rfl

theorem Follows.bind {x x' : Unifier α} {f f' : α → Unifier β} (hx : Follows x x')
    (hf : ∀ a, Follows (f a) (f' a)) : Follows (x >>= f) (x' >>= f') := by
  intro S h
  cases hrun : x S with
  | ok a S₁ =>
    have same := hx S (by rw [hrun]; exact nofun)
    rw [bind_of_ok hrun] at h ⊢
    rw [bind_of_ok (same.trans hrun)]
    exact hf a S₁ h
  | error e S₁ =>
    rw [bind_of_error hrun] at h ⊢
    have same := hx S (by rw [hrun]; exact fun _ _ he => h _ _ (by cases he; rfl))
    rw [bind_of_error (same.trans hrun)]

theorem Follows.guard {p : Prop} [Decidable p] {c : Clash} {f f' : PUnit → Unifier α}
    (h : Follows (f ⟨⟩) (f' ⟨⟩)) :
    Follows (if p then f ⟨⟩ else clash c >>= f) (if p then f' ⟨⟩ else clash c >>= f') := by
  split
  · exact h
  · exact .refl _

section

variable {go go' : Ty → Ty → Unifier Unit} (h : ∀ l r, Follows (go l r) (go' l r))

include h

theorem pairs_follows (ls rs : List Ty) : Follows (pairs go ls rs) (pairs go' ls rs) := by
  induction ls generalizing rs with
  | nil => exact .refl _
  | cons l ls ih =>
    cases rs with
    | nil => exact .refl _
    | cons r rs => exact (h l r).bind fun _ => ih rs

theorem params_follows (position : Nat) (ls rs : List ParamType) :
    Follows (params go position ls rs) (params go' position ls rs) := by
  induction ls generalizing rs position with
  | nil => exact .refl _
  | cons l ls ih =>
    cases rs with
    | nil => exact .refl _
    | cons r rs => exact .guard ((h l.type r.type).bind fun _ => ih (position + 1) rs)

theorem shapes_follows (l r : Ty) : Follows (shapes go l r) (shapes go' l r) := by
  cases l with
  | tuple ls =>
    cases r with
    | tuple rs => exact .guard (pairs_follows h ls rs)
    | _ => exact .refl _
  | array l n =>
    cases r with
    | array r m => exact (h l r).bind fun _ => .refl _
    | _ => exact .refl _
  | struct ld ls ns =>
    cases r with
    | struct rd rs ms => exact .guard (.guard ((pairs_follows h ls rs).bind fun _ => .refl _))
    | _ => exact .refl _
  | fn ls l lg =>
    cases r with
    | fn rs r rg => exact .guard (.guard ((params_follows h 0 ls rs).bind fun _ => h l r))
    | _ => exact .refl _
  | option l =>
    cases r with
    | option r => exact h l r
    | _ => exact .refl _
  | _ => cases r <;> exact .refl _

end

theorem step_asks {go : Call → Outcome} {c : Call} (h : InTime (step go c)) :
    Asks step go (fun x => InTime (go x)) c := by
  intro go' same
  have shape : InTime (shapes (fun l r S => go ⟨l, r, S⟩) (c.S.apply c.l) (c.S.apply c.r) c.S) := by
    intro e S' he
    exact h (e.within (c.S.apply c.l) (c.S.apply c.r)) S' (by rw [step, he])
  have follow : Follows (shapes (fun l r S => go ⟨l, r, S⟩) _ _)
      (shapes (fun l r S => go' ⟨l, r, S⟩) (c.S.apply c.l) (c.S.apply c.r)) :=
    shapes_follows (fun l r S hgo => same ⟨l, r, S⟩ hgo) _ _
  rw [step, step, follow c.S shape]

/-! ## More depth changes nothing -/

theorem within_add {depth : Nat} {c : Call} (h : InTime (within depth c)) (more : Nat) :
    within (depth + more) c = within depth c := by
  induction depth generalizing c with
  | zero => exact absurd rfl (h _ c.S rfl)
  | succ depth ih =>
    rw [within_succ] at h
    rw [Nat.add_right_comm, within_succ, within_succ]
    exact step_asks h (within (depth + more)) fun x hx => ih hx

theorem ends_of_inTime {depth : Nat} {c : Call} (h : InTime (within depth c)) :
    Ends step c (within depth c) :=
  ends_of_bounded within (fun _ h => h _ _ rfl rfl) within_succ (fun _ _ h => step_asks h) h

end Unifier

open Unifier

/-- What unification makes of an outcome: on success it adds the type that both types became. -/
def Unifier.Outcome.returning (t : Ty) : Outcome → EStateM.Result UnificationError Substitution Ty
  | .ok () S' => .ok (S'.apply t) S'
  | .error e S' => .error e S'

theorem unify_eq_returning (l r : Ty) (S : Substitution) :
    unify l r S =
      (within (depthBound (S.apply l) (S.apply r)) ⟨l, r, S⟩).returning (S.apply l) := by
  let becomes : Unit → Unifier Ty := fun _ => do return (← get).apply (S.apply l)
  change (types (depthBound (S.apply l) (S.apply r)) l r >>= becomes) S = _
  rw [within]
  cases hrun : types (depthBound (S.apply l) (S.apply r)) l r S with
  | ok u S' => exact bind_of_ok hrun
  | error e S' => exact bind_of_error hrun

/-- **Unification does not run out of depth** from a substitution in solved form. -/
theorem within_inTime {S : Substitution} (hS : S.Solved) (l r : Ty) :
    InTime (within (depthBound (S.apply l) (S.apply r)) ⟨l, r, S⟩) := by
  intro e S' he
  have failed : unify l r S = .error e S' := by rw [unify_eq_returning, he]; rfl
  exact unify_ne_endless hS failed

/-- **Unification ends**, from every substitution in solved form and for every pair of types: the
    recursion, which nothing bounds, ends with one outcome, and not for want of depth; every depth
    beyond the bound leads to that outcome; and it is what `unify` gives. -/
theorem unify_ends_for_every_pair {S : Substitution} (hS : S.Solved) (l r : Ty) :
    ∃ outcome, (∀ o, Ends step ⟨l, r, S⟩ o ↔ o = outcome) ∧ InTime outcome ∧
      (∀ depth, depthBound (S.apply l) (S.apply r) ≤ depth → types depth l r S = outcome) ∧
      unify l r S = outcome.returning (S.apply l) := by
  have inTime := within_inTime hS l r
  have ends := ends_of_inTime inTime
  refine ⟨_, fun o => ends.iff_eq, inTime, fun depth h => ?_, unify_eq_returning l r S⟩
  obtain ⟨more, rfl⟩ := Nat.exists_eq_add_of_le h
  exact within_add inTime more

/-- The first parameters bind a stamp that the second ones mention through an earlier binding, so
    that the second pair is larger when it is reached than it was at the start. -/
theorem unify_ends_after_enlarging :
    let S : Substitution := .ofType 0 (.tuple [.undet 1, .undet 1])
    let l : Ty := .fn [⟨.undet 1, .owned⟩, ⟨.undet 0, .owned⟩] .int {}
    let r : Ty := .fn [⟨.option (.undet 2), .owned⟩, ⟨.undet 3, .owned⟩] .int {}
    S.Solved ∧ ∃ S', Ends step ⟨l, r, S⟩ (.ok () S') ∧
      unify l r S = .ok (S'.apply (S.apply l)) S' ∧
      S'.apply (.undet 3) = .tuple [.option (.undet 2), .option (.undet 2)] := by
  intro S l r
  have solved : S.Solved :=
    (Unifier.apart_ofType solved_empty (fun v _ => by cases v <;> simp [Binds]) (by decide)).later
  obtain ⟨outcome, only, -, -, result⟩ := unify_ends_for_every_pair solved l r
  have inTime : InTime (within 3 ⟨l, r, S⟩) := by
    intro e S' he
    cases he
  have outcome_eq : within 3 ⟨l, r, S⟩ = outcome := (only _).mp (ends_of_inTime inTime)
  subst outcome_eq
  exact ⟨solved, _, (only _).mpr rfl, result, by rfl⟩

end QuantumStatics
