/-
  Recursions that end.

  A recursive definition that nothing bounds is given by its step `F`: the answer to a call, given
  how the calls that it makes are answered.  `Ends F call answer` says that the call ends with that
  answer: it takes the answers to some calls only, and each of these ends.  A derivation is a tree
  of calls without an infinite branch.
-/
import Mathlib.Logic.Function.Basic

namespace QuantumStatics.Recursion

variable {α : Type} {β : α → Type}

/-- Answered by `go`, the call `a` only takes the answers to the calls in `asked`. -/
def Asks (F : ((a : α) → β a) → (a : α) → β a) (go : (a : α) → β a) (asked : α → Prop) (a : α) :
    Prop :=
  ∀ go' : (a : α) → β a, (∀ x, asked x → go' x = go x) → F go' a = F go a

/-- **A call of a recursion ends with an answer.** -/
inductive Ends (F : ((a : α) → β a) → (a : α) → β a) : (a : α) → β a → Prop
  | step {go : (a : α) → β a} {asked : α → Prop} {a : α} (asks : Asks F go asked a)
      (ends : ∀ x, asked x → Ends F x (go x)) : Ends F a (F go a)

variable {F : ((a : α) → β a) → (a : α) → β a} {a : α} {b b' : β a}

theorem Ends.unique (h : Ends F a b) (h' : Ends F a b') : b = b' := by
  induction h with
  | @step go asked call asks ends ih =>
    obtain @⟨go', asked', _, asks', ends'⟩ := h'
    classical
    -- Answering what the first derivation asks as it does, and all else as the second does.
    let both : (a : α) → β a := fun x => if asked x then go x else go' x
    have left : F both call = F go call := asks both fun x hx => if_pos hx
    have right : F both call = F go' call := by
      refine asks' both fun x hx => ?_
      by_cases h : asked x
      · exact (if_pos h).trans (ih x h (ends' x hx))
      · exact if_neg h
    rw [← left, right]

theorem Ends.iff_eq (h : Ends F a b) : Ends F a b' ↔ b' = b :=
  ⟨fun h' => h'.unique h, fun heq => heq ▸ h⟩

/-- **A recursion whose calls only ask for lower ones**, in a well-founded order: a call ends with
    what a function that follows the recursion gives. -/
theorem ends_of_wellFounded {lower : α → α → Prop} (wf : WellFounded lower) {f : (a : α) → β a}
    (follows : ∀ a, f a = F f a) (asks : ∀ a, Asks F f (lower · a) a) (a : α) :
    Ends F a (f a) := by
  induction a using wf.induction with
  | _ a ih =>
    have ends := Ends.step (asks a) ih
    rwa [← follows] at ends

/-- **A recursion with a bound on its depth**: where the bound does not run out, the call ends with
    the answer that it gives. -/
theorem ends_of_bounded (run : Nat → (a : α) → β a) {InTime : (a : α) → β a → Prop}
    (zero : ∀ a, ¬ InTime a (run 0 a)) (succ : ∀ n a, run (n + 1) a = F (run n) a)
    (asks : ∀ n a, InTime a (run (n + 1) a) → Asks F (run n) (fun x => InTime x (run n x)) a)
    {n : Nat} (h : InTime a (run n a)) : Ends F a (run n a) := by
  induction n generalizing a with
  | zero => exact absurd h (zero a)
  | succ n ih =>
    rw [succ]
    exact .step (asks n a h) fun x hx => ih hx

end QuantumStatics.Recursion
