/-
  Computations that succeed.

  The analyses are computations with a state that may fail.  The lemmas here say, for each
  way to build a computation, what it means that the computation succeeds, with which
  result and in which state.  Where a failure matters as well, `bind_of_ok`, `bind_of_error` and
  their like run a computation, and where only the result does, `Returns P` says that it
  satisfies `P`.
-/
import QuantumStatics.Diagnostic.Basic

namespace QuantumStatics

section

variable {ε σ α β : Type} {s s' : σ}

theorem bind_of_ok {x : EStateM ε σ α} {f : α → EStateM ε σ β} {a : α} (h : x s = .ok a s') :
    (x >>= f) s = f a s' := by
  change EStateM.bind x f s = _
  rw [EStateM.bind, h]

theorem bind_of_error {x : EStateM ε σ α} {f : α → EStateM ε σ β} {e : ε}
    (h : x s = .error e s') : (x >>= f) s = .error e s' := by
  change EStateM.bind x f s = _
  rw [EStateM.bind, h]

theorem map_of_ok {x : EStateM ε σ α} {f : α → β} {a : α} (h : x s = .ok a s') :
    (f <$> x) s = .ok (f a) s' := by
  change EStateM.map f x s = _
  rw [EStateM.map, h]

theorem map_of_error {x : EStateM ε σ α} {f : α → β} {e : ε} (h : x s = .error e s') :
    (f <$> x) s = .error e s' := by
  change EStateM.map f x s = _
  rw [EStateM.map, h]

theorem bind_eq_ok {x : EStateM ε σ α} {f : α → EStateM ε σ β} {b : β} :
    (x >>= f) s = .ok b s' ↔ ∃ a s₁, x s = .ok a s₁ ∧ f a s₁ = .ok b s' := by
  change EStateM.bind x f s = _ ↔ _
  unfold EStateM.bind
  cases x s with
  | ok a s₁ => exact ⟨fun h => ⟨a, s₁, rfl, h⟩, by rintro ⟨_, _, ⟨⟩, h⟩; exact h⟩
  | error e s₁ => simp

@[simp] theorem pure_eq_ok {a b : α} :
    (pure a : EStateM ε σ α) s = .ok b s' ↔ a = b ∧ s = s' := by
  change EStateM.Result.ok a s = _ ↔ _
  simp

@[simp] theorem get_eq_ok {t : σ} : (get : EStateM ε σ σ) s = .ok t s' ↔ s = t ∧ s = s' := by
  change EStateM.Result.ok s s = _ ↔ _
  simp

@[simp] theorem set_eq_ok {t : σ} {u : PUnit} :
    (set t : EStateM ε σ PUnit) s = .ok u s' ↔ t = s' := by
  change EStateM.Result.ok PUnit.unit t = _ ↔ _
  simp

@[simp] theorem modify_eq_ok {f : σ → σ} {u : PUnit} :
    (modify f : EStateM ε σ PUnit) s = .ok u s' ↔ f s = s' := by
  change EStateM.Result.ok PUnit.unit (f s) = _ ↔ _
  simp

@[simp] theorem throw_ne_ok {e : ε} {b : α} : (throw e : EStateM ε σ α) s ≠ .ok b s' := nofun

@[simp] theorem reject_ne_ok {location : Location} {cause : Cause} {b : α} :
    (Analysis.reject location cause : Analysis σ α) s ≠ .ok b s' := nofun

@[simp] theorem defect_ne_ok {d : Defect} {b : α} :
    (Analysis.defect d : Analysis σ α) s ≠ .ok b s' := nofun

theorem ofExcept_ok (a : α) : (Analysis.ofExcept (.ok a) : Analysis σ α) = pure a := rfl

theorem ofDefect_ok (a : α) : (Analysis.ofDefect (.ok a) : Analysis σ α) = pure a := rfl

@[simp] theorem ofExcept_eq_ok {x : Except Failure α} {b : α} :
    (Analysis.ofExcept x : Analysis σ α) s = .ok b s' ↔ x = .ok b ∧ s = s' := by
  cases x with
  | ok a => simp [Analysis.ofExcept]
  | error f => simp [Analysis.ofExcept]

@[simp] theorem ofDefect_eq_ok {x : Except Defect α} {b : α} :
    (Analysis.ofDefect x : Analysis σ α) s = .ok b s' ↔ x = .ok b ∧ s = s' := by
  cases x with
  | ok a => simp [Analysis.ofDefect]
  | error d => simp [Analysis.ofDefect]

end

/-! ## Results -/

/-- Whenever a computation succeeds, its result satisfies `P`. -/
def Returns {σ α : Type} (P : α → Prop) (x : Analysis σ α) : Prop :=
  ∀ s a s', x s = .ok a s' → P a

namespace Returns

variable {σ α β : Type} {P : α → Prop} {Q : β → Prop} {location : Location}

theorem pure {a : α} (h : P a) : Returns P (pure a : Analysis σ α) := by
  rintro s _ _ ⟨⟩
  exact h

theorem any {x : Analysis σ α} : Returns (fun _ => True) x := fun _ _ _ _ => trivial

theorem reject {cause : Cause} : Returns P (Analysis.reject location cause : Analysis σ α) :=
  fun _ _ _ h => absurd h reject_ne_ok

theorem bind {x : Analysis σ α} {f : α → Analysis σ β} (hx : Returns P x)
    (hf : ∀ a, P a → Returns Q (f a)) : Returns Q (x >>= f) := by
  intro s b s' h
  obtain ⟨a, s₁, ha, hb⟩ := bind_eq_ok.mp h
  exact hf a (hx s a s₁ ha) s₁ b s' hb

theorem after {x : Analysis σ α} {f : α → Analysis σ β} (hf : ∀ a, Returns Q (f a)) :
    Returns Q (x >>= f) :=
  any.bind fun a _ => hf a

theorem guard {c : Prop} [Decidable c] {cause : Cause} {f : PUnit → Analysis σ β}
    (hf : Returns Q (f ⟨⟩)) :
    Returns Q (if c then Analysis.reject location cause >>= f else f ⟨⟩) := by
  split
  · exact after fun _ => hf
  · exact hf

end Returns

/-! ## Without state -/

section

variable {α β ε : Type}

theorem except_bind_eq_ok {x : Except ε α} {f : α → Except ε β} {b : β} :
    (x >>= f) = .ok b ↔ ∃ a, x = .ok a ∧ f a = .ok b := by
  cases x with
  | ok a => simp [bind, Except.bind]
  | error e => simp [bind, Except.bind]

theorem except_bind_eq_error {x : Except ε α} {f : α → Except ε β} {e : ε} :
    (x >>= f) = .error e ↔ x = .error e ∨ ∃ a, x = .ok a ∧ f a = .error e := by
  cases x with
  | ok a => simp [bind, Except.bind]
  | error e' => simp [bind, Except.bind]

@[simp] theorem except_pure_eq_ok {a b : α} : (pure a : Except ε α) = .ok b ↔ a = b := by
  change Except.ok a = _ ↔ _
  simp

@[simp] theorem failure_ne_ok {location : Location} {cause : Cause} {b : α} :
    Failure.reject location cause ≠ Except.ok b := nofun

theorem forM_eq_ok {f : α → Except ε Unit} {l : List α} :
    l.forM f = .ok () ↔ ∀ a ∈ l, f a = .ok () := by
  induction l with
  | nil => simp
  | cons a l ih =>
    change (f a >>= fun _ => l.forM f) = _ ↔ _
    rw [except_bind_eq_ok, List.forall_mem_cons, ih]
    exact ⟨fun ⟨_, ha, hl⟩ => ⟨ha, hl⟩, fun ⟨ha, hl⟩ => ⟨(), ha, hl⟩⟩

end

end QuantumStatics
