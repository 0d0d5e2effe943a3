/-
  What executions leave in the bindings.

  A binding holds a cell: the type of the value it was last given, and whether that value
  is still there.  Giving a value away takes it out of the cell, unless its class says that
  it may be copied.  `Store.after κ h` are the cells after the actions `h`, for a
  classification `κ` of types.
-/
import Mathlib.Data.List.Induction
import QuantumStatics.Proofs.Execution.Control

namespace QuantumStatics.Execution

/-- The value of a binding: its type, and whether it is still there. -/
structure Cell where
  type : Ty
  live : Bool

/-- What the names hold. -/
abbrev Store := String → Option Cell

/-- What is left of a value that is given away. -/
def Cell.giveAway (κ : Ty → OwnershipClass) (c : Cell) : Cell :=
  if κ c.type = .copyable then c else { c with live := false }

namespace Store

/-- What an action does to what the names hold. -/
def step (κ : Ty → OwnershipClass) (σ : Store) : Action → Store
  | .use u => fun x => if x = u.name ∧ u.kind = .consume then (σ x).map (·.giveAway κ) else σ x
  | .bind n t => fun x => if x = n then some ⟨t, true⟩ else σ x
  | .leave | .again => σ

/-- What the names hold after a history. -/
def after (κ : Ty → OwnershipClass) (h : List Action) : Store := h.foldl (step κ) fun _ => none

variable {κ : Ty → OwnershipClass} {h p : List Action} {x : String} {c : Cell}

@[simp] theorem after_append_singleton (a : Action) :
    after κ (h ++ [a]) = (after κ h).step κ a := by
  simp [after]

theorem step_cases {σ : Store} {a : Action} (hc : σ.step κ a x = some c) :
    σ x = some c ∨ a = .bind x c.type ∧ c.live ∨
      ∃ u c', a = .use u ∧ u.name = x ∧ u.kind = .consume ∧ σ x = some c' ∧ c = c'.giveAway κ := by
  cases a with
  | leave | again => exact .inl hc
  | bind n t =>
    simp only [step] at hc
    split at hc
    · rename_i hx
      cases hc
      exact .inr (.inl ⟨by rw [hx], rfl⟩)
    · exact .inl hc
  | use u =>
    simp only [step] at hc
    split at hc
    · rename_i hx
      obtain ⟨c', hc', rfl⟩ := Option.map_eq_some_iff.mp hc
      exact .inr (.inr ⟨u, c', rfl, hx.1.symm, hx.2, hc', rfl⟩)
    · exact .inl hc

@[simp] theorem type_giveAway (κ : Ty → OwnershipClass) (c : Cell) :
    (c.giveAway κ).type = c.type := by
  unfold Cell.giveAway
  split <;> rfl

theorem live_of_live_giveAway (hc : (c.giveAway κ).live) : c.live := by
  unfold Cell.giveAway at hc
  split at hc
  · exact hc
  · cases hc

theorem isSome_step {σ : Store} (a : Action) (hx : (σ x).isSome) : (σ.step κ a x).isSome := by
  cases a with
  | leave | again => exact hx
  | bind n t =>
    simp only [step]
    split
    · rfl
    · exact hx
  | use u =>
    simp only [step]
    split
    · simpa using hx
    · exact hx

theorem ne_copyable_of_dead (hc : after κ h x = some c) (hd : ¬ c.live) : κ c.type ≠ .copyable := by
  induction h using List.reverseRecOn generalizing c with
  | nil => simp [after] at hc
  | append_singleton h a ih =>
    rw [after_append_singleton] at hc
    rcases step_cases hc with hc | ⟨-, hl⟩ | ⟨u, c', -, -, -, hc', rfl⟩
    · exact ih hc hd
    · exact absurd hl hd
    · rw [type_giveAway]
      intro hκ
      rw [Cell.giveAway, if_pos hκ] at hd
      exact ih hc' hd hκ

theorem type_after_uses (us : List Use) (hc : after κ h x = some c) :
    ∃ c', after κ (h ++ us.map .use) x = some c' ∧ c'.type = c.type := by
  induction us generalizing h c with
  | nil => exact ⟨c, by simpa using hc, rfl⟩
  | cons u us ih =>
    obtain ⟨c₁, hc₁, ht₁⟩ : ∃ c₁, after κ (h ++ [.use u]) x = some c₁ ∧ c₁.type = c.type := by
      simp only [after_append_singleton, step]
      split
      · exact ⟨c.giveAway κ, by rw [hc]; rfl, type_giveAway κ c⟩
      · exact ⟨c, hc, rfl⟩
    obtain ⟨c', hc', ht'⟩ := ih hc₁
    exact ⟨c', by simpa using hc', ht'.trans ht₁⟩

theorem after_bindings (ps : List Param) : after κ (h ++ bindings ps) x =
    ((lastParam ps x).map fun p => ⟨p.type, true⟩).or (after κ h x) := by
  induction ps generalizing h with
  | nil => simp [bindings, lastParam]
  | cons p ps ih =>
    have : h ++ bindings (p :: ps) = h ++ [.bind p.name p.type] ++ bindings ps := by
      simp [bindings]
    rw [this, ih, lastParam_cons, after_append_singleton]
    cases lastParam ps x with
    | some q => rfl
    | none =>
      simp only [step, eq_comm, Option.none_or, Option.map_none]
      split <;> rfl

end Store

/-! ## Values that went away before a loop went round -/

section Spent

variable {κ : Ty → OwnershipClass} {h p : List Action} {x : String}

/-- A name is bound, and its value is there. -/
def Live (κ : Ty → OwnershipClass) (h : List Action) (x : String) : Prop :=
  ∃ c, Store.after κ h x = some c ∧ c.live

/-- A name is bound, and its value has been given away. -/
def Dead (κ : Ty → OwnershipClass) (h : List Action) (x : String) : Prop :=
  ∃ c, Store.after κ h x = some c ∧ ¬ c.live

/-- The value of a name went away before a loop went round, and the name has not been bound
    since. -/
def Spent (κ : Ty → OwnershipClass) (h : List Action) (x : String) : Prop :=
  ∃ h₁ h₂, h = h₁ ++ .again :: h₂ ∧ Dead κ h₁ x ∧ ∀ t, .bind x t ∉ h₂

theorem Spent.append (hs : Spent κ h x) (hp : ∀ t, .bind x t ∉ p) : Spent κ (h ++ p) x := by
  obtain ⟨h₁, h₂, rfl, hd, hb⟩ := hs
  refine ⟨h₁, h₂ ++ p, by simp, hd, fun t => ?_⟩
  simp [hb t, hp t]

theorem Dead.append (hd : Dead κ h x) (hp : ∀ t, .bind x t ∉ p) : Dead κ (h ++ p) x := by
  induction p using List.reverseRecOn with
  | nil => simpa using hd
  | append_singleton p a ih =>
    obtain ⟨c, hc, hl⟩ := ih fun t ht => hp t (by simp [ht])
    have ha : ∀ t, a ≠ .bind x t := fun t ha => hp t (by simp [ha])
    obtain ⟨c', hc'⟩ := Option.isSome_iff_exists.mp
      (Store.isSome_step (κ := κ) a (Option.isSome_iff_exists.mpr ⟨c, hc⟩))
    refine ⟨c', by rw [← List.append_assoc, Store.after_append_singleton, hc'], fun hl' => hl ?_⟩
    rcases Store.step_cases hc' with h' | ⟨h', -⟩ | ⟨u, c'', -, -, -, h', rfl⟩
    · rw [hc] at h'
      cases h'
      exact hl'
    · exact absurd h' (ha _)
    · rw [hc] at h'
      cases h'
      exact Store.live_of_live_giveAway hl'

theorem Spent.dead (hs : Spent κ h x) : Dead κ h x := by
  obtain ⟨h₁, h₂, rfl, hd, hb⟩ := hs
  exact hd.append fun t => by simp [hb t]

theorem live_iff_not_spent {c : Cell} (hc : Store.after κ h x = some c)
    (hdead : ¬ c.live → Spent κ h x) : c.live ↔ ¬ Spent κ h x := by
  refine ⟨fun hlive hs => ?_, fun hs => Classical.not_not.mp fun hd => hs (hdead hd)⟩
  obtain ⟨c', hc', hd⟩ := hs.dead
  cases hc.symm.trans hc'
  exact hd hlive

end Spent

end QuantumStatics.Execution
