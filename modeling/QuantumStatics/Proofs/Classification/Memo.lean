/-
  What the memory of classes knows.

  Classes are kept under the text of a type, and two types may have the same text.  A
  memory that has grown since may thus tell another class for a type than the one that was
  derived first, but never a more restrictive one.
-/
import QuantumStatics.Classification
import QuantumStatics.Proofs.Analysis

namespace QuantumStatics

variable {c : OwnershipClass}

namespace OwnershipClass

variable {a b c : OwnershipClass}

theorem le_refl (a : OwnershipClass) : a ≤ a := Nat.le_refl a.rank

theorem le_trans (hab : a ≤ b) (hbc : b ≤ c) : a ≤ c := Nat.le_trans (m := b.rank) hab hbc

theorem le_antisymm (hab : a ≤ b) (hba : b ≤ a) : a = b := by
  revert hab hba
  cases a <;> cases b <;> decide

theorem join_mono {a' b' : OwnershipClass} (ha : a' ≤ a) (hb : b' ≤ b) : a'.join b' ≤ a.join b :=
  join_le (le_trans ha (le_join_left a b)) (le_trans hb (le_join_right a b))

@[simp] theorem linear_le_iff : linear ≤ a ↔ a = linear := by cases a <;> decide

@[simp] theorem le_copyable_iff : a ≤ copyable ↔ a = copyable := by cases a <;> decide

end OwnershipClass

namespace ClassMemo

/-- A memory knows all that another one knows. -/
def Grows (m m' : ClassMemo) : Prop :=
  ∀ text c, m.classes.get? text = some c → m'.classes.get? text = some c

theorem Grows.refl (m : ClassMemo) : m.Grows m := fun _ _ h => h

variable {m m₁ : ClassMemo} {t : Ty}

theorem Grows.trans {m' m'' : ClassMemo} (h : m.Grows m') (h' : m'.Grows m'') : m.Grows m'' :=
  fun _ _ hc => h' _ _ (h _ _ hc)

/-- What has been added to a memory is at most `c`. -/
def AddedBelow (m m' : ClassMemo) (c : OwnershipClass) : Prop :=
  ∀ text c', m'.classes.get? text = some c' → m.classes.get? text = some c' ∨ c' ≤ c

/-- The class of a type for a memory; copyable if it has none. -/
def classOf (m : ClassMemo) (t : Ty) : OwnershipClass :=
  match classify t m with
  | .ok c _ => c
  | .error _ _ => .copyable

/-- Deriving a class by `x` only adds to the memory, nothing more restrictive than the
    class, and later `y` derives no more restrictive class. -/
structure Steady (x y : EStateM Defect ClassMemo OwnershipClass) (m : ClassMemo)
    (c : OwnershipClass) (m₁ : ClassMemo) : Prop where
  grows : m.Grows m₁
  below : m.AddedBelow m₁ c
  later {m' : ClassMemo} : m₁.Grows m' → ∃ c' m'', y m' = .ok c' m'' ∧ c' ≤ c ∧ m'.Grows m''

theorem get?_memorize {text text' : String} {c' : OwnershipClass}
    (h : (m.classes.insertNew text c).get? text' = some c') :
    m.classes.get? text' = some c' ∨ text' = text ∧ c' = c := by
  rw [Dict.get?_insertNew] at h
  split at h
  · rename_i hk
    cases hm : m.classes.get? text with
    | none =>
      rw [hm] at h
      exact .inr ⟨hk, by simpa using h.symm⟩
    | some c'' =>
      rw [hm] at h
      exact .inl (by rw [hk, hm]; exact h)
  · exact .inl h

theorem classify_of_get? (ht : t.closed) (hc : m.classes.get? t.text = some c) :
    classify t m = .ok c m := by
  rw [classify, if_pos ht]
  refine bind_eq_ok.mpr ⟨m, m, get_eq_ok.mpr ⟨rfl, rfl⟩, ?_⟩
  rw [hc]
  rfl

theorem classify_eq_ok (h : classify t m = .ok c m₁) :
    (t.closed ∧ m.classes.get? t.text = some c ∧ m₁ = m) ∨
    (t.closed ∧ m.classes.get? t.text = none ∧ ∃ m₂, derive t m = .ok c m₂ ∧
      m₁ = { m₂ with classes := m₂.classes.insertNew t.text c }) ∨
    (¬ t.closed ∧ derive t m = .ok c m₁) := by
  rw [classify] at h
  split at h
  · rename_i ht
    obtain ⟨m', _, hm', h⟩ := bind_eq_ok.mp h
    obtain ⟨rfl, rfl⟩ := get_eq_ok.mp hm'
    cases hg : m.classes.get? t.text with
    | some c' =>
      rw [hg] at h
      obtain ⟨rfl, rfl⟩ := pure_eq_ok.mp h
      exact .inl ⟨ht, rfl, rfl⟩
    | none =>
      rw [hg] at h
      obtain ⟨c', m₂, hd, h⟩ := bind_eq_ok.mp h
      obtain ⟨_, m₃, hm, h⟩ := bind_eq_ok.mp h
      obtain ⟨rfl, rfl⟩ := pure_eq_ok.mp h
      exact .inr (.inl ⟨ht, rfl, m₂, hd, (modify_eq_ok.mp hm).symm⟩)
  · rename_i ht
    exact .inr (.inr ⟨ht, h⟩)

theorem derive_of_parts {ps : List Ty} (h : t.parts = .ok (c, ps)) :
    derive t = classifyAll c ps := by
  rw [derive]
  split
  · rename_i h'
    cases h.symm.trans h'
  · rename_i h'
    cases h.symm.trans h'
    rfl

theorem derive_of_defect {d : Defect} (h : t.parts = .error d) : derive t = throw d := by
  rw [derive]
  split
  · rename_i h'
    cases h.symm.trans h'
    rfl
  · rename_i h'
    cases h.symm.trans h'

theorem Steady.classify
    (hd : ∀ {m c m₁}, derive t m = .ok c m₁ → Steady (derive t) (derive t) m c m₁)
    (h : classify t m = .ok c m₁) : Steady (classify t) (classify t) m c m₁ := by
  obtain ⟨ht, hc, rfl⟩ | ⟨ht, hc, m₂, hdt, rfl⟩ | ⟨ht, hdt⟩ := classify_eq_ok h
  · refine ⟨.refl _, fun _ _ => .inl, fun {m'} hm' => ⟨c, m', ?_, c.le_refl, .refl m'⟩⟩
    exact classify_of_get? ht (hm' _ _ hc)
  · obtain ⟨grows, below, -⟩ := hd hdt
    have below' : m.AddedBelow { m₂ with classes := m₂.classes.insertNew t.text c } c := by
      intro text c' hc'
      rcases get?_memorize hc' with hc' | ⟨-, rfl⟩
      · exact below _ _ hc'
      · exact .inr c'.le_refl
    refine ⟨fun text c' hc' => ?_, below', fun {m'} hm' => ?_⟩
    · rw [Dict.get?_insertNew]
      split
      · rename_i hk
        rw [hk, hc] at hc'
        cases hc'
      · exact grows _ _ hc'
    · -- A part with the same text may have been memorized before, with a class below `c`.
      obtain ⟨c', hc'⟩ : ∃ c', (m₂.classes.insertNew t.text c).get? t.text = some c' :=
        ⟨_, by rw [Dict.get?_insertNew, if_pos rfl]⟩
      refine ⟨c', m', classify_of_get? ht (hm' _ _ hc'), ?_, .refl m'⟩
      rcases below' _ _ hc' with h' | h'
      · rw [hc] at h'
        cases h'
      · exact h'
  · obtain ⟨grows, below, later⟩ := hd hdt
    refine ⟨grows, below, fun hm' => ?_⟩
    simpa only [ClassMemo.classify, if_neg ht] using later hm'

theorem steady_classifyAll {ts : List Ty}
    (steady : ∀ t ∈ ts, ∀ {m c m₁}, classify t m = .ok c m₁ →
      Steady (classify t) (classify t) m c m₁) {c₀ c₀' : OwnershipClass}
    (h : classifyAll c₀ ts m = .ok c m₁) (hc₀ : c₀' ≤ c₀) :
    Steady (classifyAll c₀ ts) (classifyAll c₀' ts) m c m₁ ∧ c₀ ≤ c := by
  induction ts generalizing m c₀ c₀' with
  | nil =>
    rw [classifyAll] at h
    obtain ⟨rfl, rfl⟩ := pure_eq_ok.mp h
    refine ⟨⟨.refl _, fun _ _ => .inl, fun {m'} _ => ⟨c₀', m', ?_, hc₀, .refl m'⟩⟩, c₀.le_refl⟩
    rw [classifyAll]
    rfl
  | cons t ts ih =>
    rw [classifyAll] at h
    obtain ⟨c₁, m₂, ht, hts⟩ := bind_eq_ok.mp h
    obtain ⟨first, others⟩ := List.forall_mem_cons.mp steady
    have st := first ht
    have all : ∀ {c₁'}, c₁' ≤ c₁ → Steady (classifyAll (c₀.join c₁) ts)
        (classifyAll (c₀'.join c₁') ts) m₂ c m₁ ∧ c₀.join c₁ ≤ c :=
      fun hc₁ => ih others hts (OwnershipClass.join_mono hc₀ hc₁)
    obtain ⟨sts, hle⟩ := all c₁.le_refl
    have hc₁ : c₁ ≤ c := OwnershipClass.le_trans (c₀.le_join_right c₁) hle
    refine ⟨⟨st.grows.trans sts.grows, fun text c' hc' => ?_, fun {m'} hm' => ?_⟩,
      OwnershipClass.le_trans (c₀.le_join_left c₁) hle⟩
    · rcases sts.below _ _ hc' with hc' | hc'
      · exact (st.below _ _ hc').imp_right fun h => OwnershipClass.le_trans h hc₁
      · exact .inr hc'
    · obtain ⟨c₁', m₃, ht', hc₁', hm₃⟩ := st.later (sts.grows.trans hm')
      obtain ⟨c', m₄, hts', hc', hm₄⟩ := (all hc₁').1.later (hm'.trans hm₃)
      refine ⟨c', m₄, ?_, hc', hm₃.trans hm₄⟩
      rw [classifyAll]
      exact bind_eq_ok.mpr ⟨c₁', m₃, ht', hts'⟩

theorem steady_classify (t : Ty) (h : classify t m = .ok c m₁) :
    Steady (classify t) (classify t) m c m₁ := by
  induction t using Ty.parts_induction generalizing m c m₁ with
  | step t ih =>
    refine Steady.classify (fun {m c m₁} h => ?_) h
    cases hp : t.parts with
    | error d =>
      rw [derive_of_defect hp] at h
      exact absurd h throw_ne_ok
    | ok parts =>
      obtain ⟨c₀, ps⟩ := parts
      rw [derive_of_parts hp] at h ⊢
      exact (steady_classifyAll (fun u hu => ih c₀ ps hp u hu) h c₀.le_refl).1

theorem classify_grows (h : classify t m = .ok c m₁) : m.Grows m₁ :=
  (steady_classify t h).grows

/-- **A type never gets more restrictive.**  For every later memory, its class is at most the
    one that was derived for it. -/
theorem classOf_le {m' : ClassMemo} (h : classify t m = .ok c m₁) (hm' : m₁.Grows m') :
    m'.classOf t ≤ c := by
  obtain ⟨c', m'', hc', hle, -⟩ := (steady_classify t h).later hm'
  rw [classOf, hc']
  exact hle

end ClassMemo

end QuantumStatics
