/-
  Memories that tell the plain classes.

  The memory of classes keeps those of closed types, under their text.  Among types whose text tells
  their class, classifying with a memory that is right about what it knows gives the class of the
  type without memory, and leaves a memory that is right.
-/
import QuantumStatics.Proofs.Classification.Instances

namespace QuantumStatics

namespace Ty

theorem texts_eq_map (ts : List Ty) : texts ts = ts.map text :=
  companion_eq_map rfl (fun _ _ => rfl) ts

theorem paramTexts_eq_map (ps : List ParamType) : paramTexts ps =
    ps.map fun p => p.type.text ++ (if p.ownership = .owned then " @owned" else "") := by
  refine companion_eq_map rfl ?_ ps
  rintro ⟨t, ownership⟩ ps
  rfl

theorem text_skeleton (t : Ty) : t.skeleton.text = t.text := by
  induction t with
  | prim | var | undet => rfl
  | tuple elems ih =>
    have elemTexts : elems.map (text ∘ skeleton) = elems.map text := List.map_congr_left ih
    rw [skeleton, text, text, skeletonAll_eq_map, texts_eq_map, texts_eq_map, List.map_map,
      List.length_map, elemTexts]
  | array elem length ih => rw [skeleton, text, text, ih]
  | struct decl typeArgs natArgs ih =>
    have argTexts : typeArgs.map (text ∘ skeleton) = typeArgs.map text := List.map_congr_left ih
    rw [skeleton, text, text, skeletonAll_eq_map, texts_eq_map, texts_eq_map, List.map_map,
      argTexts]
  | fn params result generics ihp ihr =>
    rw [skeleton, text, text, skeletonParams_eq_map, paramTexts_eq_map, paramTexts_eq_map,
      List.map_map, ihr, List.map_congr_left fun p hp => ?_]
    rw [Function.comp_apply, skeletonParam, ihp p hp]
  | option inner ih => rw [skeleton, text, text, ih]

theorem text_eq_of_equal {t u : Ty} (h : t.equal u) : t.text = u.text := by
  rw [← text_skeleton t, (equal_iff t u).mp h, text_skeleton]

end Ty

/-- Among some types, which come with their parts, the text of a type tells its class. -/
structure TextTells (P : Ty → Prop) : Prop where
  parts {t : Ty} {c : OwnershipClass} {ps : List Ty} : P t → t.parts = .ok (c, ps) → ∀ u ∈ ps, P u
  classes {t u : Ty} : P t → P u → t.text = u.text → t.classify = u.classify

/-- Among some types, which come with their parts, the text of a closed type tells its class. -/
structure ClosedTextTells (P : Ty → Prop) : Prop where
  parts {t : Ty} {c : OwnershipClass} {ps : List Ty} : P t → t.parts = .ok (c, ps) → ∀ u ∈ ps, P u
  classes {t u : Ty} {c : OwnershipClass} : P t → P u → t.closed → u.closed → t.text = u.text →
    t.classify = .ok c → u.classify = .ok c

theorem TextTells.closed {P : Ty → Prop} (h : TextTells P) : ClosedTextTells P where
  parts := h.parts
  classes ht hu _ _ text hc := h.classes ht hu text ▸ hc

namespace ClassMemo

variable {P : Ty → Prop} {t : Ty} {m : ClassMemo} {c : OwnershipClass}

/-- A memory is right about some types. -/
def Plain (P : Ty → Prop) (m : ClassMemo) : Prop :=
  ∀ t c, P t → t.closed → m.classes.get? t.text = some c → t.classify = .ok c

theorem plain_empty (P : Ty → Prop) : ({} : ClassMemo).Plain P := by
  intro t c _ _ h
  rw [Dict.get?_empty] at h
  cases h

/-- A run with a memory tells a class, or fails if there is none, and leaves the memory right. -/
def Tells (P : Ty → Prop) (r : EStateM.Result Defect ClassMemo OwnershipClass) :
    Except Defect OwnershipClass → Prop
  | .ok c => ∃ m, r = .ok c m ∧ m.Plain P
  | .error d => ∃ m, r = .error d m ∧ m.Plain P

theorem classify_of_get?_eq_none (closed : t.closed) (hm : m.classes.get? t.text = none) :
    classify t m = match derive t m with
      | .ok c m₁ => .ok c { m₁ with classes := m₁.classes.insertNew t.text c }
      | .error d m₁ => .error d m₁ := by
  rw [classify, if_pos closed, bind_of_ok (get_eq_ok.mpr ⟨rfl, rfl⟩), hm]
  cases hd : derive t m with
  | ok c m₁ => exact (bind_of_ok hd).trans rfl
  | error d m₁ => exact bind_of_error hd

theorem Plain.memorize (hP : ClosedTextTells P) (ht : P t) (hm : m.Plain P) (closed : t.closed)
    (hc : t.classify = .ok c) :
    ClassMemo.Plain P { m with classes := m.classes.insertNew t.text c } := by
  intro u c' hu closed' h
  rcases get?_memorize h with h | ⟨text, rfl⟩
  · exact hm u c' hu closed' h
  · exact hP.classes ht hu closed closed' text.symm hc

theorem tells_classify (hP : ClosedTextTells P) (ht : P t) (hm : m.Plain P)
    (hd : Tells P (derive t m) t.classify) : Tells P (classify t m) t.classify := by
  by_cases closed : t.closed
  · cases hg : m.classes.get? t.text with
    | some c =>
      rw [hm t c ht closed hg]
      exact ⟨m, classify_of_get? closed hg, hm⟩
    | none =>
      rw [classify_of_get?_eq_none closed hg]
      cases hc : t.classify with
      | ok c =>
        rw [hc] at hd
        obtain ⟨m₁, hd, hm₁⟩ := hd
        rw [hd]
        exact ⟨_, rfl, hm₁.memorize hP ht closed hc⟩
      | error d =>
        rw [hc] at hd
        obtain ⟨m₁, hd, hm₁⟩ := hd
        rw [hd]
        exact ⟨m₁, rfl, hm₁⟩
  · rwa [classify, if_neg closed]

theorem classifyAll_tells {ts : List Ty}
    (tells : ∀ t ∈ ts, ∀ {m : ClassMemo}, m.Plain P → Tells P (classify t m) t.classify)
    (c : OwnershipClass) (hm : m.Plain P) : Tells P (classifyAll c ts m) (Ty.classifyAll c ts) := by
  induction ts generalizing c m with
  | nil =>
    rw [classifyAll, Ty.classifyAll]
    exact ⟨m, rfl, hm⟩
  | cons t ts ih =>
    obtain ⟨first, others⟩ := List.forall_mem_cons.mp tells
    have first := first hm
    rw [classifyAll, Ty.classifyAll]
    cases hc : t.classify with
    | ok c' =>
      rw [hc] at first
      obtain ⟨m₁, h, hm₁⟩ := first
      simp only [bind, EStateM.bind, Except.bind, h]
      exact ih others (c.join c') hm₁
    | error d =>
      rw [hc] at first
      obtain ⟨m₁, h, hm₁⟩ := first
      simp only [bind, EStateM.bind, Except.bind, h]
      exact ⟨m₁, rfl, hm₁⟩

theorem classify_tells (hP : ClosedTextTells P) (t : Ty) (ht : P t) {m : ClassMemo}
    (hm : m.Plain P) : Tells P (classify t m) t.classify := by
  induction t using Ty.parts_induction generalizing m with
  | step t ih =>
    refine tells_classify hP ht hm ?_
    cases hp : t.parts with
    | error d =>
      rw [derive_of_defect hp, Ty.classify_of_defect hp]
      exact ⟨m, rfl, hm⟩
    | ok parts =>
      rw [derive_of_parts hp, Ty.classify_of_parts hp]
      exact classifyAll_tells (fun u hu => ih _ _ hp u hu (hP.parts ht hp u hu)) _ hm

/-- **With a memory that is right, a type has the class that it has without one**, and the memory
    stays right. -/
theorem Plain.classify_eq_ok (hm : m.Plain P) (hP : ClosedTextTells P) (ht : P t) {m₁ : ClassMemo}
    (h : classify t m = .ok c m₁) : t.classify = .ok c ∧ m₁.Plain P := by
  have tells := classify_tells hP t ht hm
  rw [h] at tells
  cases hc : t.classify with
  | ok c' =>
    rw [hc] at tells
    obtain ⟨m₂, h', plain⟩ := tells
    cases h'
    exact ⟨rfl, plain⟩
  | error d =>
    rw [hc] at tells
    obtain ⟨m₂, h', -⟩ := tells
    cases h'

theorem Plain.exists_classify (hm : m.Plain P) (hP : ClosedTextTells P) (ht : P t)
    (hc : t.classify = .ok c) : ∃ m₁, classify t m = .ok c m₁ ∧ m₁.Plain P := by
  have tells := classify_tells hP t ht hm
  rw [hc] at tells
  exact tells

/-- The answers of a run of questions to one memory.  After a failure it goes on with what has been
    memorized so far. -/
def answers (m : ClassMemo) : List Ty → List (Except Defect OwnershipClass)
  | [] => []
  | t :: ts =>
    match classify t m with
    | .ok c m₁ => .ok c :: m₁.answers ts
    | .error d m₁ => .error d :: m₁.answers ts

/-- **No question changes the answer to a later one**, if the memory is right at first. -/
theorem Plain.answers_eq (hm : m.Plain P) (hP : ClosedTextTells P) {ts : List Ty}
    (hts : ∀ t ∈ ts, P t) : m.answers ts = ts.map Ty.classify := by
  induction ts generalizing m with
  | nil => rfl
  | cons t ts ih =>
    obtain ⟨ht, hts⟩ := List.forall_mem_cons.mp hts
    have tells := classify_tells hP t ht hm
    rw [answers, List.map_cons]
    cases hc : t.classify with
    | ok c =>
      rw [hc] at tells
      obtain ⟨m₁, h, hm₁⟩ := tells
      rw [h, ← ih hm₁ hts]
    | error d =>
      rw [hc] at tells
      obtain ⟨m₁, h, hm₁⟩ := tells
      rw [h, ← ih hm₁ hts]

end ClassMemo

end QuantumStatics
