/-
  Classifying ends.

  The class of a struct type is found from its fields with the arguments put in, and these are
  unfolded in turn.  Such a field is no subterm of the struct type and may be larger than it, if the
  declaration passes its parameters on in `Option[T]`, `(T, T)` or another struct type.  But it
  weighs less, since the weight of a type is that of its unfolding.

  * `Ty.isPart_wellFounded`: no type can be unfolded for ever;
  * `classification_ends`: deriving a class ends at every type, without and with a memory.
-/
import QuantumStatics.Proofs.Classification.Instances
import QuantumStatics.Proofs.Recursion

namespace QuantumStatics

open Recursion

/-! ## Unfolding -/

/-- A type is among those that the class of another one depends on: an element, or a field with the
    arguments put in. -/
def Ty.IsPart (u t : Ty) : Prop := ∃ c ps, t.parts = .ok (c, ps) ∧ u ∈ ps

theorem Ty.IsPart.weight_lt {u t : Ty} (h : u.IsPart t) : u.weight < t.weight := by
  obtain ⟨c, ps, hp, hu⟩ := h
  exact Nat.lt_of_le_of_lt (le_total (List.mem_map_of_mem hu)) (weight_parts hp)

theorem Ty.isPart_wellFounded : WellFounded Ty.IsPart :=
  Subrelation.wf Ty.IsPart.weight_lt (measure Ty.weight).wf

/-! ## The recursion -/

/-- The class of a type, those of its parts by `go`. -/
def Ty.deriveBy {m : Type → Type} [Monad m] [MonadExcept Defect m] (go : Ty → m OwnershipClass)
    (t : Ty) : m OwnershipClass :=
  match t.parts with
  | .error d => throw d
  | .ok (c, ps) => ps.foldlM (fun c u => return c.join (← go u)) c

theorem Ty.deriveBy_congr {m : Type → Type} [Monad m] [MonadExcept Defect m]
    {go go' : Ty → m OwnershipClass} {t : Ty} (h : ∀ u, u.IsPart t → go' u = go u) :
    t.deriveBy go' = t.deriveBy go := by
  unfold deriveBy
  cases hp : t.parts with
  | error d => rfl
  | ok p =>
    obtain ⟨c, ps⟩ := p
    replace h : ∀ u ∈ ps, go' u = go u := fun u hu => h u ⟨c, ps, hp, hu⟩
    clear hp
    dsimp only
    induction ps generalizing c with
    | nil => rfl
    | cons u ps ih =>
      obtain ⟨hu, hps⟩ := List.forall_mem_cons.mp h
      simp only [List.foldlM_cons, hu, fun c => ih c hps]

theorem Ty.classify_eq (t : Ty) : t.classify = t.deriveBy Ty.classify := by
  have all : ∀ (ps : List Ty) (c : OwnershipClass),
      classifyAll c ps = ps.foldlM (fun c u => return c.join (← u.classify)) c := by
    intro ps
    induction ps with
    | nil => exact fun c => by rw [classifyAll]; rfl
    | cons u ps ih =>
      intro c
      simp only [classifyAll, ih, List.foldlM_cons, bind_assoc, pure_bind]
  unfold deriveBy
  cases hp : t.parts with
  | error d => exact classify_of_defect hp
  | ok p => rw [classify_of_parts hp, all]

namespace ClassMemo

/-- The class of a type from memory, or derived by `go` and memorized. -/
def classifyBy (go : Ty → EStateM Defect ClassMemo OwnershipClass) (t : Ty) :
    EStateM Defect ClassMemo OwnershipClass := do
  if t.closed then
    match (← get).classes.get? t.text with
    | some c => return c
    | none =>
      let c ← t.deriveBy go
      modify fun m => { m with classes := m.classes.insertNew t.text c }
      return c
  else
    t.deriveBy go

/-- One step of classifying with a memory. -/
def step (go : Ty × ClassMemo → EStateM.Result Defect ClassMemo OwnershipClass)
    (x : Ty × ClassMemo) : EStateM.Result Defect ClassMemo OwnershipClass :=
  classifyBy (fun t m => go (t, m)) x.1 x.2

theorem classify_eq (t : Ty) : classify t = classifyBy classify t := by
  have all : ∀ (ps : List Ty) (c : OwnershipClass),
      classifyAll c ps = ps.foldlM (fun c u => return c.join (← classify u)) c := by
    intro ps
    induction ps with
    | nil => exact fun c => by rw [classifyAll]; rfl
    | cons u ps ih =>
      intro c
      simp only [classifyAll, ih, List.foldlM_cons, bind_assoc, pure_bind]
  have derived : derive t = t.deriveBy classify := by
    unfold Ty.deriveBy
    cases hp : t.parts with
    | error d => exact derive_of_defect hp
    | ok p => rw [derive_of_parts hp, all]
  unfold classify classifyBy
  exact derived ▸ rfl

end ClassMemo

/-- **Classifying ends.**  No type can be unfolded into its parts for ever, however struct types are
    nested in arguments and whatever declarations pass on to others; so the recursion ends at every
    type with one answer, the class of the type or a defect, and it ends with every memory. -/
theorem classification_ends (t : Ty) :
    Acc Ty.IsPart t ∧ (∀ o, Ends Ty.deriveBy t o ↔ o = t.classify) ∧
      ∀ m o, Ends ClassMemo.step (t, m) o ↔ o = ClassMemo.classify t m := by
  have plain : Ends Ty.deriveBy t t.classify :=
    ends_of_wellFounded Ty.isPart_wellFounded Ty.classify_eq (fun t go h => Ty.deriveBy_congr h) t
  have memo (m : ClassMemo) : Ends ClassMemo.step (t, m) (ClassMemo.classify t m) := by
    refine ends_of_wellFounded (InvImage.wf Prod.fst Ty.isPart_wellFounded)
      (f := fun x => ClassMemo.classify x.1 x.2)
      (fun x => congrFun (ClassMemo.classify_eq x.1) x.2) (fun x go h => ?_) (t, m)
    have derived : x.1.deriveBy (m := EStateM Defect ClassMemo) (fun u m => go (u, m)) =
        x.1.deriveBy ClassMemo.classify :=
      Ty.deriveBy_congr fun u hu => funext fun m => h (u, m) hu
    simp only [ClassMemo.step, ClassMemo.classifyBy, derived]
  exact ⟨Ty.isPart_wellFounded.apply t, fun o => plain.iff_eq, fun m o => (memo m).iff_eq⟩

end QuantumStatics
