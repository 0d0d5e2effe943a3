/-
  The tables that registration leads to.

  Registration may fail at any point, and what it has entered by then stays.  `Preserves P x` says
  that the operation `x` keeps a property of the table, however it ends.
-/
import QuantumStatics.Signature.Table

namespace QuantumStatics.SignatureTable

/-- The table that an operation leaves behind, whether it succeeds or fails. -/
def after {α : Type} (x : Registration α) (T : SignatureTable) : SignatureTable :=
  match x T with
  | .ok _ T' => T'
  | .error _ T' => T'

/-- The tables that registration leads to. -/
inductive Registered : SignatureTable → Prop
  | empty : Registered {}
  | add {T : SignatureTable} (s : Signature) : Registered T → Registered (after (add s) T)
  | addStruct {T : SignatureTable} (d : StructDecl) (location : Location) :
    Registered T → Registered (after (addStruct d location) T)
  | finalize {T : SignatureTable} : Registered T → Registered T.finalize

/-- An operation keeps a property of the table, however it ends. -/
def Preserves {α : Type} (P : SignatureTable → Prop) (x : Registration α) : Prop :=
  ∀ T, P T → P (after x T)

namespace Preserves

variable {α β : Type} {P : SignatureTable → Prop}

theorem pure {a : α} : Preserves P (pure a) := fun _ h => h

theorem reject {location : Location} {cause : Cause} :
    Preserves P (Analysis.reject location cause : Registration α) := fun _ h => h

theorem defect {d : Defect} : Preserves P (Analysis.defect d : Registration α) := fun _ h => h

theorem get {f : SignatureTable → Registration β} (hf : ∀ T, P T → Preserves P (f T)) :
    Preserves P (get >>= f) := fun T h => hf T h T h

theorem set {T : SignatureTable} (h : P T) : Preserves P (set T) := fun _ _ => h

theorem modify {f : SignatureTable → SignatureTable} (h : ∀ T, P T → P (f T)) :
    Preserves P (modify f : Registration Unit) := h

theorem bind {x : Registration α} {f : α → Registration β} (hx : Preserves P x)
    (hf : ∀ a, Preserves P (f a)) : Preserves P (x >>= f) := by
  intro T h
  have first := hx T h
  have run : after (x >>= f) T = match x T with
      | .ok a T' => after (f a) T'
      | .error _ T' => T' := by
    change (match EStateM.bind x f T with | .ok _ T' => T' | .error _ T' => T') = _
    unfold EStateM.bind
    cases x T <;> rfl
  rw [run]
  unfold after at first
  cases hT : x T with
  | ok a T' =>
    rw [hT] at first
    exact hf a T' first
  | error e T' =>
    rw [hT] at first
    exact first

end Preserves

/-- Signatures are found under their names. -/
def Keyed (T : SignatureTable) : Prop := ∀ {n s}, T.find? n = some s → s.name = n

theorem checkOpen_keyed (name : String) : Preserves Keyed (checkOpen name) := by
  refine .get fun T _ => ?_
  split
  · exact .defect
  · exact .pure

theorem add_keyed (s : Signature) : Preserves Keyed (add s) := by
  refine (checkOpen_keyed s.name).bind fun _ => .get fun T hT => ?_
  split
  · split
    · exact .pure
    · exact .reject
  · refine .set fun {n u} hu => ?_
    rw [find?, Dict.get?_insert] at hu
    split at hu
    · rename_i hn
      cases hu
      exact hn.symm
    · exact hT hu

theorem addStruct_keyed (d : StructDecl) (location : Location) :
    Preserves Keyed (addStruct d location) := by
  refine (checkOpen_keyed d.name).bind fun _ => .get fun T _ => ?_
  split
  · split
    · exact .pure
    · exact .reject
  · exact (add_keyed _).bind fun _ => .modify fun T hT => hT

/-- **Every signature of a table that registration leads to stands under its own name.** -/
theorem Registered.keyed {T : SignatureTable} (h : T.Registered) : T.Keyed := by
  induction h with
  | empty => exact nofun
  | add s _ ih => exact add_keyed s _ ih
  | addStruct d location _ ih => exact addStruct_keyed d location _ ih
  | finalize _ ih => exact ih

end QuantumStatics.SignatureTable
