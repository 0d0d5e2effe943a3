/-
  Changes of values.

  A change of a value is its new version, or nothing if the value stays as it is.
  `changeBoth` puts the changes of two components together and `changeAll` those
  of the members of a list, so that what stays as it is is kept and not built
  again.

  * `getD_changeBoth`, `getD_changeAll`: the value after the change has its
    components after their changes.
-/

namespace QuantumStatics

variable {α β γ : Type}

/-- The change of `f a b` from the changes of `a` and of `b`. -/
def changeBoth (f : α → β → γ) (a : α) (b : β) : Option α → Option β → Option γ
  | none, none => none
  | a', b' => some (f (a'.getD a) (b'.getD b))

/-- The change of a list from the changes of its members. -/
def changeAll (f : α → Option α) : List α → Option (List α)
  | [] => none
  | a :: as => changeBoth List.cons a as (f a) (changeAll f as)

@[simp] theorem getD_changeBoth (f : α → β → γ) (a : α) (b : β) (a' : Option α) (b' : Option β) :
    (changeBoth f a b a' b').getD (f a b) = f (a'.getD a) (b'.getD b) := by
  cases a' <;> cases b' <;> rfl

@[simp] theorem getD_changeAll (f : α → Option α) (as : List α) :
    (changeAll f as).getD as = as.map fun a => (f a).getD a := by
  induction as with
  | nil => rfl
  | cons a as ih => simp [changeAll, ih]

end QuantumStatics
