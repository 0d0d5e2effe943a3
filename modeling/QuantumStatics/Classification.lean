/-
  Ownership classes of types.

  Leaves state their class and type variables take the class of their bound.
  Every other type has the most restrictive class of its parts (`Ty.parts`): the
  elements of a tuple or an array, the inside of an option, the fields of a struct
  with the arguments put in.  Functions have no parts and are copyable.

  * `Ty.classify` derives the class of a type;
  * `ClassMemo.classify` does so with a memory: the classes of closed types are
    kept under their text and not derived again.

  Both end because the parts of a type weigh less than the type
  (`Ty.weight_parts`).
-/
import QuantumStatics.Ty.Weight

namespace QuantumStatics

/-- The class that a type has by itself, and the parts that its class depends on. -/
def Ty.parts : Ty → Except Defect (OwnershipClass × List Ty)
  | .prim _ cls => .ok (cls, [])
  | .var p => .ok (p.boundClass, [])
  | .undet stamp => .error (.unclassified stamp)
  | .tuple elems => .ok (.copyable, elems)
  | .array elem _ => .ok (.copyable, [elem])
  | .struct decl typeArgs natArgs =>
    (decl.instantiateFields typeArgs natArgs).map fun fields =>
      (.copyable, fields.map (·.type))
  | .fn _ _ _ => .ok (.copyable, [])
  | .option inner => .ok (.copyable, [inner])

/-- **The parts of a type weigh less than the type.** -/
theorem Ty.weight_parts {t : Ty} {c : OwnershipClass} {ps : List Ty} (h : t.parts = .ok (c, ps)) :
    total (ps.map weight) < t.weight := by
  cases t with
  | prim _ _ | var _ | fn _ _ _ => cases h; exact weight_pos _
  | undet _ => cases h
  | tuple elems =>
    cases h
    simp only [weight, weightIn, weightsIn_eq_map]
    exact Nat.lt_add_of_pos_left Nat.one_pos
  | array elem _ =>
    cases h
    simp [weight, weightIn, total]
  | option inner =>
    cases h
    simp [weight, weightIn, total]
  | struct decl typeArgs natArgs =>
    simp only [parts] at h
    cases hf : decl.instantiateFields typeArgs natArgs with
    | error d => rw [hf] at h; cases h
    | ok fields =>
      rw [hf] at h
      cases h
      rw [List.map_map]
      exact StructDecl.weight_fields hf

/-- **Induction over the parts of types.** -/
theorem Ty.parts_induction {motive : Ty → Prop}
    (step : ∀ t, (∀ c ps, t.parts = .ok (c, ps) → ∀ u ∈ ps, motive u) → motive t) (t : Ty) :
    motive t :=
  step t fun _ _ _hp u _hu => parts_induction step u
termination_by t.weight
decreasing_by exact Nat.lt_of_le_of_lt (le_total (List.mem_map_of_mem _hu)) (weight_parts _hp)

/-! ## Without memory -/

mutual

/-- The ownership class of a type. -/
def Ty.classify (t : Ty) : Except Defect OwnershipClass :=
  match _h : t.parts with
  | .error d => .error d
  | .ok (c, ps) => Ty.classifyAll c ps
termination_by (t.weight, 0)
decreasing_by exact .left _ _ (Ty.weight_parts _h)

/-- The most restrictive of a class and the classes of some types. -/
def Ty.classifyAll (c : OwnershipClass) : List Ty → Except Defect OwnershipClass
  | [] => .ok c
  | t :: ts => do
    let c' ← t.classify
    Ty.classifyAll (c.join c') ts
termination_by ts => (total (ts.map Ty.weight), 1)
decreasing_by
  · simp only [List.map_cons, total, Prod.lex_def]
    omega
  · have := t.weight_pos
    simp only [List.map_cons, total, Prod.lex_def]
    omega

end

/-! ## With a memory -/

/-- The classes derived so far, by the text of the type. -/
structure ClassMemo where
  classes : Dict String OwnershipClass := ∅
  deriving Inhabited

namespace ClassMemo

mutual

/-- The ownership class of a type, from memory if the type is closed and has been
    classified before. -/
def classify (t : Ty) : EStateM Defect ClassMemo OwnershipClass := do
  if t.closed then
    match (← get).classes.get? t.text with
    | some c => return c
    | none =>
      let c ← derive t
      modify fun m => { m with classes := m.classes.insertNew t.text c }
      return c
  else
    derive t
termination_by (t.weight, 1)

/-- The ownership class of a type, derived from its parts. -/
def derive (t : Ty) : EStateM Defect ClassMemo OwnershipClass :=
  match _h : t.parts with
  | .error d => throw d
  | .ok (c, ps) => classifyAll c ps
termination_by (t.weight, 0)
decreasing_by exact .left _ _ (Ty.weight_parts _h)

/-- The most restrictive of a class and the classes of some types. -/
def classifyAll (c : OwnershipClass) : List Ty → EStateM Defect ClassMemo OwnershipClass
  | [] => return c
  | t :: ts => do
    let c' ← classify t
    classifyAll (c.join c') ts
termination_by ts => (total (ts.map Ty.weight), 2)
decreasing_by
  · simp only [List.map_cons, total, Prod.lex_def]
    omega
  · have := t.weight_pos
    simp only [List.map_cons, total, Prod.lex_def]
    omega

end

end ClassMemo

end QuantumStatics
