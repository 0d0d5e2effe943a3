/-
  The unfolded size of a type.

  A struct type stands for its fields with the arguments put in.  `Ty.weight`
  counts the constructors of a type after all struct types have been unfolded
  this way, at any depth, without unfolding them: the weight of a struct type is
  computed from its declaration and the weights of its arguments.

  * `weightIn_inst`: the weight after instantiating is the weight in which the
    variables weigh what their images weigh;
  * `weight_fields`: a struct type weighs more than its fields together.
-/
import QuantumStatics.Instantiation

namespace QuantumStatics

/-- The sum of some weights. -/
def total : List Nat → Nat
  | [] => 0
  | n :: ns => n + total ns

theorem le_total {n : Nat} {ns : List Nat} (h : n ∈ ns) : n ≤ total ns := by
  induction ns with
  | nil => cases h
  | cons m ns ih =>
    rw [total]
    rcases List.mem_cons.mp h with rfl | h
    · omega
    · exact Nat.le_add_left_of_le (ih h)

/-- Weights of parameters from the weights of their arguments.  A name that is
    no parameter weighs one. -/
def assignWeights (names : List String) (weights : List Nat) (name : String) : Nat :=
  ((names.zip weights).lookup name).getD 1

mutual

/-- The unfolded size of a type whose variables weigh as `ρ` says. -/
def Ty.weightIn (ρ : String → Nat) : Ty → Nat
  | .prim _ _ | .undet _ | .fn _ _ _ => 1
  | .var p => ρ p.name
  | .tuple elems => 1 + total (Ty.weightsIn ρ elems)
  | .array elem _ => 1 + elem.weightIn ρ
  | .struct decl typeArgs _ =>
    1 + decl.weightIn (assignWeights decl.params.typeNames (Ty.weightsIn ρ typeArgs))
  | .option inner => 1 + inner.weightIn ρ

/-- The unfolded sizes of some types. -/
def Ty.weightsIn (ρ : String → Nat) : List Ty → List Nat
  | [] => []
  | t :: ts => t.weightIn ρ :: Ty.weightsIn ρ ts

/-- The unfolded size of the fields of a struct. -/
def StructDecl.weightIn (ρ : String → Nat) : StructDecl → Nat
  | ⟨_, _, fields⟩ => Ty.fieldWeightIn ρ fields

/-- The unfolded size of some fields. -/
def Ty.fieldWeightIn (ρ : String → Nat) : List Field → Nat
  | [] => 0
  | ⟨_, t⟩ :: fs => t.weightIn ρ + Ty.fieldWeightIn ρ fs

end

/-- The unfolded size of a type. -/
def Ty.weight (t : Ty) : Nat := t.weightIn fun _ => 1

namespace Ty

theorem weightsIn_eq_map (ρ : String → Nat) (ts : List Ty) :
    weightsIn ρ ts = ts.map (weightIn ρ) :=
  companion_eq_map rfl (fun _ _ => rfl) ts

theorem fieldWeightIn_eq_total (ρ : String → Nat) (fs : List Field) :
    fieldWeightIn ρ fs = total (fs.map fun f => f.type.weightIn ρ) := by
  induction fs with
  | nil => rfl
  | cons f fs ih =>
    obtain ⟨_, t⟩ := f
    simp [fieldWeightIn, total, ih]

theorem weight_pos (t : Ty) : 0 < t.weight := by
  cases t <;> simp only [weight, weightIn] <;> omega

/-! ## Variables -/

mutual

theorem weightIn_congr {ρ ρ' : String → Nat} :
    (t : Ty) → (∀ n, .type n ∈ t.vars → ρ n = ρ' n) → t.weightIn ρ = t.weightIn ρ'
  | .prim _ _, _ | .undet _, _ | .fn _ _ _, _ => by simp [weightIn]
  | .var p, h => by simpa [weightIn] using h p.name (by simp [vars])
  | .tuple elems, h => by
    simp only [weightIn]
    rw [weightsIn_congr elems fun n hn => h n (by simpa [vars] using hn)]
  | .array elem _, h => by
    simp only [weightIn]
    rw [weightIn_congr elem fun n hn => h n (by simp [vars, hn])]
  | .struct decl typeArgs _, h => by
    simp only [weightIn]
    rw [weightsIn_congr typeArgs fun n hn => h n (by simp [vars, hn])]
  | .option inner, h => by
    simp only [weightIn]
    rw [weightIn_congr inner fun n hn => h n (by simpa [vars] using hn)]

theorem weightsIn_congr {ρ ρ' : String → Nat} :
    (ts : List Ty) → (∀ n, .type n ∈ varsAll ts → ρ n = ρ' n) → weightsIn ρ ts = weightsIn ρ' ts
  | [], _ => rfl
  | t :: ts, h => by
    simp only [weightsIn]
    rw [weightIn_congr t fun n hn => h n (by simp [varsAll, hn]),
      weightsIn_congr ts fun n hn => h n (by simp [varsAll, hn])]

end

/-! ## Instantiation -/

/-- Weights of variables after an instantiation: a variable with an argument
    weighs what the argument weighs. -/
def weightsAfter (I : Instantiation) (ρ : String → Nat) (name : String) : Nat :=
  ((I.types.get? name).map (weightIn ρ)).getD (ρ name)

mutual

/-- **Instantiating a type weighs its variables like their images.** -/
theorem weightIn_inst (I : Instantiation) (ρ : String → Nat) :
    (t : Ty) → (t.inst I).weightIn ρ = t.weightIn (weightsAfter I ρ)
  | .prim _ _ | .undet _ | .fn _ _ _ => by simp [weightIn]
  | .var p => by
    simp only [inst_var, weightIn, weightsAfter]
    cases I.types.get? p.name <;> simp [weightIn]
  | .tuple elems => by simp [weightIn, weightsIn_inst I ρ elems]
  | .array elem _ => by simp [weightIn, weightIn_inst I ρ elem]
  | .struct _ typeArgs _ => by simp [weightIn, weightsIn_inst I ρ typeArgs]
  | .option inner => by simp [weightIn, weightIn_inst I ρ inner]

theorem weightsIn_inst (I : Instantiation) (ρ : String → Nat) :
    (ts : List Ty) → weightsIn ρ (ts.map (inst I)) = weightsIn (weightsAfter I ρ) ts
  | [] => rfl
  | t :: ts => by simp [weightsIn, weightIn_inst I ρ t, weightsIn_inst I ρ ts]

end

end Ty

theorem Ty.weightIn_apply (I : Instantiation) (ρ : String → Nat) (t : Ty) :
    (I.apply t).weightIn ρ = t.weightIn (Ty.weightsAfter I ρ) := by
  unfold Instantiation.apply
  split
  · rename_i h
    have h : I.types.isEmpty := by
      simp only [Instantiation.isEmpty, Bool.and_eq_true] at h
      exact h.1
    refine weightIn_congr t fun n _ => ?_
    simp [weightsAfter, Dict.get?_of_isEmpty h]
  · exact weightIn_inst I ρ t

/-! ## Struct types -/

theorem lookup_zip_map {α β : Type} (f : α → β) (names : List String) (as : List α) (k : String) :
    (names.zip (as.map f)).lookup k = ((names.zip as).lookup k).map f := by
  induction names generalizing as with
  | nil => simp
  | cons n ns ih =>
    cases as with
    | nil => simp
    | cons a as =>
      simp only [List.map_cons, List.zip_cons_cons, lookup_entry, ih]
      split <;> simp

theorem Ty.weightsAfter_pair (g : Generics) (types : List Ty) (nats : List NatTerm) :
    Ty.weightsAfter (.pair g types nats) (fun _ => 1) =
      assignWeights g.typeNames (Ty.weightsIn (fun _ => 1) types) := by
  funext n
  simp [Ty.weightsAfter, assignWeights, Instantiation.pair, Dict.get?_ofListFirst,
    Ty.weightsIn_eq_map, lookup_zip_map]

/-- **A struct type weighs more than its fields.** -/
theorem StructDecl.weight_fields {d : StructDecl} {types : List Ty} {nats : List NatTerm}
    {fields : List Field} (h : d.instantiateFields types nats = .ok fields) :
    total (fields.map (·.type.weight)) < (Ty.struct d types nats).weight := by
  unfold StructDecl.instantiateFields at h
  split at h
  · obtain rfl := Except.ok.inj h
    have hw : (Ty.struct d types nats).weight =
        1 + total (d.fields.map fun f =>
          ((Instantiation.pair d.params types nats).apply f.type).weight) := by
      obtain ⟨name, params, fields⟩ := d
      simp only [Ty.weight, Ty.weightIn, StructDecl.weightIn, Ty.fieldWeightIn_eq_total,
        Ty.weightIn_apply, Ty.weightsAfter_pair]
    rw [hw, List.map_map]
    simp only [Function.comp_def]
    omega
  · cases h

end QuantumStatics
