/-
  Equality of types is a congruence.

  `Ty.equal` compares leaves, type variables and structs by name, so equal types need not be
  identical.
-/
import QuantumStatics.Substitution
import QuantumStatics.Ty.Equal

namespace QuantumStatics

namespace Ty

/-- **Induction over types.**  The declaration of a struct is not looked into. -/
@[induction_eliminator]
theorem induction {P : Ty → Prop} (prim : ∀ name cls, P (.prim name cls))
    (var : ∀ param, P (.var param)) (undet : ∀ stamp, P (.undet stamp))
    (tuple : ∀ elems, (∀ t ∈ elems, P t) → P (.tuple elems))
    (array : ∀ elem length, P elem → P (.array elem length))
    (struct : ∀ decl typeArgs natArgs, (∀ t ∈ typeArgs, P t) → P (.struct decl typeArgs natArgs))
    (fn : ∀ params result generics, (∀ p ∈ params, P p.type) → P result →
      P (.fn params result generics))
    (option : ∀ inner, P inner → P (.option inner)) (t : Ty) : P t := by
  -- The parts of a type are smaller than the type, so the induction is on a bound.
  have below : ∀ n t, sizeOf t < n → P t := by
    intro n
    induction n with
    | zero => exact fun t ht => absurd ht (Nat.not_lt_zero _)
    | succ n ih =>
      intro t ht
      cases t with
      | prim name cls => exact prim name cls
      | var param => exact var param
      | undet stamp => exact undet stamp
      | tuple elems =>
        rw [Ty.tuple.sizeOf_spec] at ht
        refine tuple elems fun t h => ih t ?_
        have := List.sizeOf_lt_of_mem h
        omega
      | array elem length =>
        rw [Ty.array.sizeOf_spec] at ht
        exact array elem length (ih elem (by omega))
      | struct decl typeArgs natArgs =>
        rw [Ty.struct.sizeOf_spec] at ht
        refine struct decl typeArgs natArgs fun t h => ih t ?_
        have := List.sizeOf_lt_of_mem h
        omega
      | fn params result generics =>
        rw [Ty.fn.sizeOf_spec] at ht
        refine fn params result generics (fun p h => ih p.type ?_) (ih result (by omega))
        have := List.sizeOf_lt_of_mem h
        have : sizeOf p.type < sizeOf p := by cases p; simp +arith
        omega
      | option inner =>
        rw [Ty.option.sizeOf_spec] at ht
        exact option inner (ih inner (by omega))
  exact below _ t (Nat.lt_succ_self _)

/-! ## Skeletons -/

mutual

/-- A type without what equality does not look at: the classes of leaves, the bounds of type
    variables and what is declared of structs. -/
def skeleton : Ty → Ty
  | .prim name _ => .prim name .copyable
  | .var p => .var ⟨p.name, false, false⟩
  | .undet stamp => .undet stamp
  | .tuple elems => .tuple (skeletonAll elems)
  | .array elem length => .array elem.skeleton length
  | .struct decl typeArgs natArgs => .struct ⟨decl.name, {}, []⟩ (skeletonAll typeArgs) natArgs
  | .fn params result generics => .fn (skeletonParams params) result.skeleton generics
  | .option inner => .option inner.skeleton

/-- The same for some types. -/
def skeletonAll : List Ty → List Ty
  | [] => []
  | t :: ts => t.skeleton :: skeletonAll ts

/-- The same for the parameters of a function type. -/
def skeletonParams : List ParamType → List ParamType
  | [] => []
  | ⟨t, ownership⟩ :: ps => ⟨t.skeleton, ownership⟩ :: skeletonParams ps

end

/-- What equality sees of a parameter. -/
def skeletonParam (p : ParamType) : ParamType := ⟨p.type.skeleton, p.ownership⟩

@[simp] theorem skeletonAll_eq_map (ts : List Ty) : skeletonAll ts = ts.map skeleton :=
  companion_eq_map rfl (fun _ _ => rfl) ts

@[simp] theorem skeletonParams_eq_map (ps : List ParamType) :
    skeletonParams ps = ps.map skeletonParam := by
  refine companion_eq_map rfl ?_ ps
  rintro ⟨t, ownership⟩ ps
  rfl

mutual

theorem equal_iff : (l r : Ty) → (l.equal r ↔ l.skeleton = r.skeleton)
  | .prim _ _, r => by cases r <;> simp [equal, skeleton]
  | .var _, r => by cases r <;> simp [equal, skeleton]
  | .undet _, r => by cases r <;> simp [equal, skeleton]
  | .tuple ls, r => by
    cases r with
    | tuple rs => simpa [equal, skeleton] using equalAll_iff ls rs
    | _ => simp [equal, skeleton]
  | .array l n, r => by
    cases r with
    | array r m => simp [equal, skeleton, equal_iff l r, and_comm]
    | _ => simp [equal, skeleton]
  | .struct d ls ns, r => by
    cases r with
    | struct d' rs ms => simp [equal, skeleton, equalAll_iff ls rs, and_assoc, and_comm]
    | _ => simp [equal, skeleton]
  | .fn ls l g, r => by
    cases r with
    | fn rs r g' =>
      simp only [equal, Bool.and_eq_true, decide_eq_true_eq, equalParams_iff ls rs, equal_iff l r,
        skeleton, skeletonParams_eq_map, fn.injEq]
      exact ⟨fun ⟨⟨hg, hp⟩, hr⟩ => ⟨hp, hr, hg⟩, fun ⟨hp, hr, hg⟩ => ⟨⟨hg, hp⟩, hr⟩⟩
    | _ => simp [equal, skeleton]
  | .option l, r => by
    cases r with
    | option r => simp [equal, skeleton, equal_iff l r]
    | _ => simp [equal, skeleton]

theorem equalAll_iff : (ls rs : List Ty) → (equalAll ls rs ↔ ls.map skeleton = rs.map skeleton)
  | [], rs => by cases rs <;> simp [equalAll]
  | l :: ls, rs => by
    cases rs with
    | nil => simp [equalAll]
    | cons r rs => simp [equalAll, equal_iff l r, equalAll_iff ls rs]

theorem equalParams_iff : (ls rs : List ParamType) →
    (equalParams ls rs ↔ ls.map skeletonParam = rs.map skeletonParam)
  | [], rs => by cases rs <;> simp [equalParams]
  | ⟨l, o⟩ :: ls, rs => by
    cases rs with
    | nil => simp [equalParams]
    | cons r rs =>
      obtain ⟨r, o'⟩ := r
      simp only [equalParams, Bool.and_eq_true, decide_eq_true_eq, equal_iff l r,
        equalParams_iff ls rs, List.map_cons, List.cons.injEq, skeletonParam, ParamType.mk.injEq]
      exact ⟨fun ⟨⟨ho, ht⟩, hs⟩ => ⟨⟨ht, ho⟩, hs⟩, fun ⟨⟨ht, ho⟩, hs⟩ => ⟨⟨ho, ht⟩, hs⟩⟩

end

theorem equal_refl (t : Ty) : t.equal t := (equal_iff t t).mpr rfl

theorem equal_symm {l r : Ty} (h : l.equal r) : r.equal l :=
  (equal_iff r l).mpr ((equal_iff l r).mp h).symm

theorem equal_trans {l m r : Ty} (h : l.equal m) (h' : m.equal r) : l.equal r :=
  (equal_iff l r).mpr (((equal_iff l m).mp h).trans ((equal_iff m r).mp h'))

/-! ## Replacing -/

theorem skeleton_subst (S : Substitution) (t : Ty) :
    (t.subst S).skeleton = (t.skeleton.subst S).skeleton := by
  induction t with
  | prim | var | undet => simp [skeleton]
  | tuple elems ih =>
    simpa [skeleton] using ih
  | array elem length ih => simpa [skeleton] using ih
  | struct decl typeArgs natArgs ih => simpa [skeleton] using ih
  | fn params result generics ihp ihr =>
    simp only [subst_fn, skeleton, skeletonParams_eq_map, List.map_map, fn.injEq, ihr, and_true]
    exact List.map_congr_left fun p hp => by simp [skeletonParam, ParamType.subst, ihp p hp]
  | option inner ih => simpa [skeleton] using ih

theorem equal_subst (S : Substitution) {l r : Ty} (h : l.equal r) :
    (l.subst S).equal (r.subst S) := by
  rw [equal_iff] at h ⊢
  rw [skeleton_subst, h, ← skeleton_subst]

theorem eq_tuple_of_equal {t : Ty} {elems : List Ty} (h : t.equal (.tuple elems)) :
    ∃ elems', t = .tuple elems' ∧ elems'.map skeleton = elems.map skeleton := by
  cases t with
  | tuple elems' =>
    rw [equal] at h
    exact ⟨elems', rfl, (equalAll_iff elems' elems).mp h⟩
  | _ => simp [equal] at h

end Ty

end QuantumStatics
