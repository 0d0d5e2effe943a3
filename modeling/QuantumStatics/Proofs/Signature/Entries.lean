/-
  The entries of a table.

  An entry is added for a name that has none, and then it stays.  Which names are still free decides
  what can be registered: `SignatureTable.Accepts T n` says that nothing is registered under `n`.

  * `Signature.same_iff`, `Signature.same_refl`: when two signatures declare the same interface;
  * `SignatureTable.add_preserves`, `SignatureTable.addStruct_preserves`: registering keeps what new
    entries keep;
  * `SignatureTable.add_of_accepts`, `SignatureTable.addStruct_of_accepts`: what has a new name is
    registered.
-/
import QuantumStatics.Proofs.Analysis
import QuantumStatics.Proofs.Signature.Registered
import QuantumStatics.Proofs.Ty.Equality

namespace QuantumStatics

/-! ## Equal signatures -/

namespace Signature

theorem sameParams_iff : ∀ ps qs : List Param, sameParams ps qs ↔
    ps.map (fun p => (p.type.skeleton, p.ownership)) =
      qs.map fun p => (p.type.skeleton, p.ownership)
  | [], [] => by simp [sameParams]
  | [], _ :: _ | _ :: _, [] => by simp [sameParams]
  | p :: ps, q :: qs => by
    simp only [sameParams, Bool.and_eq_true, decide_eq_true_eq, Ty.equal_iff,
      sameParams_iff ps qs, List.map_cons, List.cons.injEq, Prod.mk.injEq]
    grind

theorem same_iff {s s' : Signature} : s.same s' ↔ s.name = s'.name ∧ s.generics = s'.generics ∧
    s.result.equal s'.result ∧ sameParams s.params s'.params := by
  simp only [same, Bool.and_eq_true, decide_eq_true_eq, and_assoc]

theorem same_refl (s : Signature) : s.same s :=
  same_iff.mpr ⟨rfl, rfl, Ty.equal_refl _, (sameParams_iff ..).mpr rfl⟩

end Signature

/-! ## Entries -/

namespace SignatureTable

variable {α β : Type} {P : SignatureTable → Prop} {T T' : SignatureTable} {s : Signature}
  {d : StructDecl} {n : String} {location : Location}

theorem Preserves.bindOf {x : Registration α} {f : α → Registration β} (hx : Preserves P x)
    (hf : ∀ a T T', x T = .ok a T' → Preserves P (f a)) : Preserves P (x >>= f) := by
  intro T h
  have first := hx T h
  unfold after at first ⊢
  cases hT : x T with
  | ok a T' =>
    rw [hT] at first
    rw [bind_of_ok hT]
    exact hf a T T' hT T' first
  | error e T' =>
    rw [hT] at first
    rw [bind_of_error hT]
    exact first

theorem Preserves.ofExcept {x : Except Failure α} :
    Preserves P (Analysis.ofExcept x : Registration α) := by
  cases x with
  | ok a => exact .pure
  | error e => exact fun _ h => h

theorem Preserves.forM {x : α → Registration Unit} {l : List α}
    (h : ∀ a ∈ l, Preserves P (x a)) : Preserves P (l.forM x) := by
  induction l with
  | nil => exact .pure
  | cons a l ih =>
    exact (h a List.mem_cons_self).bind fun _ => ih fun b hb => h b (List.mem_cons_of_mem a hb)

theorem Preserves.of_ok {x : Registration α} (h : Preserves P x) {a : α} (hT : P T)
    (hx : x T = .ok a T') : P T' := by
  have := h T hT
  rwa [after, hx] at this

theorem checkOpen_preserves (name : String) : Preserves P (checkOpen name) := by
  refine .get fun T _ => ?_
  split
  · exact .defect
  · exact .pure

theorem add_preserves
    (entry : ∀ T, P T → T.find? s.name = none →
      P { T with signatures := T.signatures.insert s.name s }) : Preserves P (add s) := by
  refine (checkOpen_preserves s.name).bind fun _ => .get fun T hT => ?_
  split
  · split
    · exact .pure
    · exact .reject
  · next free => exact .set (entry T hT free)

theorem addStruct_preserves (constructor : Preserves P (add (d.constructorSignature location)))
    (entry : ∀ T, P T → P { T with structs := T.structs.insert d.name d }) :
    Preserves P (addStruct d location) := by
  refine (checkOpen_preserves d.name).bind fun _ => .get fun T _ => ?_
  split
  · split
    · exact .pure
    · exact .reject
  · exact constructor.bind fun _ => .modify entry

theorem add_keeps (s' : Signature) : Preserves (fun T => T.find? n = some s) (add s') := by
  refine add_preserves fun T hT free => ?_
  rw [find?, Dict.get?_insert, if_neg]
  · exact hT
  · rintro rfl
    cases hT.symm.trans free

theorem addStruct_keeps (d : StructDecl) (location : Location) :
    Preserves (fun T => T.find? n = some s) (addStruct d location) :=
  addStruct_preserves (add_keeps _) fun _ hT => hT

theorem find?_of_add (h : add s T = .ok () T') :
    ∃ s', T'.find? s.name = some s' ∧ s'.generics = s.generics := by
  obtain ⟨_, T₁, -, h⟩ := bind_eq_ok.mp h
  obtain ⟨_, T₂, hget, h⟩ := bind_eq_ok.mp h
  obtain ⟨rfl, rfl⟩ := get_eq_ok.mp hget
  cases found : T₁.find? s.name with
  | none =>
    rw [found] at h
    obtain rfl := set_eq_ok.mp h
    exact ⟨s, by rw [find?, Dict.get?_insert, if_pos rfl], rfl⟩
  | some earlier =>
    rw [found] at h
    dsimp only at h
    split at h
    · next same =>
      obtain ⟨-, rfl⟩ := pure_eq_ok.mp h
      simp only [Signature.same, Bool.and_eq_true, decide_eq_true_eq] at same
      exact ⟨earlier, found, same.1.1.2⟩
    · exact absurd h reject_ne_ok

/-- A table with a signature. -/
def withSignature (T : SignatureTable) (s : Signature) : SignatureTable :=
  { T with signatures := T.signatures.insert s.name s }

/-- A table with a struct and its constructor. -/
def withStruct (T : SignatureTable) (d : StructDecl) (location : Location) : SignatureTable :=
  { T.withSignature (d.constructorSignature location) with
    structs := T.structs.insert d.name d }

/-- A name is new, and registration has not ended. -/
structure Accepts (T : SignatureTable) (name : String) : Prop where
  signature : T.find? name = none
  struct : T.findStruct? name = none
  unfinished : T.finalized = false

instance (T : SignatureTable) (n : String) : Decidable (T.Accepts n) :=
  decidable_of_iff ((T.find? n).isNone ∧ (T.findStruct? n).isNone ∧ T.finalized = false)
    ⟨fun ⟨signature, struct, unfinished⟩ =>
      ⟨Option.isNone_iff_eq_none.mp signature, Option.isNone_iff_eq_none.mp struct, unfinished⟩,
    fun h => ⟨Option.isNone_iff_eq_none.mpr h.signature, Option.isNone_iff_eq_none.mpr h.struct,
      h.unfinished⟩⟩

namespace Accepts

variable {T : SignatureTable} {n : String}

theorem withSignature (h : T.Accepts n) {s : Signature} (hn : n ≠ s.name) :
    (T.withSignature s).Accepts n where
  signature := by
    rw [SignatureTable.withSignature, find?, Dict.get?_insert, if_neg hn]
    exact h.signature
  struct := h.struct
  unfinished := h.unfinished

theorem withStruct (h : T.Accepts n) {d : StructDecl} {location : Location} (hn : n ≠ d.name) :
    (T.withStruct d location).Accepts n where
  signature := (h.withSignature (s := d.constructorSignature location) hn).signature
  struct := by
    rw [SignatureTable.withStruct, findStruct?, Dict.get?_insert, if_neg hn]
    exact h.struct
  unfinished := h.unfinished

end Accepts

theorem checkOpen_of_accepts (h : T.Accepts n) : checkOpen n T = .ok () T := by
  have unfinished := h.unfinished
  change (if T.finalized then _ else _ : Registration Unit) T = _
  rw [unfinished]
  rfl

theorem add_of_accepts (h : T.Accepts s.name) : add s T = .ok () (T.withSignature s) := by
  refine (bind_of_ok (checkOpen_of_accepts h)).trans ?_
  have hget : (get : Registration SignatureTable) T = .ok T T := rfl
  rw [bind_of_ok hget, h.signature]
  rfl

theorem addStruct_of_accepts (h : T.Accepts d.name) :
    addStruct d location T = .ok () (T.withStruct d location) := by
  refine (bind_of_ok (checkOpen_of_accepts h)).trans ?_
  have hget : (get : Registration SignatureTable) T = .ok T T := rfl
  rw [bind_of_ok hget, h.struct]
  exact bind_of_ok (add_of_accepts h)

theorem findStruct?_finalize (T : SignatureTable) (n : String) :
    T.finalize.findStruct? n = T.findStruct? n := rfl

theorem findStruct?_withStruct (T : SignatureTable) (d : StructDecl) (location : Location) :
    (T.withStruct d location).findStruct? d.name = some d := by
  rw [withStruct, findStruct?, Dict.get?_insert, if_pos rfl]

theorem mem_of_findStruct?_foldl {ds : List StructDecl} (none : T.structs.isEmpty)
    (h : (ds.foldl (fun T d => T.withStruct d {}) T).findStruct? n = some d) : d ∈ ds := by
  have added : ∀ {T : SignatureTable},
      (ds.foldl (fun T d => T.withStruct d {}) T).findStruct? n = some d →
        d ∈ ds ∨ T.findStruct? n = some d := by
    clear h none
    induction ds with
    | nil => exact .inr
    | cons d' ds ih =>
      intro T h
      rcases ih h with mem | h
      · exact .inl (List.mem_cons_of_mem d' mem)
      · change (T.structs.insert d'.name d').get? n = some d at h
        rw [Dict.get?_insert] at h
        split at h
        · cases h
          exact .inl List.mem_cons_self
        · exact .inr h
  rcases added h with mem | h
  · exact mem
  · rw [findStruct?, Dict.get?_of_isEmpty none] at h
    cases h

end SignatureTable

end QuantumStatics
