/-
  Classes and texts.

  The memory of classes is asked with the text of a type.  The text of a closed type tells its
  outermost form and the texts of its components, and it tells the name of a struct, but not its
  fields.  So it tells the class among types in which there is one struct of a name.
-/
import QuantumStatics.Proofs.Ty.Text

namespace QuantumStatics

/-- In a family of types names can be read, and there is one struct of a name.  The family comes
    with what its types are built from, fields included. -/
structure Nominal (P : Ty → Prop) : Prop where
  legible {t : Ty} : P t → t.Legible
  component {t c : Ty} : P t → c ∈ t.components → P c
  single {d d' : StructDecl} {ts ts' : List Ty} {ns ns' : List NatTerm} :
    P (.struct d ts ns) → P (.struct d' ts' ns') → d.name = d'.name → d = d'
  fields {d : StructDecl} {ts : List Ty} {ns : List NatTerm} {fs : List Field} :
    P (.struct d ts ns) → d.instantiateFields ts ns = .ok fs → ∀ f ∈ fs, P f.type

namespace Nominal

variable {P : Ty → Prop}

theorem parts (hP : Nominal P) {t : Ty} (h : P t) {c : OwnershipClass} {ps : List Ty}
    (hp : t.parts = .ok (c, ps)) : ∀ u ∈ ps, P u := by
  cases t with
  | prim | var | fn =>
    cases hp
    exact nofun
  | undet => cases hp
  | tuple | array | option =>
    cases hp
    exact fun u hu => hP.component h hu
  | struct decl typeArgs natArgs =>
    rw [Ty.parts] at hp
    cases hf : decl.instantiateFields typeArgs natArgs with
    | error d =>
      rw [hf] at hp
      cases hp
    | ok fields =>
      rw [hf] at hp
      cases hp
      exact List.forall_mem_map.mpr (hP.fields h hf)

theorem atMost_of_text_eq (hP : Nominal P) {t u : Ty} (ht : P t) (hu : P u) (ct : t.closed)
    (cu : u.closed) (h : t.text = u.text) : t.AtMost u := by
  induction t using Ty.componentInduction generalizing u with
  | step t ih =>
    have step : t.binder = {} → u.binder = {} → ∀ c ∈ t.components, ∀ c' ∈ u.components,
        c.text = c'.text → c.AtMost c' := fun hb hb' c hc c' hc' =>
      ih c hc (hP.component ht hc) (hP.component hu hc') (Ty.closed_of_component ct hb hc)
        (Ty.closed_of_component cu hb' hc')
    cases Ty.sameForm_of_text_eq (hP.legible ht) (hP.legible hu) ct cu h with
    | prim => exact .refl _
    | tuple texts =>
      obtain ⟨l, rfl, rfl, alike⟩ := exists_pairs_of_map_eq texts
      exact Ty.atMost_of_parts rfl rfl fun x hx => step rfl rfl _ (List.mem_map_of_mem hx) _
        (List.mem_map_of_mem hx) (alike x hx)
    | array length texts =>
      exact Ty.atMost_of_part rfl rfl (step rfl rfl _ List.mem_cons_self _ List.mem_cons_self texts)
    | option texts =>
      exact Ty.atMost_of_part rfl rfl (step rfl rfl _ List.mem_cons_self _ List.mem_cons_self texts)
    | fn =>
      -- Functions are copyable, so their texts need not tell more.
      intro c hc
      rw [Ty.classify_of_parts rfl] at hc ⊢
      exact ⟨c, hc, c.le_refl⟩
    | struct natArgs name texts =>
      obtain rfl := hP.single ht hu name
      obtain ⟨l, rfl, rfl, alike⟩ := exists_pairs_of_map_eq texts
      have args : ∀ x ∈ l, x.1.AtMost x.2 := fun x hx => step rfl rfl _ (List.mem_map_of_mem hx) _
        (List.mem_map_of_mem hx) (alike x hx)
      refine Ty.atMost_struct (by simp) rfl fun f _ => Ty.atMost_inst f.type fun q _ => ?_
      exact Ty.varIn_pair_atMost args q

/-- **The text of a closed type tells its class**, if there is one struct of a name. -/
theorem closedTextTells (hP : Nominal P) : ClosedTextTells P where
  parts ht hp := hP.parts ht hp
  classes {t u c} ht hu ct cu text hc := by
    obtain ⟨c', hc', le⟩ := hP.atMost_of_text_eq hu ht cu ct text.symm c hc
    obtain ⟨c₁, hc₁, le'⟩ := hP.atMost_of_text_eq ht hu ct cu text c' hc'
    cases hc.symm.trans hc₁
    rw [hc', OwnershipClass.le_antisymm le le']

end Nominal

end QuantumStatics
