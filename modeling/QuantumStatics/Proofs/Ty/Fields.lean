/-
  Fields of struct types that are rewritten.

  The fields of a struct type are those of its declaration with its arguments put in.  Later the
  struct type is rewritten, by what inference finds out or by the arguments of the definition that
  mentions it, and with it the types of its fields that have been read before.

  * `fields_commute_with_rewriting`: the fields of the rewritten struct type are its rewritten
    fields.
-/
import QuantumStatics.Proofs.Ty.Capture

namespace QuantumStatics

/-- The fields of a struct type, with its arguments put in. -/
def Ty.fields : Ty → Except Defect (List Field)
  | .struct decl typeArgs natArgs => decl.instantiateFields typeArgs natArgs
  | _ => .ok []

/-- Rewrites the type of a field. -/
def Field.retype (rewrite : Ty → Ty) (f : Field) : Field := ⟨f.name, rewrite f.type⟩

/-- The fields of a declaration mention nothing but its parameters. -/
def StructDecl.SelfContained (d : StructDecl) : Prop :=
  ∀ f ∈ d.fields, ∀ v ∈ f.type.vars, v.boundBy d.params

instance (d : StructDecl) : Decidable d.SelfContained :=
  inferInstanceAs (Decidable (∀ f ∈ d.fields, ∀ v ∈ f.type.vars, v.boundBy d.params))

instance (t : Ty) : Decidable t.Simple :=
  inferInstanceAs (Decidable (∀ u ∈ t.subterms, u.binder = {}))

namespace StructDecl

variable {d : StructDecl} {types : List Ty} {nats : List NatTerm}

theorem instantiateFields_eq_ok (ht : types.length = d.params.types.length)
    (hn : nats.length = d.params.nats.length) :
    d.instantiateFields types nats =
      .ok (d.fields.map (·.retype (Instantiation.pair d.params types nats).apply)) :=
  if_pos ⟨ht, hn⟩

/-- **The fields of a struct type follow its arguments when they are instantiated**, if its
    declaration mentions nothing else and captures none of them. -/
theorem instantiateFields_inst (own : d.SelfContained)
    (spares : ∀ f ∈ d.fields, (Instantiation.pair d.params types nats).Spares f.type)
    {fields : List Field} (h : d.instantiateFields types nats = .ok fields) (I : Instantiation) :
    d.instantiateFields (types.map (Ty.inst I)) (nats.map (NatTerm.inst I)) =
      .ok (fields.map (·.retype (Ty.inst I))) := by
  unfold instantiateFields at h ⊢
  split at h
  · rename_i hlen
    cases h
    rw [List.length_map, List.length_map, if_pos hlen, List.map_map]
    refine congrArg Except.ok (List.map_congr_left fun f hf => ?_)
    rw [Function.comp_apply, Field.retype, Instantiation.apply_eq, Instantiation.apply_eq,
      Ty.inst_inst_of_spares (spares f hf) fun v hv =>
        Instantiation.chainsAt_pair I hlen.1 hlen.2 (own f hf v hv)]
  · cases h

theorem SelfContained.determined (own : d.SelfContained) :
    ∀ f ∈ d.fields, ∀ v ∈ f.type.vars, ¬ v.isUndetermined := by
  intro f hf v hv undetermined
  have bound := own f hf v hv
  cases v with
  | type | nat => cases undetermined
  | undetType | undetNat => cases bound

end StructDecl

/-- **Fields commute with rewriting.**  A struct type over a declaration that mentions nothing but
    its parameters has fields.  What a substitution makes of it has as fields what the substitution
    makes of the fields, and if the field types contain no generic function type, so it is with
    every instantiation, whether or not it has arguments for parameters of the declaration. -/
theorem fields_commute_with_rewriting {d : StructDecl} (types : List Ty) (nats : List NatTerm)
    (own : d.SelfContained) (ht : types.length = d.params.types.length)
    (hn : nats.length = d.params.nats.length) :
    ∃ fields, (Ty.struct d types nats).fields = .ok fields ∧
      (∀ S : Substitution,
        (S.apply (.struct d types nats)).fields = .ok (fields.map (·.retype S.apply))) ∧
      ((∀ f ∈ d.fields, f.type.Simple) → ∀ I : Instantiation,
        (I.apply (.struct d types nats)).fields = .ok (fields.map (·.retype I.apply))) := by
  refine ⟨_, StructDecl.instantiateFields_eq_ok ht hn, fun S => ?_, fun simple I => ?_⟩
  · rw [funext S.apply_eq, Ty.subst_struct]
    exact StructDecl.instantiateFields_subst S own.determined (StructDecl.instantiateFields_eq_ok ht hn)
  · rw [funext I.apply_eq, Ty.inst_struct]
    exact StructDecl.instantiateFields_inst own
      (fun f hf => Instantiation.spares_of_simple _ (simple f hf)) (StructDecl.instantiateFields_eq_ok ht hn) I

/-- The declaration `struct Box[T]: content: T`. -/
def boxDecl : StructDecl where
  name := "Box"
  params := { types := [{ name := "T" }] }
  fields := [⟨"content", .var { name := "T" }⟩]

/-- The declaration `struct Grid[T, U; N]: cells: array[Box[T], N], corner: (U, T?)`. -/
def gridDecl : StructDecl where
  name := "Grid"
  params := { types := [{ name := "T" }, { name := "U" }], nats := ["N"] }
  fields := [⟨"cells", .array (.struct boxDecl [.var { name := "T" }] []) (.var "N")⟩,
    ⟨"corner", .tuple [.var { name := "U" }, .option (.var { name := "T" })]⟩]

/-- The arguments `int` for `T`, `bool` for `U` and `3` for `N`. -/
def gridArgs : Instantiation where
  types := (Dict.insert ∅ "T" .int).insert "U" .bool
  nats := .insert ∅ "N" (.const 3)

theorem swapped_grid_fields_commute :
    gridDecl.SelfContained ∧ (∀ f ∈ gridDecl.fields, f.type.Simple) ∧
      ∃ fields, (Ty.struct gridDecl [.var { name := "U" }, .var { name := "T" }] [.var "N"]).fields =
          .ok fields ∧
        (gridArgs.apply (.struct gridDecl [.var { name := "U" }, .var { name := "T" }]
          [.var "N"])).fields = .ok (fields.map (·.retype gridArgs.apply)) ∧
        fields.map (·.retype gridArgs.apply) =
          [⟨"cells", .array (.struct boxDecl [.bool] []) (.const 3)⟩,
            ⟨"corner", .tuple [.int, .option .bool]⟩] := by
  have own : gridDecl.SelfContained := by decide
  have simple : ∀ f ∈ gridDecl.fields, f.type.Simple := by decide
  obtain ⟨fields, h, -, commute⟩ := fields_commute_with_rewriting
    [.var { name := "U" }, .var { name := "T" }] [.var "N"] own rfl rfl
  refine ⟨own, simple, fields, h, commute simple gridArgs, ?_⟩
  cases h
  cbv

end QuantumStatics
