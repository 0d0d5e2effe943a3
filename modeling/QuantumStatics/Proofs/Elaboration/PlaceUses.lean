/-
  Places are read exactly if they are copyable.

  A place of a checked function is read only if its type is copyable, and is otherwise used as what
  it stands in says.  Of a place that starts from a local name the converse holds too, since the
  types of bindings are determined where they are mentioned: it is read if its type is copyable.

  * `place_uses_follow_classes`: the use of each place of a checked function;
  * `element_of_nothing_not_read`: a copyable element of an empty array is given away.
-/
import QuantumStatics.Proofs.Elaboration.BodyAccounts
import QuantumStatics.Proofs.Elaboration.Vocabulary
import QuantumStatics.Proofs.Program.Memory

namespace QuantumStatics

open Typed (Expr UseKind)

/-! ## Tables -/

theorem Ty.Regular.subst {T : SignatureTable} {S : Substitution} {t : Ty} (h : t.Regular T)
    (types : ∀ {k u}, S.types.get? k = some u → u.Regular T)
    (nats : ∀ {k n}, S.nats.get? k = some n → n.Legible) : (t.subst S).Regular T := by
  have nat : ∀ {n : NatTerm}, n.Legible → (n.subst S).Legible := by
    intro n hn
    cases n with
    | const | var => exact hn
    | undet k =>
      rw [NatTerm.subst_undet]
      cases hk : S.nats.get? k with
      | none => trivial
      | some m => exact nats hk
  have heads : ∀ u ∈ (t.subst S).subterms, u.LegibleHead ∧
      ∀ d ts ns, u = .struct d ts ns → T.findStruct? d.name = some d := by
    refine forall_subterms_subst (fun hu v hv => ⟨(types hu).legible v hv, fun d ts ns same =>
      (types hu).registered d ts ns (same ▸ hv)⟩) fun u hu unbound => ?_
    have head := h.legible u hu
    cases u with
    | undet k => simp [unbound k rfl, LegibleHead]
    | array elem length =>
      rw [subst_array]
      exact ⟨nat head, by simp⟩
    | struct d ts ns =>
      rw [subst_struct]
      refine ⟨⟨head.1, head.2.1, List.forall_mem_map.mpr fun n hn => nat (head.2.2 n hn)⟩, ?_⟩
      rintro _ _ _ ⟨⟩
      exact h.registered d ts ns hu
    | tuple | option => simp [LegibleHead]
    | _ => simpa [LegibleHead] using head
  exact ⟨fun u hu => (heads u hu).1, fun d ts ns hd => (heads _ hd).2 d ts ns rfl⟩

/-- A table in which signatures and fields have types over its own structs and the builtin leaf
    types, with nothing left to be inferred about a field. -/
structure SignatureTable.Regular (T : SignatureTable) : Prop where
  keyed : T.Keyed
  signatures {n : String} {s : Signature} : T.find? n = some s → s.EachType (Ty.Regular T)
  fields : ∀ d, T.findStruct? d.name = some d → ∀ f ∈ d.fields, f.type.Regular T ∧ f.type.Ground

namespace SignatureTable.Regular

variable {T : SignatureTable} (regular : T.Regular)

include regular

theorem nominal : Nominal (Ty.Regular T) :=
  nominal_regular fun d hd f hf => (regular.fields d hd f hf).1

theorem plain {d : StructDecl} {ts : List Ty} {ns : List NatTerm}
    (h : (Ty.struct d ts ns).Regular T) : d.plain := by
  refine List.all_eq_true.mpr fun f hf => ?_
  have ground := (regular.fields d (h.registered d ts ns (Ty.mem_subterms_self _)) f hf).2
  simp [Ty.ground_iff.mp ground]

/-- **Checking a body keeps to the structs of the table**, and to a memory that is right. -/
def upkeep (g : Generics) : Elaboration.Upkeep T g where
  declared := Ty.Regular T
  type := Ty.Regular T
  nat := NatTerm.Legible
  memo := ClassMemo.Plain (Ty.Regular T)
  stated h _ := h
  prim h := .of_components h (by simp) (List.forall_mem_nil _)
  undet := .of_components trivial (by simp) (List.forall_mem_nil _)
  natUndet := trivial
  const := trivial
  tuple h := .of_components trivial (by simp) h
  array h hn := .of_components hn (by simp) (List.forall_mem_singleton.mpr h)
  component h hu := h.component hu
  ownNats {t n} h hn := by
    have head := h.legible.head
    cases t with
    | array elem length => exact List.mem_singleton.mp hn ▸ head
    | struct d ts ns => exact head.2.2 n hn
    | _ => cases hn
  subst types nats h := h.subst types nats
  keyed := regular.keyed
  fnRef {n s} hs generic := by
    refine .of_components ?_ (by simp [Signature.functionType])
      (s.forall_components_functionType.mpr (regular.signatures hs))
    rw [Signature.functionType, s.generics_eq_of_isGeneric_eq_false generic]
    exact List.forall_mem_nil _
  signature {n s I} hs _ types nats := by
    obtain ⟨params, result⟩ := regular.signatures hs
    simp only [Instantiation.apply_eq]
    exact ⟨fun p hp => (params p hp).inst types nats, result.inst types nats⟩
  fields h hf := regular.nominal.fields h hf
  classify ht hm h := (hm.classify_eq_ok regular.nominal.closedTextTells ht h).2

end SignatureTable.Regular

theorem ClassMemo.Plain.of_grows {P : Ty → Prop} {m m' : ClassMemo} (h : m'.Plain P)
    (grows : m.Grows m') : m.Plain P :=
  fun t c ht closed known => h t c ht closed (grows _ _ known)

namespace Elaboration

open Check

variable {T : SignatureTable} {Γ : Scope} {H : Prop} {S : Substitution} {M : ClassMemo}
  {ss : List Source.Stmt} {f checked : Typed.Function} {e : Expr} {context use : UseKind}

/-! ## Places -/

theorem root?_subst (S : Substitution) : ∀ e : Expr, (e.subst S).root? = e.root?
  | .field _ _ object _ _ _ => root?_subst S object
  | .subscript _ _ indexed _ _ => root?_subst S indexed
  | .int _ _ _ | .float _ _ | .bool _ _ | .name _ _ _ _ | .natParam _ _ | .fnRef _ _ _
  | .tuple _ _ _ | .array _ _ _ | .call _ _ _ _ => rfl

theorem type_mem_parts (h : e.use?.isSome) : .type e.type ∈ e.parts := by
  cases e <;> cases h
  all_goals exact List.mem_cons_self

/-- **A place that starts from a name has a determined type when it is checked.** -/
theorem ground_of_root (regular : T.Regular) (known : BlockAccount Γ H S M ss checked.body) (hH : H)
    (types : ∀ {c e}, checked.Site c e → e.use?.isSome → (e.type.subst S).Regular T) {x : String} :
    ∀ {c : UseKind} {e : Expr}, checked.Site c e → e.root? = some x → e.type.Ground
  | _, .name _ _ _ _, site, _ => (known.site site).1 hH
  | _, .field _ _ object _ _ _, site, hx => by
    have within : checked.Site .borrow object :=
      Typed.Function.Site.operand site (List.mem_singleton_self _)
    have ground := ground_of_root regular known hH types within hx
    have place : object.use?.isSome := by cases object <;> first | rfl | cases hx
    have registered : object.type.Regular T :=
      Ty.subst_of_determined ground (S := S) ▸ types within place
    exact (known.site site).1 ground fun _ _ _ same => regular.plain (same ▸ registered)
  | _, .subscript _ _ indexed _ _, site, hx => by
    have within : checked.Site .borrow indexed :=
      Typed.Function.Site.operand site List.mem_cons_self
    exact (known.site site).1 (ground_of_root regular known hH types within hx)

/-- **Places are read exactly if they are copyable.**  Every expression of a checked function is
    given away or lent by what it stands in.  A place that is not read is used in that way, and one
    that is read is copyable.  A copyable place that starts from a name is read. -/
theorem place_uses_follow_classes (regular : T.Regular) {owner : Option StructDecl}
    {d : Source.FunctionDef} {memory memory' : CheckerMemory}
    (declared : d.EachType fun t => t.Regular T ∧ t.Ground)
    (plain : memory.memo.Plain (Ty.Regular T))
    (h : checkFunction T owner d memory = .ok f memory') :
    (∀ e ∈ f.nodes, ∃ context, f.Site context e) ∧
      ∀ context e use, f.Site context e → e.use? = some use →
        (context = .consume ∨ context = .borrow) ∧ (use = .read ∨ use = context) ∧
        (use = .read → e.type.classify = .ok .copyable) ∧
        ∀ x, e.root? = some x → e.type.classify = .ok .copyable → use = .read := by
  refine ⟨fun e he => Typed.Function.exists_site he, fun context e use site hu => ?_⟩
  obtain ⟨sig, -, -, signature, -⟩ := checkFunction_eq_ok h
  obtain ⟨-, memo, now, -⟩ := checkFunction_keeps signature (regular.upkeep sig.generics)
    (declared.mono fun _ h => h.1) plain h
  have params := (eachType_signatureOf Ty.ground_prim (declared.mono fun _ h => h.2) signature).1
  obtain ⟨checked, S, rfl, -, known⟩ := checkFunction_notes signature h
  have types : ∀ {c e}, checked.Site c e → e.use?.isSome → (e.type.subst S).Regular T := by
    intro c e site place
    have part := List.mem_map_of_mem (f := Typed.Part.subst S) (site.parts (type_mem_parts place))
    rw [← Typed.Function.parts_subst] at part
    exact now _ part
  obtain ⟨e, rfl, raw⟩ := Typed.Function.site_of_subst site
  rw [Expr.use?_subst] at hu
  rw [root?_subst, Expr.type_subst]
  have recorded := (known.site raw).use hu
  have given : context ≠ .read := by
    rcases Typed.Function.Site.context site with h | h <;> simp [h]
  refine ⟨Typed.Function.Site.context site, recorded.use_eq, ?_⟩
  rcases recorded with ⟨undetermined, rfl⟩ | ⟨m, m', c, grows, hc, rfl⟩
  · refine ⟨fun read => absurd read given, fun x hx _ => absurd ?_ undetermined⟩
    exact ground_of_root regular known params types raw hx
  · have class_ := ((memo.of_grows grows).classify_eq_ok regular.nominal.closedTextTells
      (types raw (hu ▸ rfl)) hc).1
    rw [class_]
    by_cases copyable : c = .copyable
    · simp [copyable]
    · simp [copyable, given]

/-- The table with nothing but the struct `wire`. -/
def wireTable : SignatureTable where
  structs := Dict.insert ∅ "Wire" wire

/-- The function `fn unwires(w: Wire @owned, n: int)` with the body `q = w.q` and `m = n`. -/
def unwires : Source.FunctionDef where
  location := { line := 1 }
  name := "unwires"
  params := [⟨"w", .struct wire [] [], .owned⟩, ⟨"n", .int, .borrowed⟩]
  result := none
  body := [
    .assign { line := 2 } "q" (.field { line := 2 } (.name { line := 2 } "w") "q") none,
    .assign { line := 3 } "m" (.name { line := 3 } "n") none]

theorem unwires_reads_copyable_places :
    wireTable.Regular ∧ (unwires.EachType fun t => t.Regular wireTable ∧ t.Ground) ∧
      ∃ f memory, checkFunction wireTable none unwires {} = .ok f memory ∧
        ∀ context e use x, f.Site context e → e.use? = some use → e.root? = some x →
          (use = .read ↔ e.type.classify = .ok .copyable) := by
  have leaf : ∀ {t : Ty}, t.LegibleHead → t.components = [] → (∀ d ts ns, t ≠ .struct d ts ns) →
      t.Regular wireTable := fun head none other =>
    .of_components head (fun d ts ns same => absurd same (other d ts ns)) (by simp [none])
  have wireType : (Ty.struct wire [] []).Regular wireTable := by
    refine .of_components ⟨(by decide : isName "Wire"), (by decide : reserved "Wire" = false), ?_⟩
      ?_ (List.forall_mem_nil _)
    · exact List.forall_mem_nil _
    · rintro _ _ _ ⟨⟩
      simp [SignatureTable.findStruct?, wireTable, Dict.get?_insert, wire]
  have regular : wireTable.Regular := by
    refine ⟨fun h => ?_, fun h => ?_, fun d hd f hf => ?_⟩
    · simp [SignatureTable.find?, wireTable] at h
    · simp [SignatureTable.find?, wireTable] at h
    · obtain ⟨-, rfl⟩ : d.name = "Wire" ∧ wire = d := by
        simpa [SignatureTable.findStruct?, wireTable, Dict.get?_insert] using hd
      cases List.mem_singleton.mp hf
      exact ⟨leaf rfl rfl (by simp [Ty.qubit]), Ty.ground_prim⟩
  have declared : unwires.EachType fun t => t.Regular wireTable ∧ t.Ground := by
    refine ⟨?_, ?_, ?_⟩
    · simp only [unwires, List.forall_mem_cons]
      exact ⟨⟨wireType, Ty.ground_iff.mpr rfl⟩, ⟨leaf rfl rfl (by simp [Ty.int]), Ty.ground_prim⟩,
        List.forall_mem_nil _⟩
    · simp [unwires]
    · simp [unwires, Source.Stmt.EachTypeAll, Source.Stmt.EachType, Source.Expr.EachType]
  have run : ∃ f memory, checkFunction wireTable none unwires {} = .ok f memory := ⟨_, _, by cbv⟩
  obtain ⟨f, memory, h⟩ := run
  refine ⟨regular, declared, f, memory, h, fun context e use x site hu hx => ?_⟩
  obtain ⟨-, -, read, copyable⟩ := (place_uses_follow_classes regular declared
    (ClassMemo.plain_empty _) h).2 context e use site hu
  exact ⟨read, copyable x hx⟩

/-- The function `fn nothing()` with the body `x: int = [][0]`. -/
def takesNothing : Source.FunctionDef where
  location := { line := 1 }
  name := "nothing"
  params := []
  result := none
  body := [.assign { line := 2 } "x" (.subscript { line := 2 } (.array { line := 2 } [])
    (.int { line := 2 } 0)) (some .int)]

/-- **An element of an empty array is given away**, also if it is copyable: its type is not
    determined when its use is recorded. -/
theorem element_of_nothing_not_read :
    ∃ f memory, checkFunction {} none takesNothing {} = .ok f memory ∧
      ∃ e ∈ f.nodes, e.use? = some .consume ∧ e.type.classify = .ok .copyable := by
  have run : ∃ f memory, checkFunction {} none takesNothing {} = .ok f memory ∧
      f.nodes.head?.map (fun e => (e.use?, e.type)) = some (some .consume, .int) :=
    ⟨_, _, by cbv, by cbv⟩
  obtain ⟨f, memory, h, first⟩ := run
  obtain ⟨e, he, used⟩ := Option.map_eq_some_iff.mp first
  obtain ⟨hu, ht⟩ := Prod.mk.inj used
  exact ⟨f, memory, h, e, List.mem_of_head? he, hu, by rw [ht]; cbv⟩

end Elaboration

end QuantumStatics
