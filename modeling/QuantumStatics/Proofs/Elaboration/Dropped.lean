/-
  Only dropped values are left undetermined.

  By the end of a statement, the generic arguments of its calls have to be determined.  Nothing
  asks the same of an array literal, whose elements get a fresh type.  So in the end something may
  be left to be inferred about an expression, but then it shows in the type of the expression
  (`Final.groundIn`).

  An expression that stands as a statement drops its value, and nothing asks for the type of that
  value to be determined.  Everything else in a body becomes ground: a bound value and the variable
  of a loop have to be determined, a condition and a returned value have a ground type, and so do
  the arguments of calls.
-/
import QuantumStatics.Proofs.Elaboration.BodyAccounts
import QuantumStatics.Proofs.Ty.Composition

namespace QuantumStatics

/-! ## Typed programs -/

namespace Typed

/-- A part mentions nothing that is to be inferred.  The generic arguments of a call are parts of
    their own. -/
def Part.Ground : Part → Prop
  | .type t => t.Ground
  | .nat n => n.Ground
  | .natParam _ | .call _ _ => True

/-- A part is ground, with what has been found out put in. -/
def Part.GroundIn (S : Substitution) (p : Part) : Prop := (p.subst S).Ground

/-- The arguments of a call of a local binding have types that become ground. -/
def Expr.LocalsIn (S : Substitution) : Expr → Prop
  | .call _ _ c args => c.kind = .localValue → ∀ e ∈ args, e.type.GroundIn S
  | _ => True

mutual

/-- The values that expressions standing as statements drop, at any depth. -/
def Stmt.dropped : Stmt → List Expr
  | .expr _ value => [value]
  | .branch _ _ thenBody elseBody => Stmt.droppedAll thenBody ++ Stmt.droppedAll elseBody
  | .whileLoop _ _ body | .forLoop _ _ _ _ body => Stmt.droppedAll body
  | .assign _ _ _ | .tupleAssign _ _ _ | .ret _ _ | .breakLoop _ | .continueLoop _ => []

/-- The same for some statements. -/
def Stmt.droppedAll : List Stmt → List Expr
  | [] => []
  | s :: ss => s.dropped ++ Stmt.droppedAll ss

end

/-- The values that a function drops. -/
def Function.dropped (f : Function) : List Expr := Stmt.droppedAll f.body

variable {S : Substitution}

mutual

theorem Stmt.dropped_subst : ∀ s : Stmt, (s.subst S).dropped = s.dropped.map (Expr.subst S)
  | .expr _ _ | .assign _ _ _ | .tupleAssign _ _ _ | .ret _ _ | .breakLoop _
  | .continueLoop _ => rfl
  | .branch _ _ thenBody elseBody => by
    simp only [subst, dropped, List.map_append, Stmt.droppedAll_substAll thenBody,
      Stmt.droppedAll_substAll elseBody]
  | .whileLoop _ _ body | .forLoop _ _ _ _ body => by
    simp only [subst, dropped, Stmt.droppedAll_substAll body]

theorem Stmt.droppedAll_substAll : ∀ ss : List Stmt,
    Stmt.droppedAll (Stmt.substAll S ss) = (Stmt.droppedAll ss).map (Expr.subst S)
  | [] => rfl
  | s :: ss => by
    simp only [substAll, droppedAll, List.map_append, Stmt.dropped_subst s,
      Stmt.droppedAll_substAll ss]

end

mutual

theorem Stmt.bound_subst : ∀ s : Stmt, (s.subst S).bound = s.bound.map (Ty.subst S)
  | .assign _ _ _ | .tupleAssign _ _ _ => by
    simp only [subst, bound, Expr.type_subst, List.map_cons, List.map_nil]
  | .expr _ _ | .ret _ _ | .breakLoop _ | .continueLoop _ => rfl
  | .branch _ _ thenBody elseBody => by
    simp only [subst, bound, List.map_append, Stmt.boundAll_substAll thenBody,
      Stmt.boundAll_substAll elseBody]
  | .whileLoop _ _ body | .forLoop _ _ _ _ body => by
    simp only [subst, bound, List.map_cons, Stmt.boundAll_substAll body]

theorem Stmt.boundAll_substAll : ∀ ss : List Stmt,
    Stmt.boundAll (Stmt.substAll S ss) = (Stmt.boundAll ss).map (Ty.subst S)
  | [] => rfl
  | s :: ss => by
    simp only [substAll, boundAll, List.map_append, Stmt.bound_subst s, Stmt.boundAll_substAll ss]

end

mutual

theorem Stmt.EachType.dropped {P : Ty → Prop} : ∀ {s : Stmt}, s.EachType P →
    ∀ e ∈ s.dropped, e.EachType P
  | .expr _ _, h => List.forall_mem_singleton.mpr h
  | .branch _ _ _ _, h => List.forall_mem_append.mpr
    ⟨Stmt.EachTypeAll.dropped h.2.1, Stmt.EachTypeAll.dropped h.2.2⟩
  | .whileLoop _ _ _, h => Stmt.EachTypeAll.dropped h.2
  | .forLoop _ _ _ _ _, h => Stmt.EachTypeAll.dropped h.2.2
  | .assign _ _ _, _ | .tupleAssign _ _ _, _ | .ret _ _, _ | .breakLoop _, _
  | .continueLoop _, _ => List.forall_mem_nil _

theorem Stmt.EachTypeAll.dropped {P : Ty → Prop} : ∀ {ss : List Stmt}, Stmt.EachTypeAll P ss →
    ∀ e ∈ Stmt.droppedAll ss, e.EachType P
  | [], _ => List.forall_mem_nil _
  | _ :: _, h => List.forall_mem_append.mpr
    ⟨Stmt.EachType.dropped h.1, Stmt.EachTypeAll.dropped h.2⟩

end

end Typed

namespace Elaboration

open Check TypeDiscipline
open Typed (Expr Part Stmt)

variable {T : SignatureTable} {g : Generics} {S : Substitution}

/-! ## Types -/

namespace TypeDiscipline

/-- What the checker keeps of types, checking a body keeps. -/
def upkeep (K : TypeDiscipline T) (g : Generics) : Upkeep T g where
  declared t := K.holds t ∧ t.Ground
  type := K.holds
  nat _ := True
  memo _ := True
  stated h _ := h.1
  prim _ := K.prim
  undet := K.undet
  natUndet := trivial
  const := trivial
  tuple := K.tuple
  array h _ := K.array h
  component := K.component
  ownNats _ _ := trivial
  subst types _ h := K.subst types h
  keyed := K.keyed
  fnRef := K.fnRef
  signature hs _ types _ := K.signature hs types
  fields := K.fields
  classify _ _ _ := trivial

/-- **In the end types are loose at most**, since the generic arguments of calls are determined. -/
def loosely (K : TypeDiscipline T) (g : Generics) (S : Substitution) : Prospect (K.upkeep g) S where
  type := Ty.LooseIn S
  within _ := Ty.Ground
  declared h := .ground h.2.groundIn
  prim := .ground (Ty.Ground.groundIn Ty.ground_prim)
  undet := .undet _
  tuple := .tuple
  array h := .array h (NatTerm.Ground.groundIn nofun)
  component := Ty.LooseIn.component
  subst refines images h := h.subst refines images
  fnRef {n s} hs _ := by
    obtain ⟨params, result⟩ := K.determined hs
    exact .ground (Ty.ground_fn.mpr ⟨List.forall_mem_map.mpr params, result⟩).groundIn
  signature {n s I} hs all _ types nats := by
    have ground : ∀ {t : Ty}, t.Ground → (I.apply t).LooseIn S := fun ht => by
      rw [Instantiation.apply_eq]
      refine .ground (Ty.groundIn_inst (fun {m u} hu => ?_) nats ht)
      obtain ⟨p, hp, rfl⟩ := List.mem_map.mp ((all.types m).mp (Option.isSome_of_eq_some hu))
      exact types p hp u hu
    obtain ⟨params, result⟩ := K.determined hs
    exact ⟨fun p hp => ground (params p hp), ground result⟩
  fields known h hf f hm :=
    .ground (StructDecl.groundIn_of_instantiateFields (K.declared known) h.struct hf f hm)
  admitted _ determined _ _ _ := Ty.ground_iff.mpr determined

end TypeDiscipline

/-! ## Expressions -/

variable {K : TypeDiscipline T}

/-- What is known of an expression of a checked function in the end. -/
structure Final (K : TypeDiscipline T) (g : Generics) (S : Substitution) (e : Expr) : Prop where
  wellTyped : e.WellTyped T
  parts : ∀ p ∈ e.parts, (K.loosely g S).parts.Holds True p
  locals : ∀ n ∈ e.nodes, n.LocalsIn S

namespace Final

variable {e : Expr}

theorem operand (h : Final K g S e) {x : Typed.UseKind × Expr} (hx : x ∈ e.operands) :
    Final K g S x.2 := by
  refine ⟨h.wellTyped.operand x hx, fun p hp => h.parts p (Expr.parts_operand hx hp), ?_⟩
  intro n hn
  refine h.locals n ?_
  rw [Expr.nodes_eq]
  exact List.mem_cons_of_mem _ (List.mem_flatMap.mpr ⟨x, hx, hn⟩)

theorem type (h : Final K g S e) : e.type.LooseIn S :=
  (holds_type (holds_exprs.mpr h.parts)).later trivial

/-- **The arguments of a call become ground**, and so do its generic arguments. -/
theorem call {location : Location} {t : Ty} {c : Typed.CallTarget} {args : List Expr}
    (h : Final K g S (.call location t c args)) :
    ((∀ u ∈ c.typeArgs, u.GroundIn S) ∧ ∀ n ∈ c.natArgs, n.GroundIn S) ∧
      ∀ e ∈ args, e.type.GroundIn S := by
  obtain ⟨⟨-, natArgs⟩, -, -, target⟩ := forall_parts_call.mp h.parts
  have nats : ∀ n ∈ c.natArgs, n.GroundIn S := fun n hn => (natArgs n hn).later trivial
  by_cases kind : c.kind = .localValue
  · obtain ⟨types, -⟩ := target.now kind
    refine ⟨⟨by simp [types], nats⟩, h.locals (.call location t c args) ?_ kind⟩
    rw [Expr.nodes_eq]
    exact List.mem_cons_self
  · cases h.wellTyped with
    | call _ fits =>
      obtain ⟨s, I, known, fits⟩ := fits kind
      obtain ⟨count, -, hI⟩ := Instantiation.ofArgs_eq_ok fits.generics
      have types : ∀ u ∈ c.typeArgs, u.GroundIn S := by
        rw [← List.map_snd_zip (Nat.le_of_eq count), List.forall_mem_map]
        exact target.later trivial s known kind
      refine ⟨⟨types, nats⟩, ?_⟩
      rw [← List.forall_mem_map (P := Ty.GroundIn S), ← List.map_snd_zip (Nat.le_of_eq fits.count),
        List.forall_mem_map]
      intro p hp
      have equal := Ty.equal_symm (Ty.equal_subst S (fits.arg p hp))
      refine Ty.GroundIn.equal ?_ equal
      have ground := (K.determined known).1 p.1 (List.of_mem_zip hp).1
      rw [hI, Instantiation.apply_eq]
      exact Ty.groundIn_inst (fun hu => types _ (Instantiation.mem_of_types_pair hu))
        (fun hn => nats _ (Instantiation.mem_of_nats_pair hn)) ground

theorem groundIn_of_equal_prim {t : Ty} {name : String} {cls : OwnershipClass}
    (h : t.equal (.prim name cls)) : t.GroundIn S :=
  (Ty.ground_prim.equal (Ty.equal_symm h)).groundIn

/-- **What is left to be inferred about an expression shows in its type.** -/
theorem groundIn {e : Expr} (h : Final K g S e) (ht : e.type.GroundIn S) :
    ∀ p ∈ e.parts, p.GroundIn S := by
  have inner : ∀ e' ∈ e.operands.map Prod.snd, e'.type.GroundIn S →
      ∀ p ∈ e'.parts, p.GroundIn S := by
    rw [List.forall_mem_map]
    exact fun x hx => (h.operand hx).groundIn
  cases h.wellTyped with
  | int | name | fnRef => exact List.forall_mem_singleton.mpr ht
  | float | bool => exact List.forall_mem_nil _
  | natParam => exact List.forall_mem_singleton.mpr trivial
  | tuple _ type =>
    rw [Expr.operands, List.map_map, Function.comp_def, List.map_id'] at inner
    refine List.forall_mem_cons.mpr ⟨ht, Expr.forall_mem_partsAll.mpr fun e he => inner e he ?_⟩
    rw [Expr.type, type] at ht
    exact Ty.groundIn_tuple.mp ht e.type (List.mem_map_of_mem he)
  | array _ equal type =>
    rw [Expr.operands, List.map_map, Function.comp_def, List.map_id'] at inner
    refine List.forall_mem_cons.mpr ⟨ht, Expr.forall_mem_partsAll.mpr fun e he => inner e he ?_⟩
    rw [Expr.type, type] at ht
    exact (Ty.groundIn_array.mp ht).1.equal (Ty.equal_subst S (Ty.equal_symm (equal e he)))
  | call =>
    rw [Expr.operands, Typed.argUses_snd] at inner
    obtain ⟨generic, args⟩ := h.call
    exact forall_parts_call.mpr ⟨generic, ht, fun e he => inner e he (args e he), trivial⟩
  | field _ type =>
    have object := (h.operand List.mem_cons_self).type
    refine List.forall_mem_cons.mpr ⟨ht, inner _ List.mem_cons_self ?_⟩
    rw [type] at object ⊢
    exact object.struct
  | subscript _ _ type integral =>
    have indexed := (h.operand List.mem_cons_self).type
    obtain ⟨first, second⟩ := List.forall_mem_cons.mp inner
    refine List.forall_mem_cons.mpr ⟨ht, List.forall_mem_append.mpr ⟨first ?_, ?_⟩⟩
    · rw [type] at indexed ⊢
      exact Ty.groundIn_array.mpr ⟨ht, indexed.length⟩
    · refine List.forall_mem_singleton.mp second ?_
      rcases integral with int | nat
      · exact groundIn_of_equal_prim int
      · exact groundIn_of_equal_prim nat
termination_by sizeOf e
decreasing_by exact Expr.sizeOf_operand hx

end Final

/-! ## Statements -/

theorem groundIn_block {ss : List Stmt} (h : ∀ s ∈ ss, (∀ x ∈ s.operands, Final K g S x.2) →
      (∀ t ∈ s.bound, t.GroundIn S) → (∀ e ∈ s.dropped, e.type.GroundIn S) →
      ∀ p ∈ s.parts, p.GroundIn S)
    (exprs : ∀ x ∈ Stmt.operandsAll ss, Final K g S x.2)
    (bound : ∀ t ∈ Stmt.boundAll ss, t.GroundIn S)
    (dropped : ∀ e ∈ Stmt.droppedAll ss, e.type.GroundIn S) :
    ∀ p ∈ Stmt.partsAll ss, p.GroundIn S := by
  induction ss with
  | nil => exact List.forall_mem_nil _
  | cons s ss ih =>
    obtain ⟨first, rest⟩ := List.forall_mem_cons.mp h
    obtain ⟨exprs, exprs'⟩ := List.forall_mem_append.mp exprs
    obtain ⟨bound, bound'⟩ := List.forall_mem_append.mp bound
    obtain ⟨dropped, dropped'⟩ := List.forall_mem_append.mp dropped
    exact List.forall_mem_append.mpr
      ⟨first exprs bound dropped, ih rest exprs' bound' dropped'⟩

/-- **What is left to be inferred about a statement shows in the types of the values that it
    drops.** -/
theorem groundIn_stmt {result : Ty} (hresult : result.GroundIn S) {s : Stmt}
    (h : s.WellTyped T result) (exprs : ∀ x ∈ s.operands, Final K g S x.2)
    (bound : ∀ t ∈ s.bound, t.GroundIn S) (dropped : ∀ e ∈ s.dropped, e.type.GroundIn S) :
    ∀ p ∈ s.parts, p.GroundIn S := by
  induction h with
  | assign | tupleAssign =>
    exact (exprs _ List.mem_cons_self).groundIn (bound _ List.mem_cons_self)
  | expr => exact (exprs _ List.mem_cons_self).groundIn (dropped _ List.mem_cons_self)
  | ret _ equal =>
    have ground := hresult.equal (Ty.equal_subst S (Ty.equal_symm equal))
    exact (exprs _ List.mem_cons_self).groundIn ground
  | retNone | breakLoop | continueLoop => exact List.forall_mem_nil _
  | branch _ bool _ _ ihthen ihelse =>
    obtain ⟨condition, exprs⟩ := List.forall_mem_cons.mp exprs
    obtain ⟨exprs, exprs'⟩ := List.forall_mem_append.mp exprs
    obtain ⟨bound, bound'⟩ := List.forall_mem_append.mp bound
    obtain ⟨dropped, dropped'⟩ := List.forall_mem_append.mp dropped
    exact List.forall_mem_append.mpr ⟨condition.groundIn (Final.groundIn_of_equal_prim bool),
      List.forall_mem_append.mpr ⟨groundIn_block ihthen exprs bound dropped,
        groundIn_block ihelse exprs' bound' dropped'⟩⟩
  | whileLoop _ bool _ ih =>
    obtain ⟨condition, exprs⟩ := List.forall_mem_cons.mp exprs
    exact List.forall_mem_append.mpr ⟨condition.groundIn (Final.groundIn_of_equal_prim bool),
      groundIn_block ih exprs bound dropped⟩
  | forLoop _ runs _ ih =>
    obtain ⟨iterable, exprs⟩ := List.forall_mem_cons.mp exprs
    obtain ⟨var, bound⟩ := List.forall_mem_cons.mp bound
    refine List.forall_mem_cons.mpr ⟨var, List.forall_mem_append.mpr
      ⟨iterable.groundIn ?_, groundIn_block ih exprs bound dropped⟩⟩
    rcases runs with ⟨n, array⟩ | ⟨range, -⟩
    · have loose := iterable.type
      rw [array] at loose ⊢
      exact Ty.groundIn_array.mpr ⟨var, loose.length⟩
    · exact Final.groundIn_of_equal_prim range

/-! ## Functions -/

section Functions

variable {owner : Option StructDecl} {f : Source.FunctionDef} {typed : Typed.Function}
  {memory memory' : CheckerMemory}

/-- **What a checked function binds and passes to local bindings has ground types**, if its
    parameters have. -/
theorem checkFunction_binds {sig : Signature} (signature : signatureOf owner f = .ok sig)
    (h : checkFunction T owner f memory = .ok typed memory')
    (params : ∀ p ∈ sig.params, p.type.Ground) :
    (∀ n ∈ typed.nodes, n.LocalsIn S) ∧ ∀ t ∈ Stmt.boundAll typed.body, t.GroundIn S := by
  obtain ⟨checked, S', rfl, -, known⟩ := checkFunction_notes signature h
  constructor
  · intro n hn
    obtain ⟨c, site⟩ := Typed.Function.exists_site hn
    obtain ⟨m, rfl, raw⟩ := Typed.Function.site_of_subst site
    cases m with
    | call location t target args =>
      intro kind
      rw [Expr.substAll_eq_map, List.forall_mem_map]
      intro e he
      rw [Expr.type_subst]
      exact Ty.Ground.groundIn ((known.site raw).2 kind params e he)
    | _ => trivial
  · rw [show (checked.subst S').body = Stmt.substAll S' checked.body from rfl,
      Stmt.boundAll_substAll, List.forall_mem_map]
    exact fun t ht => Ty.Ground.groundIn (known.bound t ht)

theorem checkFunction_ground (K : TypeDiscipline T) (hf : f.EachType fun t => K.holds t ∧ t.Ground)
    (h : checkFunction T owner f memory = .ok typed memory')
    (dropped : ∀ e ∈ typed.dropped, e.type.Ground) : ∀ p ∈ typed.parts, p.Ground := by
  obtain ⟨sig, checked, final, signature, params, result, -, -, typed_eq⟩ := checkFunction_eq_ok h
  obtain ⟨hparams, hresult⟩ :=
    eachType_signatureOf Ty.ground_prim (hf.mono fun _ h => h.2) signature
  have wellTyped := wellTyped_of_discipline K (hf.mono fun _ h => h.1) h
  obtain ⟨-, -, now, S, fixed, later⟩ :=
    checkFunction_keeps signature (K.upkeep sig.generics) hf trivial h
  obtain ⟨locals, bound⟩ := checkFunction_binds (S := S) signature h hparams
  have exprs : ∀ x ∈ Stmt.operandsAll typed.body, Final K sig.generics S x.2 := fun x hx => by
    refine ⟨Stmt.WellTyped.operandAll typed.body wellTyped x hx, fun p hp => ?_, fun n hn => ?_⟩
    · have mem : p ∈ typed.parts := List.mem_append_right _
        (List.mem_cons_of_mem _ (Stmt.parts_operandAll typed.body x hx hp))
      exact ⟨now p mem, fun _ => later _ p mem⟩
    · refine locals n ?_
      rw [Typed.Function.nodes, Stmt.nodesAll_eq]
      exact List.mem_flatMap.mpr ⟨x, hx, hn⟩
  have header : (∀ p ∈ typed.params, p.type.GroundIn S) ∧ typed.result.GroundIn S := by
    rw [typed_eq, Typed.Function.subst, result, params, List.forall_mem_map]
    exact ⟨fun p hp => Ty.Ground.groundIn (hparams p hp).groundIn,
      Ty.Ground.groundIn hresult.groundIn⟩
  have ground : ∀ p ∈ typed.parts, p.GroundIn S := by
    rw [Typed.Function.parts, List.forall_mem_append, List.forall_mem_map, List.forall_mem_cons]
    exact ⟨header.1, header.2, groundIn_block (fun s hs => groundIn_stmt header.2 (wellTyped s hs))
      exprs bound fun e he => (dropped e he).groundIn⟩
  intro p hp
  have known := ground p hp
  rwa [Part.GroundIn, fixed p hp] at known

/-- **Nothing is left to be inferred about a checked function but the types of the values that it
    drops.** -/
theorem checkFunction_determined (registered : T.Registered) (signatures : DeterminedSignatures T)
    (declared : f.EachType (·.determined))
    (h : checkFunction T owner f memory = .ok typed memory') :
    ((∀ t ∈ typed.types, t.determined) ∧ ∀ n ∈ typed.nats, n.isUndet = false) ↔
      ∀ e ∈ typed.dropped, e.type.determined := by
  constructor
  · rintro ⟨types, -⟩ e he
    have each := Typed.Function.eachType_iff.mpr types
    exact (Typed.Stmt.EachTypeAll.dropped each.body e he).type rfl
  · intro dropped
    have holds : f.EachType (declaredDiscipline registered.keyed signatures).holds :=
      declared.mono fun _ => Ty.declared_of_determined
    have ground := checkFunction_ground (declaredDiscipline registered.keyed signatures)
      (declared.mono fun _ ht => (Ty.determined_iff.mp ht).symm) h
      fun e he => (Ty.determined_iff.mp (dropped e he)).1
    have types := Typed.Function.eachType_iff.mp (checkFunction_yields _ holds h).2
    constructor
    · intro t ht
      exact Ty.determined_iff.mpr ⟨ground _ (Typed.Function.mem_types.mp ht), types t ht⟩
    · intro n hn
      rcases Typed.Function.mem_nats.mp hn with hn | ⟨name, -, rfl⟩
      · exact NatTerm.ground_iff.mp (ground _ hn)
      · rfl

end Functions

end Elaboration

end QuantumStatics
