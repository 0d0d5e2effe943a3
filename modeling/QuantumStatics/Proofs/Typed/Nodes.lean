/-
  The expressions of a typed program.

  A function holds the expressions of its statements and the expressions within them.  Each of them
  is used somehow by what it stands in: its value is given away or lent.
-/
import QuantumStatics.Elaboration.Expr
import QuantumStatics.Proofs.Ty.Instantiation
import QuantumStatics.Proofs.Typed.Parts

namespace QuantumStatics.Typed

open Elaboration (useFor)

mutual

/-- An expression and the expressions within it. -/
def Expr.nodes : Expr → List Expr
  | .int location t value => [.int location t value]
  | .float location value => [.float location value]
  | .bool location value => [.bool location value]
  | .name location t n use => [.name location t n use]
  | .natParam location n => [.natParam location n]
  | .fnRef location t n => [.fnRef location t n]
  | .tuple location t elems => .tuple location t elems :: Expr.nodesAll elems
  | .array location t elems => .array location t elems :: Expr.nodesAll elems
  | .call location t target args => .call location t target args :: Expr.nodesAll args
  | .field location t object label index use =>
    .field location t object label index use :: object.nodes
  | .subscript location t indexed index use =>
    .subscript location t indexed index use :: (indexed.nodes ++ index.nodes)

/-- The same for some expressions. -/
def Expr.nodesAll : List Expr → List Expr
  | [] => []
  | e :: es => e.nodes ++ Expr.nodesAll es

end

mutual

/-- The expressions of a statement. -/
def Stmt.nodes : Stmt → List Expr
  | .assign _ _ value | .tupleAssign _ _ value | .expr _ value | .ret _ (some value) => value.nodes
  | .ret _ none | .breakLoop _ | .continueLoop _ => []
  | .branch _ condition thenBody elseBody =>
    condition.nodes ++ (Stmt.nodesAll thenBody ++ Stmt.nodesAll elseBody)
  | .whileLoop _ condition body => condition.nodes ++ Stmt.nodesAll body
  | .forLoop _ _ _ iterable body => iterable.nodes ++ Stmt.nodesAll body

/-- The same for some statements. -/
def Stmt.nodesAll : List Stmt → List Expr
  | [] => []
  | s :: ss => s.nodes ++ Stmt.nodesAll ss

end

/-- All expressions in a function. -/
def Function.nodes (f : Function) : List Expr := Stmt.nodesAll f.body

/-! ## Operands -/

/-- The arguments of a call with how they are used; what no parameter receives is lent. -/
def argUses : List Ownership → List Expr → List (UseKind × Expr)
  | _, [] => []
  | os, e :: es => (useFor (os.headD .borrowed), e) :: argUses os.tail es

/-- The expressions that an expression is built from, with how it uses them. -/
def Expr.operands : Expr → List (UseKind × Expr)
  | .int _ _ _ | .float _ _ | .bool _ _ | .name _ _ _ _ | .natParam _ _ | .fnRef _ _ _ => []
  | .tuple _ _ elems | .array _ _ elems => elems.map (.consume, ·)
  | .call _ _ target args => argUses target.ownership args
  | .field _ _ object _ _ _ => [(.borrow, object)]
  | .subscript _ _ indexed index _ => [(.borrow, indexed), (.borrow, index)]

mutual

/-- The expressions that stand in a statement, at any depth, with how it uses them. -/
def Stmt.operands : Stmt → List (UseKind × Expr)
  | .assign _ _ value | .tupleAssign _ _ value | .expr _ value | .ret _ (some value) =>
    [(.consume, value)]
  | .ret _ none | .breakLoop _ | .continueLoop _ => []
  | .branch _ condition thenBody elseBody =>
    (.borrow, condition) :: (Stmt.operandsAll thenBody ++ Stmt.operandsAll elseBody)
  | .whileLoop _ condition body => (.borrow, condition) :: Stmt.operandsAll body
  | .forLoop _ _ _ iterable body => (.consume, iterable) :: Stmt.operandsAll body

/-- The same for some statements. -/
def Stmt.operandsAll : List Stmt → List (UseKind × Expr)
  | [] => []
  | s :: ss => s.operands ++ Stmt.operandsAll ss

end

/-- An expression that is used as `context` has another one within it, or is that one itself, with
    how that one is used. -/
inductive Expr.Site (context : UseKind) (e : Expr) : UseKind → Expr → Prop
  | self : Site context e context e
  | within {c n x} : Site context e c n → x ∈ n.operands → Site context e x.1 x.2

/-- A function has an expression in its body, with how that one is used. -/
def Function.Site (f : Function) (context : UseKind) (n : Expr) : Prop :=
  ∃ x ∈ Stmt.operandsAll f.body, x.2.Site x.1 context n

theorem argUses_snd (os : List Ownership) (es : List Expr) :
    (argUses os es).map Prod.snd = es := by
  induction es generalizing os with
  | nil => rfl
  | cons e es ih => rw [argUses, List.map_cons, ih]

theorem argUses_map (φ : Expr → Expr) (os : List Ownership) (es : List Expr) :
    argUses os (es.map φ) = (argUses os es).map (Prod.map id φ) := by
  induction es generalizing os with
  | nil => rfl
  | cons e es ih => rw [argUses, List.map_cons, argUses, List.map_cons, ih]; rfl

theorem argUses_use (os : List Ownership) (es : List Expr) :
    ∀ x ∈ argUses os es, x.1 = .consume ∨ x.1 = .borrow := by
  induction es generalizing os with
  | nil => exact List.forall_mem_nil _
  | cons e es ih =>
    refine List.forall_mem_cons.mpr ⟨?_, ih os.tail⟩
    cases os.headD .borrowed with
    | owned => exact .inl rfl
    | borrowed => exact .inr rfl

namespace Expr

theorem operands_use (e : Expr) : ∀ x ∈ e.operands, x.1 = .consume ∨ x.1 = .borrow := by
  cases e with
  | call location t target args => exact argUses_use target.ownership args
  | _ => simp [operands]

theorem nodesAll_eq (es : List Expr) : nodesAll es = es.flatMap nodes :=
  companion_eq_flatMap rfl (fun _ _ => rfl) es

theorem nodes_eq (e : Expr) : e.nodes = e :: e.operands.flatMap (·.2.nodes) := by
  cases e with
  | call location t target args =>
    rw [nodes, nodesAll_eq, operands, ← List.flatMap_map Prod.snd nodes, argUses_snd]
  | _ => simp [nodes, nodesAll_eq, operands, List.flatMap_map]

theorem sizeOf_operand {e : Expr} {x : UseKind × Expr} (h : x ∈ e.operands) :
    sizeOf x.2 < sizeOf e := by
  cases e with
  | tuple location t elems | array location t elems =>
    obtain ⟨e, he, rfl⟩ := List.mem_map.mp h
    have : sizeOf e < sizeOf elems := List.sizeOf_lt_of_mem he
    simp only [tuple.sizeOf_spec, array.sizeOf_spec]
    omega
  | call location t target args =>
    have : x.2 ∈ args := argUses_snd target.ownership args ▸ List.mem_map_of_mem h
    have := List.sizeOf_lt_of_mem this
    simp only [call.sizeOf_spec]
    omega
  | field | subscript =>
    simp only [operands, List.mem_cons, List.not_mem_nil, or_false] at h
    rcases h with rfl | rfl <;> simp only [field.sizeOf_spec, subscript.sizeOf_spec] <;> omega
  | _ => cases h

theorem site_iff {context c : UseKind} {e n : Expr} : e.Site context c n ↔
    (c = context ∧ n = e) ∨ ∃ x ∈ e.operands, x.2.Site x.1 c n := by
  constructor
  · intro h
    induction h with
    | self => exact .inl ⟨rfl, rfl⟩
    | within _ hx ih =>
      rcases ih with ⟨rfl, rfl⟩ | ⟨y, hy, site⟩
      · exact .inr ⟨_, hx, .self⟩
      · exact .inr ⟨y, hy, site.within hx⟩
  · rintro (⟨rfl, rfl⟩ | ⟨x, hx, site⟩)
    · exact .self
    · induction site with
      | self => exact .within .self hx
      | within _ hy ih => exact ih.within hy

theorem exists_site (context : UseKind) (e : Expr) {n : Expr} (h : n ∈ e.nodes) :
    ∃ c, e.Site context c n := by
  rw [nodes_eq, List.mem_cons, List.mem_flatMap] at h
  rcases h with rfl | ⟨x, hx, hn⟩
  · exact ⟨context, .self⟩
  · obtain ⟨c, site⟩ := exists_site x.1 x.2 hn
    exact ⟨c, site_iff.mpr (.inr ⟨x, hx, site⟩)⟩
termination_by sizeOf e
decreasing_by exact sizeOf_operand hx

/-- A change of expressions changes the operands one by one. -/
def Operandwise (φ : Expr → Expr) : Prop :=
  ∀ e : Expr, (φ e).operands = e.operands.map (Prod.map id φ)

variable {φ : Expr → Expr}

theorem Operandwise.nodes (hφ : Operandwise φ) (e : Expr) : (φ e).nodes = e.nodes.map φ := by
  rw [nodes_eq, hφ, nodes_eq e, List.map_cons, List.flatMap_map, List.map_flatMap,
    List.flatMap_def, List.flatMap_def, List.map_congr_left fun x hx => ?_]
  exact hφ.nodes x.2
termination_by sizeOf e
decreasing_by exact sizeOf_operand hx

theorem Operandwise.site (hφ : Operandwise φ) {context c : UseKind} {e n : Expr}
    (h : (φ e).Site context c n) : ∃ m, n = φ m ∧ e.Site context c m := by
  induction h with
  | self => exact ⟨e, rfl, .self⟩
  | within _ hx ih =>
    obtain ⟨m, rfl, site⟩ := ih
    rw [hφ] at hx
    obtain ⟨y, hy, rfl⟩ := List.mem_map.mp hx
    exact ⟨y.2, rfl, site.within hy⟩

theorem operandwise_subst (S : Substitution) : Operandwise (subst S) := by
  intro e
  cases e <;> simp [subst, operands, substAll_eq_map, argUses_map, CallTarget.subst]

theorem specializeAll_eq_map (I : Instantiation) (es : List Expr) :
    specializeAll I es = es.map (specialize I) :=
  companion_eq_map rfl (fun _ _ => rfl) es

theorem operandwise_specialize (I : Instantiation) : Operandwise (specialize I) := by
  intro e
  cases e with
  | natParam location n =>
    rw [specialize, natValue]
    cases I.applyNat (.var n) <;> rfl
  | _ => simp [specialize, operands, specializeAll_eq_map, argUses_map, CallTarget.specialize,
      CallTarget.inst]

end Expr

mutual

theorem Stmt.operands_subst (S : Substitution) : ∀ s : Stmt,
    (s.subst S).operands = s.operands.map (Prod.map id (Expr.subst S))
  | .assign _ _ _ | .tupleAssign _ _ _ | .expr _ _ | .ret _ (some _) | .ret _ none
  | .breakLoop _ | .continueLoop _ => rfl
  | .branch _ _ thenBody elseBody => by
    simp [subst, operands, Stmt.operandsAll_substAll S thenBody,
      Stmt.operandsAll_substAll S elseBody]
  | .whileLoop _ _ body | .forLoop _ _ _ _ body => by
    simp [subst, operands, Stmt.operandsAll_substAll S body]

theorem Stmt.operandsAll_substAll (S : Substitution) : ∀ ss : List Stmt,
    Stmt.operandsAll (Stmt.substAll S ss) =
      (Stmt.operandsAll ss).map (Prod.map id (Expr.subst S))
  | [] => rfl
  | s :: ss => by
    simp [substAll, operandsAll, Stmt.operands_subst S s, Stmt.operandsAll_substAll S ss]

end

mutual

theorem Stmt.operands_specialize (I : Instantiation) : ∀ s : Stmt,
    (s.specialize I).operands = s.operands.map (Prod.map id (Expr.specialize I))
  | .assign _ _ _ | .tupleAssign _ _ _ | .expr _ _ | .ret _ (some _) | .ret _ none
  | .breakLoop _ | .continueLoop _ => rfl
  | .branch _ _ thenBody elseBody => by
    simp [specialize, operands, Stmt.operandsAll_specializeAll I thenBody,
      Stmt.operandsAll_specializeAll I elseBody]
  | .whileLoop _ _ body | .forLoop _ _ _ _ body => by
    simp [specialize, operands, Stmt.operandsAll_specializeAll I body]

theorem Stmt.operandsAll_specializeAll (I : Instantiation) : ∀ ss : List Stmt,
    Stmt.operandsAll (Stmt.specializeAll I ss) =
      (Stmt.operandsAll ss).map (Prod.map id (Expr.specialize I))
  | [] => rfl
  | s :: ss => by
    simp [specializeAll, operandsAll, Stmt.operands_specialize I s,
      Stmt.operandsAll_specializeAll I ss]

end

mutual

theorem Stmt.operands_use : ∀ s : Stmt, ∀ x ∈ s.operands, x.1 = .consume ∨ x.1 = .borrow
  | .assign _ _ _ | .tupleAssign _ _ _ | .expr _ _ | .ret _ (some _) | .ret _ none
  | .breakLoop _ | .continueLoop _ => by simp [operands]
  | .branch _ _ thenBody elseBody => List.forall_mem_cons.mpr ⟨.inr rfl, List.forall_mem_append.mpr
    ⟨Stmt.operandsAll_use thenBody, Stmt.operandsAll_use elseBody⟩⟩
  | .whileLoop _ _ body => List.forall_mem_cons.mpr ⟨.inr rfl, Stmt.operandsAll_use body⟩
  | .forLoop _ _ _ _ body => List.forall_mem_cons.mpr ⟨.inl rfl, Stmt.operandsAll_use body⟩

theorem Stmt.operandsAll_use : ∀ ss : List Stmt, ∀ x ∈ Stmt.operandsAll ss,
    x.1 = .consume ∨ x.1 = .borrow
  | [] => List.forall_mem_nil _
  | s :: ss => List.forall_mem_append.mpr ⟨Stmt.operands_use s, Stmt.operandsAll_use ss⟩

end

mutual

theorem Stmt.nodes_eq : ∀ s : Stmt, s.nodes = s.operands.flatMap (·.2.nodes)
  | .assign _ _ _ | .tupleAssign _ _ _ | .expr _ _ | .ret _ (some _) => by simp [nodes, operands]
  | .ret _ none | .breakLoop _ | .continueLoop _ => rfl
  | .branch _ _ thenBody elseBody => by
    simp [nodes, operands, Stmt.nodesAll_eq thenBody, Stmt.nodesAll_eq elseBody]
  | .whileLoop _ _ body | .forLoop _ _ _ _ body => by
    simp [nodes, operands, Stmt.nodesAll_eq body]

theorem Stmt.nodesAll_eq : ∀ ss : List Stmt,
    Stmt.nodesAll ss = (Stmt.operandsAll ss).flatMap (·.2.nodes)
  | [] => rfl
  | s :: ss => by simp [nodesAll, operandsAll, Stmt.nodes_eq s, Stmt.nodesAll_eq ss]

end

namespace Function

variable {f : Function} {c : UseKind} {n : Expr}

theorem nodes_eq_map {φ : Expr → Expr} (hφ : Expr.Operandwise φ) {f' : Function}
    (h : Stmt.operandsAll f'.body = (Stmt.operandsAll f.body).map (Prod.map id φ)) :
    f'.nodes = f.nodes.map φ := by
  simp only [nodes, Stmt.nodesAll_eq, h, List.flatMap_map, List.map_flatMap, Prod.map_snd, hφ.nodes]

/-- **The expressions of a specialized function** are those of the function, specialized one by
    one. -/
theorem nodes_specialize (I : Instantiation) (f : Function) :
    (f.specialize I).nodes = f.nodes.map (Expr.specialize I) :=
  nodes_eq_map (Expr.operandwise_specialize I) (Stmt.operandsAll_specializeAll I f.body)

theorem site_of_subst {S : Substitution} (h : (f.subst S).Site c n) :
    ∃ m, n = m.subst S ∧ f.Site c m := by
  obtain ⟨x, hx, site⟩ := h
  rw [show (f.subst S).body = Stmt.substAll S f.body from rfl, Stmt.operandsAll_substAll] at hx
  obtain ⟨y, hy, rfl⟩ := List.mem_map.mp hx
  obtain ⟨m, rfl, within⟩ := (Expr.operandwise_subst S).site site
  exact ⟨m, rfl, y, hy, within⟩

theorem Site.operand {x : UseKind × Expr} (h : f.Site c n) (hx : x ∈ n.operands) :
    f.Site x.1 x.2 := by
  obtain ⟨y, hy, site⟩ := h
  exact ⟨y, hy, site.within hx⟩

/-- **An expression is given away or lent** by what it stands in. -/
theorem Site.context (h : f.Site c n) : c = .consume ∨ c = .borrow := by
  obtain ⟨x, hx, site⟩ := h
  induction site with
  | self => exact Stmt.operandsAll_use f.body x hx
  | within _ hy _ => exact Expr.operands_use _ _ hy

theorem exists_site (h : n ∈ f.nodes) : ∃ c, f.Site c n := by
  rw [nodes, Stmt.nodesAll_eq] at h
  obtain ⟨x, hx, hn⟩ := List.mem_flatMap.mp h
  obtain ⟨c, site⟩ := Expr.exists_site x.1 x.2 hn
  exact ⟨c, x, hx, site⟩

end Function

theorem Expr.type_specialize (I : Instantiation) (e : Expr) :
    (e.specialize I).type = I.apply e.type := by
  have leaf : ∀ name cls, I.apply (.prim name cls) = .prim name cls := fun name cls => by
    rw [I.apply_eq, Ty.inst_prim]
  cases e with
  | float | bool => exact (leaf _ _).symm
  | natParam location n =>
    rw [specialize, natValue]
    cases I.applyNat (.var n) <;> exact (leaf _ _).symm
  | _ => rfl

variable {e n : Expr} {f : Function} {location : Location} {c : CallTarget}

theorem Expr.eq_call_of_specialize {I : Instantiation} {t : Ty} {args : List Expr}
    (h : e.specialize I = .call location t c args) :
    ∃ t₀ c₀ args₀, e = .call location t₀ c₀ args₀ ∧ t = I.apply t₀ ∧ c = c₀.specialize I ∧
      args = Expr.specializeAll I args₀ := by
  cases e with
  | call location' t₀ c₀ args₀ =>
    cases h
    exact ⟨t₀, c₀, args₀, rfl, rfl, rfl, rfl⟩
  | natParam location' n =>
    rw [specialize, natValue] at h
    split at h <;> cases h
  | _ => cases h

/-! ## What an expression within has of the whole -/

variable {T : SignatureTable}

theorem Expr.WellTyped.operand (h : e.WellTyped T) : ∀ x ∈ e.operands, x.2.WellTyped T := by
  cases h with
  | tuple parts | array parts => exact List.forall_mem_map.mpr parts
  | call parts =>
    intro x hx
    have mem := List.mem_map_of_mem (f := Prod.snd) hx
    rw [operands, argUses_snd] at mem
    exact parts _ mem
  | field object => exact List.forall_mem_singleton.mpr object
  | subscript indexed index =>
    exact List.forall_mem_cons.mpr ⟨indexed, List.forall_mem_singleton.mpr index⟩
  | _ => exact List.forall_mem_nil _

mutual

theorem Stmt.WellTyped.operand {result : Ty} : ∀ {s : Stmt}, s.WellTyped T result →
    ∀ x ∈ s.operands, x.2.WellTyped T
  | _, .assign value | _, .tupleAssign value _ _ | _, .expr value | _, .ret value _ =>
    List.forall_mem_singleton.mpr value
  | _, .retNone _ | _, .breakLoop | _, .continueLoop => List.forall_mem_nil _
  | _, .branch condition _ hthen helse =>
    List.forall_mem_cons.mpr ⟨condition, List.forall_mem_append.mpr
      ⟨Stmt.WellTyped.operandAll _ hthen, Stmt.WellTyped.operandAll _ helse⟩⟩
  | _, .whileLoop condition _ hbody =>
    List.forall_mem_cons.mpr ⟨condition, Stmt.WellTyped.operandAll _ hbody⟩
  | _, .forLoop iterable _ hbody =>
    List.forall_mem_cons.mpr ⟨iterable, Stmt.WellTyped.operandAll _ hbody⟩

theorem Stmt.WellTyped.operandAll {result : Ty} : ∀ ss : List Stmt,
    (∀ s ∈ ss, s.WellTyped T result) → ∀ x ∈ Stmt.operandsAll ss, x.2.WellTyped T
  | [], _ => List.forall_mem_nil _
  | s :: ss, h => List.forall_mem_append.mpr
    ⟨(h s List.mem_cons_self).operand,
      Stmt.WellTyped.operandAll ss fun s hs => h s (List.mem_cons_of_mem _ hs)⟩

end

theorem Function.WellTyped.node (h : f.WellTyped T) (hn : n ∈ f.nodes) : n.WellTyped T := by
  obtain ⟨c, x, hx, site⟩ := exists_site hn
  clear hn
  induction site with
  | self => exact Stmt.WellTyped.operandAll f.body h x hx
  | within _ hy ih => exact ih.operand _ hy

theorem Expr.parts_operand {x : UseKind × Expr} (h : x ∈ e.operands) : x.2.parts ⊆ e.parts := by
  have all : ∀ {es : List Expr}, x.2 ∈ es → x.2.parts ⊆ partsAll es := fun he =>
    forall_mem_partsAll.mp (fun _ hp => hp) _ he
  cases e with
  | tuple location t elems | array location t elems =>
    obtain ⟨e, he, rfl⟩ := List.mem_map.mp h
    exact List.subset_cons_of_subset _ (all he)
  | call location t target args =>
    have mem := List.mem_map_of_mem (f := Prod.snd) h
    rw [operands, argUses_snd] at mem
    intro p hp
    simp [parts, all mem hp]
  | field =>
    cases List.mem_singleton.mp h
    exact List.subset_cons_self _ _
  | subscript =>
    simp only [operands, List.mem_cons, List.not_mem_nil, or_false] at h
    rcases h with rfl | rfl <;> simp [parts]
  | _ => cases h

mutual

theorem Stmt.parts_operand : ∀ s : Stmt, ∀ x ∈ s.operands, x.2.parts ⊆ s.parts
  | .assign _ _ _ | .tupleAssign _ _ _ | .expr _ _ | .ret _ (some _) =>
    List.forall_mem_singleton.mpr (List.Subset.refl _)
  | .ret _ none | .breakLoop _ | .continueLoop _ => List.forall_mem_nil _
  | .branch _ condition thenBody elseBody => by
    have := Stmt.parts_operandAll thenBody
    have := Stmt.parts_operandAll elseBody
    grind [operands, parts]
  | .whileLoop _ _ body | .forLoop _ _ _ _ body => by
    have := Stmt.parts_operandAll body
    grind [operands, parts]

theorem Stmt.parts_operandAll : ∀ ss : List Stmt, ∀ x ∈ Stmt.operandsAll ss,
    x.2.parts ⊆ Stmt.partsAll ss
  | [] => List.forall_mem_nil _
  | s :: ss => by
    have := Stmt.parts_operand s
    have := Stmt.parts_operandAll ss
    grind [operandsAll, partsAll]

end

theorem Function.Site.parts {f : Function} {c : UseKind} {n : Expr} (h : f.Site c n) :
    n.parts ⊆ f.parts := by
  obtain ⟨x, hx, site⟩ := h
  induction site with
  | self =>
    intro p hp
    exact List.mem_append_right _ (List.mem_cons_of_mem _ (Stmt.parts_operandAll f.body x hx hp))
  | within _ hy ih => exact List.Subset.trans (Expr.parts_operand hy) ih

/-- **The parts of each expression of a function** are parts of the function. -/
theorem Function.parts_node (hn : n ∈ f.nodes) {part : Part} (hp : part ∈ n.parts) :
    part ∈ f.parts := by
  obtain ⟨c, site⟩ := exists_site hn
  exact site.parts hp

/-! ## Arguments of calls -/

/-- The generic arguments of the calls among some parts are listed with them. -/
def ArgsListed (ps : List Part) : Prop :=
  ∀ location c, .call location c ∈ ps → ∀ u ∈ c.typeArgs, .type u ∈ ps

section

variable {ps qs : List Part}

theorem argsListed_of_no_call (h : ∀ location c, .call location c ∉ ps) : ArgsListed ps :=
  fun location c hc => absurd hc (h location c)

theorem argsListed_nil : ArgsListed [] := argsListed_of_no_call (by simp)

theorem ArgsListed.append (h : ArgsListed ps) (h' : ArgsListed qs) : ArgsListed (ps ++ qs) := by
  intro location c hc u hu
  rcases List.mem_append.mp hc with hc | hc
  · exact List.mem_append_left _ (h location c hc u hu)
  · exact List.mem_append_right _ (h' location c hc u hu)

theorem ArgsListed.cons {t : Ty} (h : ArgsListed ps) : ArgsListed (.type t :: ps) := by
  intro location c hc u hu
  exact List.mem_cons_of_mem _ (h location c (by simpa using hc) u hu)

theorem ArgsListed.call {t : Ty} {c : CallTarget} (h : ArgsListed ps) (location : Location) :
    ArgsListed (c.typeArgs.map .type ++ c.natArgs.map .nat ++
      .type t :: (ps ++ [.call location c])) := by
  intro location' c' hc u hu
  simp only [List.mem_append, List.mem_map, List.mem_cons, reduceCtorEq, and_false, exists_false,
    false_or, List.not_mem_nil, or_false] at hc
  rcases hc with hc | hc
  · simp [h location' c' hc u hu]
  · cases hc
    simp [hu]

end

mutual

theorem Expr.argsListed : ∀ e : Expr, ArgsListed e.parts
  | .int _ _ _ | .float _ _ | .bool _ _ | .name _ _ _ _ | .natParam _ _ | .fnRef _ _ _ =>
    argsListed_of_no_call (by simp [parts])
  | .tuple _ _ elems | .array _ _ elems => (Expr.argsListedAll elems).cons
  | .call location _ _ args => (Expr.argsListedAll args).call location
  | .field _ _ object _ _ _ => object.argsListed.cons
  | .subscript _ _ indexed index _ => (indexed.argsListed.append index.argsListed).cons

theorem Expr.argsListedAll : ∀ es : List Expr, ArgsListed (Expr.partsAll es)
  | [] => argsListed_nil
  | e :: es => e.argsListed.append (Expr.argsListedAll es)

end

mutual

theorem Stmt.argsListed : ∀ s : Stmt, ArgsListed s.parts
  | .assign _ _ value | .tupleAssign _ _ value | .expr _ value | .ret _ (some value) =>
    value.argsListed
  | .ret _ none | .breakLoop _ | .continueLoop _ => argsListed_nil
  | .branch _ condition thenBody elseBody =>
    condition.argsListed.append
      ((Stmt.argsListedAll thenBody).append (Stmt.argsListedAll elseBody))
  | .whileLoop _ condition body => condition.argsListed.append (Stmt.argsListedAll body)
  | .forLoop _ _ _ iterable body => (iterable.argsListed.append (Stmt.argsListedAll body)).cons

theorem Stmt.argsListedAll : ∀ ss : List Stmt, ArgsListed (Stmt.partsAll ss)
  | [] => argsListed_nil
  | s :: ss => s.argsListed.append (Stmt.argsListedAll ss)

end

theorem Function.type_mem_of_call (h : .call location c ∈ f.parts) {u : Ty} (hu : u ∈ c.typeArgs) :
    .type u ∈ f.parts := by
  have params : ArgsListed (f.params.map fun p => .type p.type) := argsListed_of_no_call (by simp)
  exact params.append (Stmt.argsListedAll f.body).cons location c h u hu

end QuantumStatics.Typed
