/-
  The parts of a typed program.

  A typed program carries types, nats and calls.  They are listed in the order in which a
  replacement of types meets them: the types of a node before its children, and a call after its
  arguments.  Literals of one fixed type carry none.
-/
import QuantumStatics.Proofs.Typed.WellTyped
import QuantumStatics.Specialization.Request

namespace QuantumStatics.Typed

/-- The key of the specialization that a call asks for. -/
def CallTarget.key (c : CallTarget) : Key := ⟨c.callee, c.typeArgs, c.natArgs⟩

/-- Something that a typed program carries. -/
inductive Part where
  | type (t : Ty)
  /-- A nat argument of a call. -/
  | nat (n : NatTerm)
  /-- A nat parameter that is used as a value. -/
  | natParam (name : String)
  | call (location : Location) (target : CallTarget)

/-- A part has no variable in it.  What a call invokes with is listed with its arguments. -/
def Part.Closed : Part → Prop
  | .type t => t.closed
  | .nat n => n.isConst
  | .natParam _ => False
  | .call _ _ => True

mutual

/-- The parts of an expression, in the order in which they are closed. -/
def Expr.parts : Expr → List Part
  | .int _ t _ | .name _ t _ _ | .fnRef _ t _ => [.type t]
  | .float _ _ | .bool _ _ => []
  | .natParam _ n => [.natParam n]
  | .tuple _ t elems | .array _ t elems => .type t :: Expr.partsAll elems
  | .call location t target args =>
    target.typeArgs.map .type ++ target.natArgs.map .nat ++
      .type t :: (Expr.partsAll args ++ [.call location target])
  | .field _ t object _ _ _ => .type t :: object.parts
  | .subscript _ t indexed index _ => .type t :: (indexed.parts ++ index.parts)

/-- The same for some expressions. -/
def Expr.partsAll : List Expr → List Part
  | [] => []
  | e :: es => e.parts ++ Expr.partsAll es

end

mutual

/-- The parts of a statement. -/
def Stmt.parts : Stmt → List Part
  | .assign _ _ value | .tupleAssign _ _ value | .expr _ value | .ret _ (some value) => value.parts
  | .ret _ none | .breakLoop _ | .continueLoop _ => []
  | .branch _ condition thenBody elseBody =>
    condition.parts ++ (Stmt.partsAll thenBody ++ Stmt.partsAll elseBody)
  | .whileLoop _ condition body => condition.parts ++ Stmt.partsAll body
  | .forLoop _ _ varType iterable body =>
    .type varType :: (iterable.parts ++ Stmt.partsAll body)

/-- The same for some statements. -/
def Stmt.partsAll : List Stmt → List Part
  | [] => []
  | s :: ss => s.parts ++ Stmt.partsAll ss

end

namespace Function

/-- The parts of a function. -/
def parts (f : Function) : List Part :=
  f.params.map (fun p => .type p.type) ++ .type f.result :: Stmt.partsAll f.body

/-- The types in a function. -/
def types (f : Function) : List Ty :=
  f.parts.filterMap fun | .type t => some t | _ => none

/-- The nats in a function. -/
def nats (f : Function) : List NatTerm :=
  f.parts.filterMap fun | .nat n => some n | .natParam name => some (.var name) | _ => none

/-- The calls in a function. -/
def calls (f : Function) : List CallTarget :=
  f.parts.filterMap fun | .call _ c => some c | _ => none

@[simp] theorem mem_types {f : Function} {t : Ty} : t ∈ f.types ↔ .type t ∈ f.parts := by
  simp only [types, List.mem_filterMap]
  constructor
  · rintro ⟨p, hp, h⟩
    cases p <;> cases h
    exact hp
  · intro h
    exact ⟨_, h, rfl⟩

@[simp] theorem mem_nats {f : Function} {n : NatTerm} :
    n ∈ f.nats ↔ .nat n ∈ f.parts ∨ ∃ name, .natParam name ∈ f.parts ∧ n = .var name := by
  simp only [nats, List.mem_filterMap]
  constructor
  · rintro ⟨p, hp, h⟩
    cases p <;> cases h
    · exact .inl hp
    · exact .inr ⟨_, hp, rfl⟩
  · rintro (h | ⟨name, h, rfl⟩)
    · exact ⟨_, h, rfl⟩
    · exact ⟨_, h, rfl⟩

@[simp] theorem mem_calls {f : Function} {c : CallTarget} :
    c ∈ f.calls ↔ ∃ location, .call location c ∈ f.parts := by
  simp only [calls, List.mem_filterMap]
  constructor
  · rintro ⟨p, hp, h⟩
    cases p <;> cases h
    exact ⟨_, hp⟩
  · rintro ⟨location, h⟩
    exact ⟨_, h, rfl⟩

end Function

/-! ## Specialized programs -/

/-- A call with its generic arguments instantiated. -/
def CallTarget.inst (I : Instantiation) (c : CallTarget) : CallTarget :=
  { c with typeArgs := c.typeArgs.map I.apply, natArgs := c.natArgs.map I.applyNat }

/-- A call with its generic arguments instantiated, which names what it invokes. -/
def CallTarget.specialize (I : Instantiation) (c : CallTarget) : CallTarget :=
  { c.inst I with specialization := some (c.inst I).key.text }

/-- What becomes of a nat parameter that is used as a value: a literal, if its argument is a
    constant. -/
def natValue (I : Instantiation) (location : Location) (n : String) : Expr :=
  match I.applyNat (.var n) with
  | .const value => .int location .nat value.toInt64
  | .var name => .natParam location name
  | .undet _ => .natParam location n

mutual

/-- An expression with arguments put for generic parameters. -/
def Expr.specialize (I : Instantiation) : Expr → Expr
  | .int location t value => .int location (I.apply t) value
  | .float location value => .float location value
  | .bool location value => .bool location value
  | .name location t n use => .name location (I.apply t) n use
  | .natParam location n => natValue I location n
  | .fnRef location t n => .fnRef location (I.apply t) n
  | .tuple location t elems => .tuple location (I.apply t) (Expr.specializeAll I elems)
  | .array location t elems => .array location (I.apply t) (Expr.specializeAll I elems)
  | .call location t target args =>
    .call location (I.apply t) (target.specialize I) (Expr.specializeAll I args)
  | .field location t object label index use =>
    .field location (I.apply t) (object.specialize I) label index use
  | .subscript location t indexed index use =>
    .subscript location (I.apply t) (indexed.specialize I) (index.specialize I) use

/-- The same for some expressions. -/
def Expr.specializeAll (I : Instantiation) : List Expr → List Expr
  | [] => []
  | e :: es => e.specialize I :: Expr.specializeAll I es

end

mutual

/-- A statement with arguments put for generic parameters. -/
def Stmt.specialize (I : Instantiation) : Stmt → Stmt
  | .assign location target value => .assign location target (value.specialize I)
  | .tupleAssign location targets value => .tupleAssign location targets (value.specialize I)
  | .expr location value => .expr location (value.specialize I)
  | .ret location value => .ret location (value.map (Expr.specialize I))
  | .branch location condition thenBody elseBody =>
    .branch location (condition.specialize I) (Stmt.specializeAll I thenBody)
      (Stmt.specializeAll I elseBody)
  | .whileLoop location condition body =>
    .whileLoop location (condition.specialize I) (Stmt.specializeAll I body)
  | .forLoop location loopVar varType iterable body =>
    .forLoop location loopVar (I.apply varType) (iterable.specialize I)
      (Stmt.specializeAll I body)
  | .breakLoop location => .breakLoop location
  | .continueLoop location => .continueLoop location

/-- The same for some statements. -/
def Stmt.specializeAll (I : Instantiation) : List Stmt → List Stmt
  | [] => []
  | s :: ss => s.specialize I :: Stmt.specializeAll I ss

end

/-- A parameter with arguments put for generic parameters. -/
def specializeParam (I : Instantiation) (p : Param) : Param := { p with type := I.apply p.type }

/-- A function with arguments put for generic parameters, of which it has none left. -/
def Function.specialize (I : Instantiation) (f : Function) : Function :=
  { f with
    generics := {}, params := f.params.map (specializeParam I), result := I.apply f.result
    body := Stmt.specializeAll I f.body }

/-- A part with arguments put for generic parameters. -/
def Part.specialize (I : Instantiation) : Part → Part
  | .type t => .type (I.apply t)
  | .nat n => .nat (I.applyNat n)
  | .natParam n =>
    match I.applyNat (.var n) with
    | .const _ => .type .nat
    | .var name => .natParam name
    | .undet _ => .natParam n
  | .call location c => .call location (c.specialize I)

mutual

theorem Expr.parts_specialize (I : Instantiation) : ∀ e : Expr,
    (e.specialize I).parts = e.parts.map (Part.specialize I)
  | .int _ _ _ | .float _ _ | .bool _ _ | .name _ _ _ _ | .fnRef _ _ _ => rfl
  | .natParam location n => by
    simp only [specialize, natValue, parts, List.map_cons, List.map_nil, Part.specialize]
    cases I.applyNat (.var n) <;> rfl
  | .tuple _ _ elems | .array _ _ elems => by
    simp only [specialize, parts, List.map_cons, Expr.partsAll_specializeAll I elems,
      Part.specialize]
  | .call _ _ target args => by
    simp [specialize, parts, Expr.partsAll_specializeAll I args, Part.specialize,
      CallTarget.specialize, CallTarget.inst, Function.comp_def]
  | .field _ _ object _ _ _ => by
    simp only [specialize, parts, List.map_cons, Expr.parts_specialize I object, Part.specialize]
  | .subscript _ _ indexed index _ => by
    simp only [specialize, parts, List.map_cons, List.map_append, Expr.parts_specialize I indexed,
      Expr.parts_specialize I index, Part.specialize]

theorem Expr.partsAll_specializeAll (I : Instantiation) : ∀ es : List Expr,
    Expr.partsAll (Expr.specializeAll I es) = (Expr.partsAll es).map (Part.specialize I)
  | [] => rfl
  | e :: es => by
    simp only [specializeAll, partsAll, List.map_append, Expr.parts_specialize I e,
      Expr.partsAll_specializeAll I es]

end

mutual

theorem Stmt.parts_specialize (I : Instantiation) : ∀ s : Stmt,
    (s.specialize I).parts = s.parts.map (Part.specialize I)
  | .assign _ _ value | .tupleAssign _ _ value | .expr _ value | .ret _ (some value) => by
    simp only [specialize, parts, Option.map_some, value.parts_specialize I]
  | .ret _ none | .breakLoop _ | .continueLoop _ => rfl
  | .branch _ condition thenBody elseBody => by
    simp only [specialize, parts, List.map_append, condition.parts_specialize I,
      Stmt.partsAll_specializeAll I thenBody, Stmt.partsAll_specializeAll I elseBody]
  | .whileLoop _ condition body => by
    simp only [specialize, parts, List.map_append, condition.parts_specialize I,
      Stmt.partsAll_specializeAll I body]
  | .forLoop _ _ varType iterable body => by
    simp only [specialize, parts, List.map_cons, List.map_append, iterable.parts_specialize I,
      Stmt.partsAll_specializeAll I body, Part.specialize]

theorem Stmt.partsAll_specializeAll (I : Instantiation) : ∀ ss : List Stmt,
    Stmt.partsAll (Stmt.specializeAll I ss) = (Stmt.partsAll ss).map (Part.specialize I)
  | [] => rfl
  | s :: ss => by
    simp only [specializeAll, partsAll, List.map_append, Stmt.parts_specialize I s,
      Stmt.partsAll_specializeAll I ss]

end

theorem Function.parts_specialize (I : Instantiation) (f : Function) :
    (f.specialize I).parts = f.parts.map (Part.specialize I) := by
  simp [parts, specialize, specializeParam, Stmt.partsAll_specializeAll, Part.specialize,
    Function.comp_def]

variable {I : Instantiation} {f : Function}

theorem Function.type_mem_specialize {t : Ty} :
    .type t ∈ (f.specialize I).parts ↔ (∃ t', .type t' ∈ f.parts ∧ I.apply t' = t) ∨
      t = .nat ∧
        ∃ name value, .natParam name ∈ f.parts ∧ I.applyNat (.var name) = .const value := by
  rw [parts_specialize, List.mem_map]
  constructor
  · rintro ⟨part, hp, h⟩
    cases part with
    | type t' =>
      cases h
      exact .inl ⟨t', hp, rfl⟩
    | natParam name =>
      simp only [Part.specialize] at h
      split at h
      · next value hv =>
        cases h
        exact .inr ⟨rfl, name, value, hp, hv⟩
      · cases h
      · cases h
    | nat _ => cases h
    | call _ _ => cases h
  · rintro (⟨t', hp, rfl⟩ | ⟨rfl, name, value, hp, hv⟩)
    · exact ⟨_, hp, rfl⟩
    · exact ⟨_, hp, by simp only [Part.specialize, hv]⟩

theorem Function.call_mem_specialize {location : Location} {c : CallTarget} :
    .call location c ∈ (f.specialize I).parts ↔
      ∃ c', .call location c' ∈ f.parts ∧ c'.specialize I = c := by
  rw [parts_specialize, List.mem_map]
  constructor
  · rintro ⟨part, hp, h⟩
    cases part with
    | call location' c' =>
      cases h
      exact ⟨c', hp, rfl⟩
    | natParam name =>
      simp only [Part.specialize] at h
      split at h <;> cases h
    | type _ => cases h
    | nat _ => cases h
  · rintro ⟨c', hp, rfl⟩
    exact ⟨_, hp, rfl⟩

/-! ## Replacing -/

/-- `does x ps a` says that the computation `x` does what is to be done for the parts `ps`, in their
    order, and yields `a`.  A replacement is of this kind if it puts arguments for generic
    parameters and does one thing for each type, nat and call. -/
structure Replacement.Tracks {σ : Type} (r : Replacement σ) (I : Instantiation)
    (does : ∀ {α : Type}, Analysis σ α → List Part → α → Prop) : Prop where
  pure {α : Type} (a : α) : does (pure a) [] a
  bind {α β : Type} {x : Analysis σ α} {f : α → Analysis σ β} {p q : List Part} {a : α} {b : β} :
    does x p a → does (f a) q b → does (x >>= f) (p ++ q) b
  type (t : Ty) : does (r.type t) [.type t] (I.apply t)
  nat (n : NatTerm) : does (r.nat n) [.nat n] (I.applyNat n)
  natParam (location : Location) (n : String) :
    does (r.nat (.var n) >>= natParamValue location n) [.natParam n] (natValue I location n)
  call (location : Location) (c : CallTarget) :
    does (r.call location (c.inst I)) [.call location c] (c.specialize I)

namespace Replacement.Tracks

variable {σ α β : Type} {r : Replacement σ} {I : Instantiation}
  {does : ∀ {α : Type}, Analysis σ α → List Part → α → Prop}

theorem bindPure (h : r.Tracks I does) {x : Analysis σ α} {f : α → β} {ps : List Part} {a : α}
    (hx : does x ps a) : does (x >>= fun a => Pure.pure (f a)) ps (f a) := by
  have := h.bind (f := fun a => Pure.pure (f a)) hx (h.pure (f a))
  rwa [List.append_nil] at this

theorem mapM (h : r.Tracks I does) {f : α → Analysis σ β} {part : α → Part} {g : α → β}
    (hf : ∀ a, does (f a) [part a] (g a)) (l : List α) :
    does (l.mapM f) (l.map part) (l.map g) := by
  induction l with
  | nil =>
    rw [List.mapM_nil]
    exact h.pure []
  | cons a l ih =>
    rw [List.mapM_cons]
    exact h.bind (hf a) (h.bindPure ih)

theorem replaceArgs (h : r.Tracks I does) (c : CallTarget) :
    does (c.replaceArgs r) (c.typeArgs.map .type ++ c.natArgs.map .nat) (c.inst I) :=
  h.bind (h.mapM h.type c.typeArgs) (h.bindPure (h.mapM h.nat c.natArgs))

mutual

theorem expr (h : r.Tracks I does) : ∀ e : Expr, does (e.replace r) e.parts (e.specialize I)
  | .int _ t _ => h.bindPure (h.type t)
  | .float _ _ => h.pure _
  | .bool _ _ => h.pure _
  | .name _ t _ _ => h.bindPure (h.type t)
  | .natParam location n => h.natParam location n
  | .fnRef _ t _ => h.bindPure (h.type t)
  | .tuple _ t elems => h.bind (h.type t) (h.bindPure (exprs h elems))
  | .array _ t elems => h.bind (h.type t) (h.bindPure (exprs h elems))
  | .call location t target args => by
    refine h.bind (h.replaceArgs target) (h.bind (p := [.type t]) (h.type t) ?_)
    exact h.bind (exprs h args) (h.bindPure (h.call location target))
  | .field _ t object _ _ _ => h.bind (h.type t) (h.bindPure (expr h object))
  | .subscript _ t indexed index _ =>
    h.bind (h.type t) (h.bind (expr h indexed) (h.bindPure (expr h index)))

theorem exprs (h : r.Tracks I does) : ∀ es : List Expr,
    does (Expr.replaceAll r es) (Expr.partsAll es) (Expr.specializeAll I es)
  | [] => h.pure _
  | e :: es => h.bind (expr h e) (h.bindPure (exprs h es))

end

mutual

theorem stmt (h : r.Tracks I does) : ∀ s : Stmt, does (s.replace r) s.parts (s.specialize I)
  | .assign _ _ value => h.bindPure (h.expr value)
  | .tupleAssign _ _ value => h.bindPure (h.expr value)
  | .expr _ value => h.bindPure (h.expr value)
  | .ret _ none => h.pure _
  | .ret _ (some value) => h.bindPure (h.expr value)
  | .branch _ condition thenBody elseBody =>
    h.bind (h.expr condition) (h.bind (stmts h thenBody) (h.bindPure (stmts h elseBody)))
  | .whileLoop _ condition body => h.bind (h.expr condition) (h.bindPure (stmts h body))
  | .forLoop _ _ varType iterable body =>
    h.bind (h.type varType) (h.bind (h.expr iterable) (h.bindPure (stmts h body)))
  | .breakLoop _ => h.pure _
  | .continueLoop _ => h.pure _

theorem stmts (h : r.Tracks I does) : ∀ ss : List Stmt,
    does (Stmt.replaceAll r ss) (Stmt.partsAll ss) (Stmt.specializeAll I ss)
  | [] => h.pure _
  | s :: ss => h.bind (stmt h s) (h.bindPure (stmts h ss))

end

end Replacement.Tracks

/-- **Replacing the types of a function** does what it does for each of its parts, one after the
    other, and yields the specialized function, which still has its generic parameters. -/
theorem Function.tracks_replace {σ : Type} {r : Replacement σ}
    {does : ∀ {α : Type}, Analysis σ α → List Part → α → Prop} (h : r.Tracks I does)
    (f : Function) : does (f.replace r) f.parts { f.specialize I with generics := f.generics } := by
  refine h.bind (h.mapM (fun p => h.bindPure (h.type p.type)) f.params) ?_
  exact h.bind (p := [.type f.result]) (h.type f.result) (h.bindPure (h.stmts f.body))

/-! ## Inferred programs -/

/-- A part with what has been found out put in. -/
def Part.subst (S : Substitution) : Part → Part
  | .type t => .type (t.subst S)
  | .nat n => .nat (n.subst S)
  | .natParam n => .natParam n
  | .call location c => .call location (c.subst S)

mutual

theorem Expr.parts_subst (S : Substitution) : ∀ e : Expr,
    (e.subst S).parts = e.parts.map (Part.subst S)
  | .int _ _ _ | .float _ _ | .bool _ _ | .name _ _ _ _ | .natParam _ _ | .fnRef _ _ _ => rfl
  | .tuple _ _ elems | .array _ _ elems => by
    simp only [subst, parts, List.map_cons, Expr.partsAll_substAll S elems, Part.subst]
  | .call _ _ target args => by
    simp [subst, parts, Expr.partsAll_substAll S args, Part.subst, CallTarget.subst,
      Function.comp_def]
  | .field _ _ object _ _ _ => by
    simp only [subst, parts, List.map_cons, Expr.parts_subst S object, Part.subst]
  | .subscript _ _ indexed index _ => by
    simp only [subst, parts, List.map_cons, List.map_append, Expr.parts_subst S indexed,
      Expr.parts_subst S index, Part.subst]

theorem Expr.partsAll_substAll (S : Substitution) : ∀ es : List Expr,
    Expr.partsAll (Expr.substAll S es) = (Expr.partsAll es).map (Part.subst S)
  | [] => rfl
  | e :: es => by
    simp only [substAll, partsAll, List.map_append, Expr.parts_subst S e,
      Expr.partsAll_substAll S es]

end

mutual

theorem Stmt.parts_subst (S : Substitution) : ∀ s : Stmt,
    (s.subst S).parts = s.parts.map (Part.subst S)
  | .assign _ _ value | .tupleAssign _ _ value | .expr _ value | .ret _ (some value) => by
    simp only [subst, parts, Option.map_some, value.parts_subst S]
  | .ret _ none | .breakLoop _ | .continueLoop _ => rfl
  | .branch _ condition thenBody elseBody => by
    simp only [subst, parts, List.map_append, condition.parts_subst S,
      Stmt.partsAll_substAll S thenBody, Stmt.partsAll_substAll S elseBody]
  | .whileLoop _ condition body => by
    simp only [subst, parts, List.map_append, condition.parts_subst S,
      Stmt.partsAll_substAll S body]
  | .forLoop _ _ varType iterable body => by
    simp only [subst, parts, List.map_cons, List.map_append, iterable.parts_subst S,
      Stmt.partsAll_substAll S body, Part.subst]

theorem Stmt.partsAll_substAll (S : Substitution) : ∀ ss : List Stmt,
    Stmt.partsAll (Stmt.substAll S ss) = (Stmt.partsAll ss).map (Part.subst S)
  | [] => rfl
  | s :: ss => by
    simp only [substAll, partsAll, List.map_append, Stmt.parts_subst S s,
      Stmt.partsAll_substAll S ss]

end

/-- **An inferred function has the parts of the function, with what has been found out put in.** -/
theorem Function.parts_subst (S : Substitution) (f : Function) :
    (f.subst S).parts = f.parts.map (Part.subst S) := by
  simp [parts, subst, Stmt.partsAll_substAll, Part.subst, Function.comp_def]

/-! ## The types of the parts -/

/-- A part is not a type, or satisfies `P`. -/
def Part.TypeIs (P : Ty → Prop) : Part → Prop
  | .type t => P t
  | .nat _ | .natParam _ | .call _ _ => True

section

variable {P : Ty → Prop}

theorem Expr.forall_mem_partsAll {Q : Part → Prop} {es : List Expr} :
    (∀ p ∈ Expr.partsAll es, Q p) ↔ ∀ e ∈ es, ∀ p ∈ e.parts, Q p := by
  induction es with
  | nil => simp [Expr.partsAll]
  | cons e es ih => rw [Expr.partsAll, List.forall_mem_append, ih, List.forall_mem_cons]

theorem Stmt.forall_mem_partsAll {Q : Part → Prop} {ss : List Stmt} :
    (∀ p ∈ Stmt.partsAll ss, Q p) ↔ ∀ s ∈ ss, ∀ p ∈ s.parts, Q p := by
  induction ss with
  | nil => simp [Stmt.partsAll]
  | cons s ss ih => rw [Stmt.partsAll, List.forall_mem_append, ih, List.forall_mem_cons]

mutual

theorem Expr.eachType_iff : ∀ e : Expr, e.EachType P ↔ ∀ p ∈ e.parts, p.TypeIs P
  | .int _ _ _ | .name _ _ _ _ | .fnRef _ _ _ | .natParam _ _ => by
    simp [EachType, parts, Part.TypeIs]
  | .float _ _ | .bool _ _ => by simp [EachType, parts]
  | .tuple _ _ elems | .array _ _ elems => by
    simp only [EachType, parts, List.forall_mem_cons, Expr.eachTypeAll_iff_parts elems, Part.TypeIs]
  | .call _ _ target args => by
    simp only [EachType, parts, List.forall_mem_append, List.forall_mem_cons, List.forall_mem_map,
      Expr.eachTypeAll_iff_parts args, Part.TypeIs]
    simp [and_left_comm]
  | .field _ _ object _ _ _ => by
    simp only [EachType, parts, List.forall_mem_cons, Expr.eachType_iff object, Part.TypeIs]
  | .subscript _ _ indexed index _ => by
    simp only [EachType, parts, List.forall_mem_cons, List.forall_mem_append,
      Expr.eachType_iff indexed, Expr.eachType_iff index, Part.TypeIs]

theorem Expr.eachTypeAll_iff_parts : ∀ es : List Expr,
    Expr.EachTypeAll P es ↔ ∀ p ∈ Expr.partsAll es, p.TypeIs P
  | [] => by simp [EachTypeAll, partsAll]
  | e :: es => by
    simp only [EachTypeAll, partsAll, List.forall_mem_append, Expr.eachType_iff e,
      Expr.eachTypeAll_iff_parts es]

end

mutual

theorem Stmt.eachType_iff : ∀ s : Stmt, s.EachType P ↔ ∀ p ∈ s.parts, p.TypeIs P
  | .assign _ _ value | .tupleAssign _ _ value | .expr _ value => value.eachType_iff
  | .ret _ (some value) => by simp [EachType, parts, value.eachType_iff]
  | .ret _ none | .breakLoop _ | .continueLoop _ => by simp [EachType, parts]
  | .branch _ condition thenBody elseBody => by
    simp only [EachType, parts, List.forall_mem_append, condition.eachType_iff,
      Stmt.eachTypeAll_iff thenBody, Stmt.eachTypeAll_iff elseBody]
  | .whileLoop _ condition body => by
    simp only [EachType, parts, List.forall_mem_append, condition.eachType_iff,
      Stmt.eachTypeAll_iff body]
  | .forLoop _ _ varType iterable body => by
    simp only [EachType, parts, List.forall_mem_cons, List.forall_mem_append,
      iterable.eachType_iff, Stmt.eachTypeAll_iff body, Part.TypeIs]

theorem Stmt.eachTypeAll_iff : ∀ ss : List Stmt,
    Stmt.EachTypeAll P ss ↔ ∀ p ∈ Stmt.partsAll ss, p.TypeIs P
  | [] => by simp [EachTypeAll, partsAll]
  | s :: ss => by
    simp only [EachTypeAll, partsAll, List.forall_mem_append, Stmt.eachType_iff s,
      Stmt.eachTypeAll_iff ss]

end

theorem Function.eachType_iff {f : Function} : f.EachType P ↔ ∀ t ∈ f.types, P t := by
  have parts : f.EachType P ↔ ∀ p ∈ f.parts, p.TypeIs P := by
    rw [Function.parts, List.forall_mem_append, List.forall_mem_cons, List.forall_mem_map,
      ← Stmt.eachTypeAll_iff]
    exact ⟨fun h => ⟨h.params, h.result, h.body⟩, fun h => ⟨h.1, h.2.1, h.2.2⟩⟩
  rw [parts]
  constructor
  · exact fun h t ht => h (.type t) (mem_types.mp ht)
  · rintro h (t | n | n | c) hp
    · exact h t (mem_types.mpr hp)
    all_goals trivial

theorem Function.EachType.subst {S : Substitution} (h : ∀ t, P t → P (t.subst S)) {f : Function}
    (hf : f.EachType P) : (f.subst S).EachType P := by
  rw [eachType_iff] at hf ⊢
  intro t ht
  rw [mem_types, parts_subst, List.mem_map] at ht
  obtain ⟨p, hp, ht⟩ := ht
  cases p <;> cases ht
  exact h _ (hf _ (mem_types.mpr hp))

end

end QuantumStatics.Typed
