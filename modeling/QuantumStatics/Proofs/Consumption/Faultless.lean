/-
  The analysis of checked functions never breaks down.

  Following the bindings through a function may break down for three reasons: a type has no
  ownership class, a type does not have the shape that its expression needs, or a jump stands
  outside of all loops.  A checked function gives no reason, unless it drops a value whose type is
  left to be inferred.

  * `Consumption.checkFunction_faultless`: well-typed functions whose types have a class give none;
  * `Elaboration.elaborate_determined_and_faultless`: checked functions.
-/
import QuantumStatics.Proofs.Classification.Plain
import QuantumStatics.Proofs.Elaboration.Dropped
import QuantumStatics.Proofs.Elaboration.Nesting
import QuantumStatics.Proofs.Program.Headers

namespace QuantumStatics

/-! ## Types -/

/-- A type leaves nothing to be inferred, and every struct is applied to as many arguments as it
    takes. -/
structure Ty.Classified (t : Ty) : Prop where
  determined : t.determined
  applied : t.applied

namespace Ty.Classified

variable {t : Ty}

theorem component (h : t.Classified) {u : Ty} (hu : u ∈ t.components) : u.Classified := by
  obtain ⟨ground, declared⟩ := determined_iff.mp h.determined
  refine ⟨determined_iff.mpr ⟨ground.component hu, declared_of_mem_components declared hu⟩, ?_⟩
  exact eachStruct_of_mem_components h.applied hu

theorem fields {d : StructDecl} {types : List Ty} {nats : List NatTerm} {fields : List Field}
    (h : (struct d types nats).Classified) (hf : d.instantiateFields types nats = .ok fields) :
    ∀ f ∈ fields, f.type.Classified := by
  obtain ⟨ground, declared⟩ := determined_iff.mp h.determined
  have own : ∀ f ∈ d.fields, f.type.Ground := fun f hm =>
    (determined_iff.mp (StructDecl.determined_iff.mp (Bool.and_eq_true_iff.mp declared).1 f hm)).1
  intro f hm
  refine ⟨determined_iff.mpr ⟨?_, ?_⟩, ?_⟩
  · exact groundIn_empty.mp
      (StructDecl.groundIn_of_instantiateFields own (groundIn_empty.mpr ground) hf f hm)
  · exact StructDecl.declared_of_instantiateFields declared hf f hm
  · exact StructDecl.eachStruct_of_instantiateFields h.applied hf f hm

theorem parts (h : t.Classified) : ∃ c ps, t.parts = .ok (c, ps) ∧ ∀ u ∈ ps, u.Classified := by
  cases t with
  | prim | var | fn => exact ⟨_, [], rfl, nofun⟩
  | undet => exact absurd (determined_iff.mp h.determined).1 not_ground_undet
  | tuple | array | option => exact ⟨_, _, rfl, fun u hu => h.component hu⟩
  | struct d types nats =>
    obtain ⟨fields, hf⟩ := StructDecl.exists_instantiateFields h.applied
    refine ⟨.copyable, fields.map (·.type), ?_, List.forall_mem_map.mpr (h.fields hf)⟩
    rw [Ty.parts, hf]
    rfl

end Ty.Classified

namespace ClassMemo

theorem exists_classify_of_derive {t : Ty} {m : ClassMemo}
    (h : ∃ c m₁, derive t m = .ok c m₁) : ∃ c m₁, classify t m = .ok c m₁ := by
  obtain ⟨c, m₁, h⟩ := h
  by_cases closed : t.closed
  · cases hg : m.classes.get? t.text with
    | some c => exact ⟨c, m, classify_of_get? closed hg⟩
    | none =>
      rw [classify_of_get?_eq_none closed hg, h]
      exact ⟨_, _, rfl⟩
  · rw [classify, if_neg closed]
    exact ⟨c, m₁, h⟩

theorem exists_classifyAll {ts : List Ty} (h : ∀ t ∈ ts, ∀ m, ∃ c m₁, classify t m = .ok c m₁)
    (c : OwnershipClass) (m : ClassMemo) : ∃ c' m₁, classifyAll c ts m = .ok c' m₁ := by
  induction ts generalizing c m with
  | nil =>
    rw [classifyAll]
    exact ⟨c, m, rfl⟩
  | cons t ts ih =>
    obtain ⟨first, others⟩ := List.forall_mem_cons.mp h
    obtain ⟨c', m₁, first⟩ := first m
    obtain ⟨c'', m₂, rest⟩ := ih others (c.join c') m₁
    rw [classifyAll]
    exact ⟨c'', m₂, bind_eq_ok.mpr ⟨c', m₁, first, rest⟩⟩

/-- **Types that leave nothing to be inferred have a class**, if every struct is applied to as many
    arguments as it takes. -/
theorem exists_classify (t : Ty) (ht : t.Classified) (m : ClassMemo) :
    ∃ c m₁, classify t m = .ok c m₁ := by
  induction t using Ty.parts_induction generalizing m with
  | step t ih =>
    refine exists_classify_of_derive ?_
    obtain ⟨c, ps, hp, hps⟩ := ht.parts
    rw [derive_of_parts hp]
    exact exists_classifyAll (fun u hu => ih c ps hp u hu (hps u hu)) c m

end ClassMemo

namespace Consumption

open Typed (Expr Stmt UseKind)

/-! ## Flows -/

/-- A computation without state succeeds or rejects the program. -/
def Rejecting {α : Type} : Except Failure α → Prop
  | .ok _ | .error (.rejected _) => True
  | .error (.defect _) => False

section Flows

variable {α β : Type} {location : Location}

theorem Rejecting.bind {x : Except Failure α} {f : α → Except Failure β} (hx : Rejecting x)
    (hf : ∀ a, Rejecting (f a)) : Rejecting (x >>= f) := by
  match x with
  | .ok a => exact hf a
  | .error (.rejected _) => trivial
  | .error (.defect _) => exact hx

theorem Rejecting.ite {c : Prop} [Decidable c] {x y : Except Failure α} (hx : Rejecting x)
    (hy : Rejecting y) : Rejecting (if c then x else y) := by
  split
  · exact hx
  · exact hy

theorem Rejecting.forM {f : α → Except Failure PUnit} {l : List α} (hf : ∀ a, Rejecting (f a)) :
    Rejecting (l.forM f) := by
  induction l with
  | nil => trivial
  | cons a l ih => exact (hf a).bind fun _ => ih

theorem Binding.merge_rejecting (name : String) (l r : Binding) :
    Rejecting (Binding.merge location name l r) :=
  .ite trivial (.ite (.ite (.ite trivial trivial) trivial) trivial)

theorem Flow.mergeEach_rejecting (l : List (String × Option Binding × Option Binding)) :
    Rejecting (Flow.mergeEach location l) := by
  induction l with
  | nil => trivial
  | cons p l ih =>
    obtain ⟨name, l, r⟩ := p
    exact (Binding.merge_rejecting name _ _).bind fun _ => ih.bind fun _ => trivial

theorem Flow.merge_rejecting (l r : Flow) : Rejecting (l.merge location r) :=
  .ite trivial (.ite trivial ((Flow.mergeEach_rejecting _).bind fun _ => trivial))

theorem Flow.mergeAll_rejecting (l : Flow) (rs : List Flow) :
    Rejecting (l.mergeAll location rs) := by
  induction rs generalizing l with
  | nil => trivial
  | cons r rs ih => exact (Flow.merge_rejecting l r).bind fun m => ih m

theorem Flow.checkExit_rejecting (flow : Flow) : Rejecting (flow.checkExit location) :=
  .forM fun _ => .ite (.ite trivial trivial) (.ite trivial trivial)

theorem LoopFrame.checkLoopVar_rejecting (frame : LoopFrame) (flow : Flow) :
    Rejecting (frame.checkLoopVar flow location) := by
  refine .ite trivial ?_
  split
  · exact .ite trivial trivial
  · trivial

theorem LoopFrame.checkBackEdge_rejecting (frame : LoopFrame) (edge : Flow) :
    Rejecting (frame.checkBackEdge edge location) :=
  (frame.checkLoopVar_rejecting edge).bind fun _ =>
    .forM fun _ => .ite (.ite trivial (.ite trivial trivial)) trivial

theorem LoopFrame.exitAfter_rejecting (frame : LoopFrame) (exit : Flow) (edges : List Flow) :
    Rejecting (frame.exitAfter location exit edges) := by
  induction edges generalizing exit with
  | nil => trivial
  | cons edge edges ih =>
    exact (frame.checkBackEdge_rejecting edge).bind fun _ =>
      (Flow.merge_rejecting exit edge).bind fun m => ih m

theorem LoopFrame.exit_rejecting (frame : LoopFrame) (atEnd : Flow) :
    Rejecting (frame.exit atEnd location) :=
  (frame.exitAfter_rejecting _ _).bind fun exit => exit.mergeAll_rejecting _

end Flows

/-! ## Computations -/

/-- A computation that starts inside of `n` loops ends inside of `m` or rejects the program. -/
def Faultless {α : Type} (n m : Nat) (x : Follow α) : Prop :=
  ∀ s, s.loops.length = n → match x s with
    | .ok _ s' => s'.loops.length = m
    | .error (.rejected _) _ => True
    | .error (.defect _) _ => False

namespace Faultless

variable {α β : Type} {n m k : Nat} {location : Location} {cause : Cause} {c : Prop}

theorem pure {a : α} : Faultless n n (pure a) := fun _ hs => hs

theorem bind {x : Follow α} {f : α → Follow β} (hx : Faultless n m x)
    (hf : ∀ a, Faultless m k (f a)) : Faultless n k (x >>= f) := by
  intro s hs
  have first := hx s hs
  change match EStateM.bind x f s with
    | .ok _ s' => s'.loops.length = k
    | .error (.rejected _) _ => True
    | .error (.defect _) _ => False
  unfold EStateM.bind
  match hr : x s with
  | .ok a s₁ =>
    rw [hr] at first
    exact hf a s₁ first
  | .error (.rejected _) _ => trivial
  | .error (.defect _) _ =>
    rw [hr] at first
    exact first

theorem reject : Faultless n m (Analysis.reject location cause : Follow α) := fun _ _ => trivial

theorem get {f : FlowState → Follow β} (hf : ∀ s, s.loops.length = n → Faultless n m (f s)) :
    Faultless n m (get >>= f) := fun s hs => hf s hs s hs

theorem modify {f : FlowState → FlowState} (h : ∀ s, s.loops.length = n → (f s).loops.length = m) :
    Faultless n m (modify f : Follow Unit) := h

theorem ofExcept {x : Except Failure α} (h : Rejecting x) :
    Faultless n n (Analysis.ofExcept x : Follow α) := by
  match x with
  | .ok a => exact .pure
  | .error (.rejected _) => exact fun _ _ => trivial
  | .error (.defect _) => exact h.elim

theorem ofDefect {x : Except Defect α} {a : α} {f : α → Follow β} (h : x = .ok a)
    (hf : Faultless n m (f a)) : Faultless n m (Analysis.ofDefect x >>= f) := by
  rw [h]
  exact hf

theorem step [Decidable c] {x : Follow PUnit} {f : PUnit → Follow β} (hx : Faultless n n x)
    (hf : Faultless n m (f ⟨⟩)) : Faultless n m (if c then x >>= f else f ⟨⟩) := by
  split
  · exact hx.bind fun _ => hf
  · exact hf

theorem guard [Decidable c] {f : PUnit → Follow β} (hf : Faultless n m (f ⟨⟩)) :
    Faultless n m (if c then Analysis.reject location cause >>= f else f ⟨⟩) :=
  step reject hf

end Faultless

namespace Follow

variable {n : Nat} {location : Location} {T : SignatureTable} {name : String}

theorem classify_faultless {t : Ty} (h : t.Classified) : Faultless n n (classify t) := by
  intro s hs
  obtain ⟨c, memo, hc⟩ := ClassMemo.exists_classify t h s.memo
  rw [classify, hc]
  exact hs

theorem binding?_faultless : Faultless n n (binding? name) :=
  .get fun _ _ => .pure

theorem setBinding_faultless {b : Binding} : Faultless n n (setBinding name b) :=
  .modify fun _ hs => hs

theorem setFlow_faultless {flow : Flow} : Faultless n n (setFlow flow) := .modify fun _ hs => hs

theorem jump_faultless : Faultless n n jump := .modify fun _ hs => hs

theorem definedBinding_faultless : Faultless n n (definedBinding name location) := by
  refine binding?_faultless.bind fun b => ?_
  split
  · exact .reject
  · split
    · exact .reject
    · exact .reject
    · exact .reject
    · exact .pure

theorem useName_faultless {use : UseKind} : Faultless n n (useName name use location) := by
  refine definedBinding_faultless.bind fun b => ?_
  split
  · exact setBinding_faultless
  · exact .pure

theorem bind_faultless {t : Ty} (ht : t.Classified) : Faultless n n (Follow.bind name t location) :=
  binding?_faultless.bind fun _ => .guard
    ((classify_faultless ht).bind fun _ => setBinding_faultless)

theorem bindAll_faultless {names : List String} {ts : List Ty} (h : ∀ t ∈ ts, t.Classified) :
    Faultless n n (bindAll location names ts) := by
  induction names generalizing ts with
  | nil => exact .pure
  | cons name names ih =>
    cases ts with
    | nil => exact .pure
    | cons t ts =>
      obtain ⟨ht, hts⟩ := List.forall_mem_cons.mp h
      exact (bind_faultless ht).bind fun _ => ih hts

theorem checkOtherFields_faultless {struct label : String} {index position : Nat}
    {fields : List Field} (h : ∀ f ∈ fields, f.type.Classified) :
    Faultless n n (checkOtherFields location struct label index position fields) := by
  induction fields generalizing position with
  | nil => exact .pure
  | cons f fs ih =>
    obtain ⟨hf, hfs⟩ := List.forall_mem_cons.mp h
    rw [checkOtherFields]
    split
    · exact (classify_faultless hf).bind fun _ => .guard (ih hfs)
    · exact ih hfs

end Follow

/-! ## Expressions -/

/-- A well-typed expression all of whose types have a class. -/
structure Followable (T : SignatureTable) (e : Expr) : Prop where
  wellTyped : e.WellTyped T
  classified : e.EachType Ty.Classified

namespace Followable

variable {T : SignatureTable} {location : Location} {t : Ty} {use : UseKind} {es : List Expr}

theorem type {e : Expr} (h : Followable T e) : e.type.Classified :=
  h.classified.type ⟨rfl, rfl⟩

theorem all (wellTyped : ∀ e ∈ es, e.WellTyped T)
    (classified : Expr.EachTypeAll Ty.Classified es) : ∀ e ∈ es, Followable T e :=
  fun e he => ⟨wellTyped e he, Typed.Expr.eachTypeAll_iff.mp classified e he⟩

theorem tuple (h : Followable T (.tuple location t es)) : ∀ e ∈ es, Followable T e := by
  cases h.wellTyped with
  | tuple elems _ => exact all elems h.classified.2

theorem array (h : Followable T (.array location t es)) : ∀ e ∈ es, Followable T e := by
  cases h.wellTyped with
  | array elems _ _ => exact all elems h.classified.2

theorem call {target : Typed.CallTarget} (h : Followable T (.call location t target es)) :
    ∀ e ∈ es, Followable T e := by
  cases h.wellTyped with
  | call args _ => exact all args h.classified.2.2

theorem field {object : Expr} {label : String} {index : Nat}
    (h : Followable T (.field location t object label index use)) :
    Followable T object ∧ ∃ d types nats fields, object.type = .struct d types nats ∧
      d.instantiateFields types nats = .ok fields ∧ ∀ f ∈ fields, f.type.Classified := by
  cases h.wellTyped with
  | field wellTyped struct _ instantiated _ _ =>
    have object : Followable T object := ⟨wellTyped, h.classified.2⟩
    exact ⟨object, _, _, _, _, struct, instantiated, (struct ▸ object.type).fields instantiated⟩

theorem subscript {indexed index : Expr}
    (h : Followable T (.subscript location t indexed index use)) :
    Followable T indexed ∧ Followable T index ∧ ∃ length, indexed.type = .array t length := by
  cases h.wellTyped with
  | subscript wellTyped wellTyped' array _ =>
    exact ⟨⟨wellTyped, h.classified.2.1⟩, ⟨wellTyped', h.classified.2.2⟩, _, array⟩

theorem base : ∀ (e : Expr), Followable T e → Followable T e.base
  | .field _ _ object _ _ _, h => base object h.field.1
  | .subscript _ _ indexed _ _, h => base indexed h.subscript.1
  | .int .., h | .float .., h | .bool .., h | .name .., h | .natParam .., h | .fnRef .., h
  | .tuple .., h | .array .., h | .call .., h => h

end Followable

section Expressions

open Follow

variable {n : Nat} {T : SignatureTable}

theorem checkMoveOut_faultless : ∀ {e : Expr}, Followable T e → Faultless n n (checkMoveOut e)
  | .field location t object label index use, h => by
    obtain ⟨hobject, d, types, nats, fields, struct, instantiated, classified⟩ := h.field
    rw [checkMoveOut, struct]
    exact .ofDefect instantiated ((checkOtherFields_faultless classified).bind fun _ =>
      checkMoveOut_faultless hobject)
  | .subscript location t indexed index use, h => by
    obtain ⟨hindexed, -, length, array⟩ := h.subscript
    have element : t.Classified := (array ▸ hindexed.type).component (List.mem_singleton_self t)
    rw [checkMoveOut, array]
    refine (classify_faultless element).bind fun c => ?_
    have rest : Faultless n n (checkMoveOut indexed) := checkMoveOut_faultless hindexed
    split
    · split
      · exact rest
      · exact Faultless.reject.bind fun _ => rest
    · exact rest
  | .int .., _ | .float .., _ | .bool .., _ | .name .., _ | .natParam .., _ | .fnRef .., _
  | .tuple .., _ | .array .., _ | .call .., _ => .pure

theorem usePlace_faultless {e : Expr} (h : Followable T e) {use : UseKind}
    {evaluateBase : Follow Unit} (base : Faultless n n evaluateBase) :
    Faultless n n (usePlace e use evaluateBase) := by
  rw [usePlace]
  refine .step (checkMoveOut_faultless h) ?_
  split
  · exact useName_faultless
  · refine base.bind fun _ => ?_
    split
    · exact .pure
    · refine (classify_faultless (Followable.base e h).type).bind fun c => ?_
      split
      · exact .reject
      · exact .pure

theorem checkArg_faultless {callee : String} {roots : List String} {ownership : Ownership}
    {arg : Expr} (h : Followable T arg) : Faultless n n (checkArg callee roots ownership arg) := by
  unfold checkArg
  split
  · refine binding?_faultless.bind fun b => ?_
    split
    · split
      · exact .pure
      · refine (classify_faultless h.type).bind fun c => ?_
        split
        · exact .pure
        · exact .guard .pure
    · exact .pure
  · split
    · exact (classify_faultless h.type).bind fun c => .guard .pure
    · exact .pure

theorem callee_faultless {location : Location} {target : Typed.CallTarget} {args : Follow Unit}
    (h : Faultless n n args) : Faultless n n (do
      if target.kind = .localValue then
        let _ ← definedBinding target.callee location
      args) := by
  split
  · exact definedBinding_faultless.bind fun _ => h
  · exact h

mutual

/-- **Evaluating a well-typed expression never breaks down**, if its types have a class. -/
theorem evaluate_faultless : ∀ e : Expr, Followable T e → Faultless n n (evaluate e)
  | .int .., _ | .float .., _ | .bool .., _ | .natParam .., _ | .fnRef .., _ => .pure
  | .name .., _ => useName_faultless
  | .tuple _ _ elems, h => evaluateAll_faultless elems h.tuple
  | .array _ _ elems, h => evaluateAll_faultless elems h.array
  | .call _ _ target args, h =>
    callee_faultless (evaluateArgs_faultless [] target.ownership args h.call)
  | .field _ _ object _ _ _, h =>
    (evaluateIndices_faultless object h.field.1).bind fun _ =>
      usePlace_faultless h (evaluateBase_faultless object h.field.1)
  | .subscript _ _ indexed index _, h =>
    (evaluateIndices_faultless indexed h.subscript.1).bind fun _ =>
      (evaluate_faultless index h.subscript.2.1).bind fun _ =>
        usePlace_faultless h (evaluateBase_faultless indexed h.subscript.1)

theorem evaluateIndices_faultless : ∀ e : Expr, Followable T e → Faultless n n (evaluateIndices e)
  | .field _ _ object _ _ _, h => evaluateIndices_faultless object h.field.1
  | .subscript _ _ indexed index _, h =>
    (evaluateIndices_faultless indexed h.subscript.1).bind fun _ =>
      evaluate_faultless index h.subscript.2.1
  | .int .., _ | .float .., _ | .bool .., _ | .name .., _ | .natParam .., _ | .fnRef .., _
  | .tuple .., _ | .array .., _ | .call .., _ => .pure

theorem evaluateBase_faultless : ∀ e : Expr, Followable T e → Faultless n n (evaluateBase e)
  | .field _ _ object _ _ _, h => evaluateBase_faultless object h.field.1
  | .subscript _ _ indexed _ _, h => evaluateBase_faultless indexed h.subscript.1
  | .name .., _ => useName_faultless
  | .tuple _ _ elems, h => evaluateAll_faultless elems h.tuple
  | .array _ _ elems, h => evaluateAll_faultless elems h.array
  | .call _ _ target args, h =>
    callee_faultless (evaluateArgs_faultless [] target.ownership args h.call)
  | .int .., _ | .float .., _ | .bool .., _ | .natParam .., _ | .fnRef .., _ => .pure

theorem evaluateAll_faultless : ∀ es : List Expr, (∀ e ∈ es, Followable T e) →
    Faultless n n (evaluateAll es)
  | [], _ => .pure
  | e :: es, h => (evaluate_faultless e (h e (List.mem_cons_self ..))).bind fun _ =>
    evaluateAll_faultless es fun e he => h e (List.mem_cons_of_mem _ he)

theorem evaluateArgs_faultless {callee : String} : ∀ (roots : List String)
    (ownership : List Ownership) (es : List Expr), (∀ e ∈ es, Followable T e) →
    Faultless n n (evaluateArgs callee roots ownership es)
  | _, _, [], _ => .pure
  | roots, ownership, e :: es, h => by
    obtain ⟨he, hes⟩ := List.forall_mem_cons.mp h
    exact (checkArg_faultless he).bind fun roots => (evaluate_faultless e he).bind fun _ =>
      evaluateArgs_faultless roots ownership.tail es hes

end

end Expressions

/-! ## Statements -/

section Statements

open Follow

variable {n : Nat} {T : SignatureTable} {result : Ty} {name : String} {location : Location}
  {follow : Follow Unit} {frame : LoopFrame}

theorem branch_faultless {flow : Flow} (h : Faultless n n follow) :
    Faultless n n (branch flow follow) :=
  setFlow_faultless.bind fun _ => h.bind fun _ => .get fun _ _ => .pure

theorem loop_faultless (h : Faultless (n + 1) (n + 1) follow) :
    Faultless n n (loop frame location follow) := by
  refine Faultless.bind (.modify fun s hs => congrArg (· + 1) hs) fun _ => ?_
  refine h.bind fun _ => .get fun s hs => ?_
  refine Faultless.bind (m := n) ?_ fun _ => ?_
  · intro _ _
    change s.loops.tail.length = n
    rw [List.length_tail, hs, Nat.add_sub_cancel]
  · exact (Faultless.ofExcept (LoopFrame.exit_rejecting _ _)).bind fun _ => setFlow_faultless

theorem currentLoop_faultless (h : 0 < n) : Faultless n n (currentLoop location) := by
  refine .get fun s hs => ?_
  cases hl : s.loops with
  | nil =>
    rw [hl] at hs
    exact absurd hs (Nat.ne_of_lt h)
  | cons frame loops => exact .pure

theorem setCurrentLoop_faultless (h : 0 < n) : Faultless n n (setCurrentLoop frame) := by
  refine .modify fun s hs => ?_
  rw [List.length_cons, List.length_tail, hs, Nat.sub_add_cancel h]

theorem checkLeavesNoElements_faultless : Faultless n n (checkLeavesNoElements location) := by
  refine .get fun s _ => ?_
  split
  · exact .reject
  · exact .pure

theorem exitHere_faultless : Faultless n n (exitHere location) :=
  .get fun s _ => .ofExcept s.flow.checkExit_rejecting

theorem runsOverLinear_faultless {iterable : Expr} {varType : Ty} (h : varType.Classified) :
    Faultless n n (runsOverLinear iterable varType) := by
  unfold runsOverLinear
  split
  · exact (classify_faultless h).bind fun _ => .pure
  · exact .pure

mutual

/-- **Following the bindings through a well-typed statement never breaks down**, if its types have a
    class and its jumps stand inside of loops. -/
theorem checkStmt_faultless : ∀ (n : Nat) (s : Stmt), s.WellTyped T result →
    s.EachType Ty.Classified → s.JumpsIn n → Faultless n n (checkStmt name s)
  | n, .assign location target value, .assign wellTyped, classified, _ => by
    have followable : Followable T value := ⟨wellTyped, classified⟩
    exact (evaluate_faultless value followable).bind fun _ => bind_faultless followable.type
  | n, .tupleAssign location targets value, .tupleAssign wellTyped tuple count, classified, _ => by
    have followable : Followable T value := ⟨wellTyped, classified⟩
    have elems := fun t ht => (tuple ▸ followable.type).component (u := t) ht
    rw [checkStmt, tuple]
    refine (evaluate_faultless value followable).bind fun _ => ?_
    simp only [count, if_true]
    exact bindAll_faultless elems
  | n, .expr location value, .expr wellTyped, classified, _ => by
    have followable : Followable T value := ⟨wellTyped, classified⟩
    refine (evaluate_faultless value followable).bind fun _ => ?_
    refine (classify_faultless followable.type).bind fun c => ?_
    split
    · exact .reject
    · exact .pure
  | n, .ret location (some value), .ret wellTyped _, classified, _ =>
    (evaluate_faultless value ⟨wellTyped, classified value rfl⟩).bind fun _ =>
      checkLeavesNoElements_faultless.bind fun _ => exitHere_faultless.bind fun _ => jump_faultless
  | n, .ret location none, _, _, _ =>
    checkLeavesNoElements_faultless.bind fun _ => exitHere_faultless.bind fun _ => jump_faultless
  | n, .branch location condition thenBody elseBody, .branch wellTyped _ first other, classified,
      jumps => by
    refine (evaluate_faultless condition ⟨wellTyped, classified.1⟩).bind fun _ => ?_
    refine .get fun before _ => ?_
    refine (branch_faultless (checkBlock_faultless n thenBody first classified.2.1 jumps.1)).bind
      fun afterThen => ?_
    refine (branch_faultless (checkBlock_faultless n elseBody other classified.2.2 jumps.2)).bind
      fun afterElse => ?_
    exact (Faultless.ofExcept (afterThen.merge_rejecting afterElse)).bind fun _ => setFlow_faultless
  | n, .whileLoop location condition body, .whileLoop wellTyped _ inside, classified, jumps =>
    (evaluate_faultless condition ⟨wellTyped, classified.1⟩).bind fun _ => .get fun _ _ =>
      loop_faultless (checkBlock_faultless (n + 1) body inside classified.2 jumps)
  | n, .forLoop location loopVar varType iterable body, .forLoop wellTyped _ inside, classified,
      jumps => by
    refine (evaluate_faultless iterable ⟨wellTyped, classified.2.1⟩).bind fun _ => ?_
    refine .get fun _ _ => (runsOverLinear_faultless classified.1).bind fun _ => ?_
    refine (bind_faultless classified.1).bind fun _ => ?_
    exact loop_faultless (checkBlock_faultless (n + 1) body inside classified.2.2 jumps)
  | n, .breakLoop location, _, _, inside => by
    refine (currentLoop_faultless inside).bind fun frame => .guard (.get fun s _ => ?_)
    refine (Faultless.ofExcept (frame.checkLoopVar_rejecting s.flow)).bind fun _ => ?_
    exact (setCurrentLoop_faultless inside).bind fun _ => jump_faultless
  | n, .continueLoop location, _, _, inside =>
    (currentLoop_faultless inside).bind fun frame => .get fun s _ =>
      (setCurrentLoop_faultless inside).bind fun _ => jump_faultless

theorem checkBlock_faultless : ∀ (n : Nat) (ss : List Stmt), (∀ s ∈ ss, s.WellTyped T result) →
    Stmt.EachTypeAll Ty.Classified ss → Stmt.JumpsInAll n ss → Faultless n n (checkBlock name ss)
  | _, [], _, _, _ => .pure
  | n, s :: ss, wellTyped, classified, jumps => by
    obtain ⟨first, rest⟩ := List.forall_mem_cons.mp wellTyped
    refine .get fun _ _ => ?_
    split
    · exact (checkStmt_faultless n s first classified.1 jumps.1).bind fun _ =>
        checkBlock_faultless n ss rest classified.2 jumps.2
    · exact .modify fun _ hs => hs

end

end Statements

/-! ## Functions -/

theorem bindParams_faultless {n : Nat} {params : List Param}
    (h : ∀ p ∈ params, p.type.Classified) : Faultless n n (bindParams params) := by
  induction params with
  | nil => exact .pure
  | cons p params ih =>
    obtain ⟨hp, hparams⟩ := List.forall_mem_cons.mp h
    exact (Follow.classify_faultless hp).bind fun _ =>
      Follow.setBinding_faultless.bind fun _ => ih hparams

/-- **The analysis of a well-typed function never breaks down**, if its types have a class and its
    jumps stand inside of loops. -/
theorem checkFunction_faultless {T : SignatureTable} {f : Typed.Function}
    (wellTyped : f.WellTyped T) (classified : f.EachType Ty.Classified)
    (jumps : Stmt.JumpsInAll 0 f.body) (memo memo' : ClassMemo) (d : Defect) :
    checkFunction f memo ≠ .error (.defect d) memo' := by
  have followed : Faultless 0 0 (followFunction f) := by
    refine (bindParams_faultless classified.params).bind fun _ => ?_
    refine (checkBlock_faultless 0 f.body wellTyped classified.body jumps).bind fun _ => ?_
    refine .get fun _ _ => ?_
    split
    · exact exitHere_faultless
    · exact .pure
  have run := followed { memo } rfl
  intro h
  unfold checkFunction at h
  cases hr : followFunction f { memo } with
  | ok u s =>
    rw [hr] at h
    cases h
  | error e s =>
    rw [hr] at h run
    cases h
    exact run

end Consumption

/-! ## Checked functions -/

/-- Every type that the functions or methods of a definition declare or state satisfies `P`. -/
def Source.Def.EachType (P : Ty → Prop) : Source.Def → Prop
  | .function f => f.EachType P
  | .struct s => ∀ m ∈ s.methods, m.EachType P

theorem Source.Def.EachType.of_declares {P : Ty → Prop} {d : Source.Def}
    {owner : Option StructDecl} {f : Source.FunctionDef} (h : d.EachType P)
    (hf : d.Declares owner f) : f.EachType P := by
  cases hf with
  | function => exact h
  | method hm => exact h _ hm

namespace Elaboration

variable {T : SignatureTable} {f : Typed.Function} {memory memory' : CheckerMemory}

/-- Checking bodies adds no struct types but those that signatures and declarations lead to. -/
def TypeDiscipline.withStructs (K : TypeDiscipline T) (Q : StructDecl → Nat → Nat → Bool)
    (signatures : ∀ {n s}, T.find? n = some s →
      (∀ p ∈ s.params, p.type.eachStruct Q) ∧ s.result.eachStruct Q) : TypeDiscipline T where
  holds t := K.holds t ∧ t.eachStruct Q
  prim := ⟨K.prim, rfl⟩
  undet := ⟨K.undet, rfl⟩
  tuple h := ⟨K.tuple fun t ht => (h t ht).1, Ty.eachStructAll_iff.mpr fun t ht => (h t ht).2⟩
  array h := ⟨K.array h.1, h.2⟩
  component h hu := ⟨K.component h.1 hu, Ty.eachStruct_of_mem_components h.2 hu⟩
  subst hS h := ⟨K.subst (fun hk => (hS hk).1) h.1, Ty.eachStruct_subst (fun hk => (hS hk).2) h.2⟩
  keyed := K.keyed
  fnRef {n s} hs hg := by
    obtain ⟨params, result⟩ := signatures hs
    refine ⟨K.fnRef hs hg, Bool.and_eq_true_iff.mpr ⟨Ty.eachStructParams_iff.mpr ?_, result⟩⟩
    exact List.forall_mem_map.mpr params
  signature {n s I} hs hI := by
    obtain ⟨params, result⟩ := signatures hs
    obtain ⟨hparams, hresult⟩ := K.signature hs fun hm => (hI hm).1
    have apply : ∀ {t : Ty}, t.eachStruct Q → (I.apply t).eachStruct Q := fun ht => by
      rw [Instantiation.apply_eq]
      exact Ty.eachStruct_inst (fun hm => (hI hm).2) ht
    exact ⟨fun p hp => ⟨hparams p hp, apply (params p hp)⟩, hresult, apply result⟩
  determined hs := K.determined hs
  fields h hf f hm :=
    ⟨K.fields h.1 hf f hm, StructDecl.eachStruct_of_instantiateFields h.2 hf f hm⟩
  declared h := K.declared h.1

/-- Signatures apply structs to as many arguments as they take. -/
def AppliedSignatures (T : SignatureTable) : Prop :=
  ∀ {n s}, T.find? n = some s → (∀ p ∈ s.params, p.type.applied) ∧ s.result.applied

/-- **The analysis of a checked function never breaks down**, if nothing is left to be inferred
    about the values that it drops, and if structs are applied to as many arguments as they take in
    the signatures and in the definition. -/
theorem checkFunction_followable (registered : T.Registered) (determined : DeterminedSignatures T)
    (applied : AppliedSignatures T) {owner : Option StructDecl} {d : Source.FunctionDef}
    (declared : d.EachType Ty.Classified)
    (h : checkFunction T owner d memory = .ok f memory')
    (dropped : ∀ e ∈ f.dropped, e.type.determined) (memo memo' : ClassMemo) (e : Defect) :
    Consumption.checkFunction f memo ≠ .error (.defect e) memo' := by
  obtain ⟨wellTyped, types⟩ := checkFunction_yields
    ((declaredDiscipline registered.keyed determined).withStructs _ applied)
    (declared.mono fun _ ht => ⟨Ty.declared_of_determined ht.determined, ht.applied⟩) h
  have known := ((checkFunction_determined registered determined
    (declared.mono fun _ ht => ht.determined) h).mpr dropped).1
  refine Consumption.checkFunction_faultless wellTyped ?_ (jumpsIn_of_checkFunction h) memo memo' e
  refine Typed.Function.eachType_iff.mpr fun t ht => ⟨known t ht, ?_⟩
  exact (Typed.Function.eachType_iff.mp types t ht).2

theorem exists_of_elaborate {d : Source.Def} {fs : List Typed.Function}
    (h : d.elaborate T memory = .ok fs memory') (hf : f ∈ fs) :
    ∃ owner fd memory₁ memory₂, (∀ P, d.EachType P → fd.EachType P) ∧
      checkFunction T owner fd memory₁ = .ok f memory₂ := by
  obtain ⟨owner, fd, memory₁, memory₂, declares, -, checked⟩ :=
    exists_of_elaborate_keeping (Q := fun _ => True) trivial (fun _ _ _ => trivial) h hf
  exact ⟨owner, fd, memory₁, memory₂, fun _ each => each.of_declares declares, checked⟩

/-- **Nothing is left to be inferred about the functions that a definition is elaborated to but the
    types of the values that they drop**: all their types and nats are determined exactly if the
    types of dropped values are.  Then following the bindings through a function never breaks down.

    The table may be any that registration leads to, and neither its signatures nor the types that
    the definition declares or states mention anything that is to be inferred.  For the second part,
    structs have to be applied in them to as many arguments as they take. -/
theorem elaborate_determined_and_faultless (registered : T.Registered)
    (signatures : DeterminedSignatures T) {d : Source.Def} (declared : d.EachType (·.determined))
    {fs : List Typed.Function} (h : d.elaborate T memory = .ok fs memory') : ∀ f ∈ fs,
      (((∀ t ∈ f.types, t.determined) ∧ ∀ n ∈ f.nats, n.isUndet = false) ↔
        ∀ e ∈ f.dropped, e.type.determined) ∧
      (AppliedSignatures T → d.EachType Ty.Classified → (∀ e ∈ f.dropped, e.type.determined) →
        ∀ memo memo' defect, Consumption.checkFunction f memo ≠ .error (.defect defect) memo') := by
  intro f hf
  obtain ⟨owner, fd, memory₁, memory₂, each, checked⟩ := exists_of_elaborate h hf
  refine ⟨checkFunction_determined registered signatures (each _ declared) checked, ?_⟩
  intro applied classified dropped
  exact checkFunction_followable registered signatures applied (each _ classified) checked dropped

/-- Drops a struct, and a tuple inside of a loop. -/
def drops : Source.FunctionDef where
  name := "drops"
  params := []
  result := none
  body :=
    [.expr {} (.call {} "Box" [.int {} 1]),
      .whileLoop {} (.bool {} true)
        [.expr {} (.tuple {} [.array {} [.int {} 1], .bool {} false]), .breakLoop {}]]

/-- What `drops` is elaborated to. -/
def dropsTyped : Typed.Function where
  name := "drops"
  params := []
  result := .none
  body :=
    [.expr {} (.call {} (.struct box [.int] [])
        { callee := "Box", kind := .constructor, ownership := [.owned]
          typeArgs := [.int], natArgs := [] }
        [.int {} .int 1]),
      .whileLoop {} (.bool {} true)
        [.expr {} (.tuple {} (.tuple [.array .int (.const 1), .bool])
          [.array {} (.array .int (.const 1)) [.int {} .int 1], .bool {} false]), .breakLoop {}]]

theorem appliedSignatures_boxTable : AppliedSignatures boxTable := by
  intro n s h
  rw [find?_boxTable h]
  decide

theorem drops_determined_and_faultless :
    boxTable.Registered ∧ DeterminedSignatures boxTable ∧ AppliedSignatures boxTable ∧
      Source.Def.EachType Ty.Classified (.function drops) ∧
      (∃ memory, Source.Def.elaborate boxTable (.function drops) {} = .ok [dropsTyped] memory) ∧
      (∀ e ∈ dropsTyped.dropped, e.type.determined) ∧ (∀ t ∈ dropsTyped.types, t.determined) ∧
      ∀ memo memo' defect,
        Consumption.checkFunction dropsTyped memo ≠ .error (.defect defect) memo' := by
  have registered : boxTable.Registered := .addStruct box {} .empty
  have body : ∀ P, Source.Stmt.EachTypeAll P drops.body := fun P =>
    ⟨⟨trivial, trivial⟩,
      ⟨trivial, ⟨⟨trivial, trivial⟩, trivial, trivial⟩, trivial, trivial⟩, trivial⟩
  have declared : ∀ P, Source.Def.EachType P (.function drops) := fun P => ⟨nofun, nofun, body P⟩
  have elaborated : Source.Def.elaborate boxTable (.function drops) {} =
      .ok [dropsTyped] ⟨3, ⟨.ofList [("int", .copyable)]⟩⟩ := by cbv
  have dropped : ∀ e ∈ dropsTyped.dropped, e.type.determined := by decide
  obtain ⟨known, faultless⟩ := elaborate_determined_and_faultless registered
    determinedSignatures_boxTable (declared _) elaborated dropsTyped (List.mem_singleton_self _)
  exact ⟨registered, determinedSignatures_boxTable, appliedSignatures_boxTable, declared _,
    ⟨_, elaborated⟩, dropped, (known.mpr dropped).1,
    faultless appliedSignatures_boxTable (declared _) dropped⟩

/-- Drops an empty array, whose elements have no type. -/
def dropsEmpty : Source.FunctionDef where
  name := "dropsEmpty"
  params := []
  result := none
  body := [.expr {} (.array {} [])]

/-- The elements of a dropped array that has none are of no type, and the analysis breaks down. -/
theorem dropsEmpty_undetermined :
    ({} : SignatureTable).Registered ∧ DeterminedSignatures {} ∧ AppliedSignatures {} ∧
      Source.Def.EachType Ty.Classified (.function dropsEmpty) ∧ ∃ f memory memo,
        Source.Def.elaborate {} (.function dropsEmpty) {} = .ok [f] memory ∧
        (∃ t ∈ f.types, ¬ t.determined) ∧
        Consumption.checkFunction f {} = .error (.defect (.unclassified 1)) memo := by
  let f : Typed.Function :=
    { name := "dropsEmpty", params := [], result := .none
      body := [.expr {} (.array {} (.array (.undet 1) (.const 0)) [])] }
  refine ⟨.empty, nofun, nofun, ⟨nofun, nofun, trivial, trivial⟩, f, ⟨2, {}⟩, {}, by cbv, ?_,
    by cbv⟩
  exact ⟨.array (.undet 1) (.const 0), by simp [f, Typed.Function.parts, Typed.Stmt.partsAll,
    Typed.Stmt.parts, Typed.Expr.parts], by decide⟩

/-- A function whose result is a box of nothing. -/
def makesBox : Signature where
  name := "mk"
  params := []
  result := .struct box [] []
  location := {}

/-- The table with `box` and `makesBox`. -/
def misapplied : SignatureTable := SignatureTable.after (SignatureTable.add makesBox) boxTable

/-- Drops a box of nothing. -/
def dropsMisapplied : Source.FunctionDef where
  name := "dropsMisapplied"
  params := []
  result := none
  body := [.expr {} (.call {} "mk" [])]

theorem find?_misapplied {n : String} {s : Signature} (h : misapplied.find? n = some s) :
    s = box.constructorSignature {} ∨ s = makesBox := by
  have both : misapplied.signatures.entries =
      [("Box", box.constructorSignature {}), ("mk", makesBox)] := by cbv
  rw [SignatureTable.find?, Dict.get?, both, lookup_entry, lookup_entry] at h
  split at h
  · exact .inl (Option.some.inj h).symm
  · split at h
    · exact .inr (Option.some.inj h).symm
    · cases h

/-- If a signature applies a struct to too few arguments, the analysis may break down as well,
    although all types are known. -/
theorem misapplied_determined_and_faulty :
    misapplied.Registered ∧ DeterminedSignatures misapplied ∧
      Source.Def.EachType Ty.Classified (.function dropsMisapplied) ∧ ∃ f memory memo,
        Source.Def.elaborate misapplied (.function dropsMisapplied) {} = .ok [f] memory ∧
        (∀ t ∈ f.types, t.determined) ∧
        Consumption.checkFunction f {} = .error (.defect (.structArguments "Box")) memo := by
  let f : Typed.Function :=
    { name := "dropsMisapplied", params := [], result := .none
      body := [.expr {} (.call {} (.struct box [] [])
        { callee := "mk", kind := .function, ownership := [], typeArgs := [], natArgs := [] } [])] }
  have signatures : DeterminedSignatures misapplied := by
    intro n s h
    rcases find?_misapplied h with rfl | rfl <;> decide
  exact ⟨.add makesBox (.addStruct box {} .empty), signatures, ⟨nofun, nofun, trivial, trivial⟩, f,
    ⟨1, {}⟩, {}, by cbv, by decide, by cbv⟩

end Elaboration

end QuantumStatics
