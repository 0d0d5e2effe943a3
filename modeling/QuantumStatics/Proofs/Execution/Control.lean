/-
  Executions of typed functions.

  Running a statement performs actions: bindings are used, names are bound, the
  function is left, and loops go round.  `Control` is the control flow of a statement
  with everything else taken away, and `Control.Path c p o` says that some execution of
  `c` performs the actions `p` and ends with the outcome `o`.  Every branch may be taken
  and every loop may go round any number of times, so that what an execution has done
  at some point is the beginning of a path.
-/
import QuantumStatics.Typed.Basic

namespace QuantumStatics.Execution

open Typed (UseKind CallTarget)

/-! ## Uses -/

/-- A use of a binding, and the type that the program records for it.  The callee of a
    call has none. -/
structure Use where
  name : String
  kind : UseKind
  type : Option Ty

/-- Calling a local value reads it. -/
def calleeUses (target : CallTarget) : List Use :=
  if target.kind = .localValue then [⟨target.callee, .read, none⟩] else []

mutual

/-- The uses of bindings in the evaluation of an expression, in order. -/
def uses : Typed.Expr → List Use
  | .int _ _ _ | .float _ _ | .bool _ _ | .natParam _ _ | .fnRef _ _ _ => []
  | .name _ t n use => [⟨n, use, some t⟩]
  | .tuple _ _ elems | .array _ _ elems => usesAll elems
  | .call _ _ target args => calleeUses target ++ usesAll args
  | .field _ _ object _ _ use => indexUses object ++ baseUses use object
  | .subscript _ _ indexed index use => indexUses indexed ++ uses index ++ baseUses use indexed

/-- The uses in the indices of a chain of projections. -/
def indexUses : Typed.Expr → List Use
  | .field _ _ object _ _ _ => indexUses object
  | .subscript _ _ indexed index _ => indexUses indexed ++ uses index
  | _ => []

/-- The uses in what a chain of projections starts from, if the place is used in some
    way.  A binding is given away with the place and lent otherwise. -/
def baseUses (use : UseKind) : Typed.Expr → List Use
  | .field _ _ object _ _ _ => baseUses use object
  | .subscript _ _ indexed _ _ => baseUses use indexed
  | .name _ t n _ => [⟨n, if use = .consume then .consume else .borrow, some t⟩]
  | .tuple _ _ elems | .array _ _ elems => usesAll elems
  | .call _ _ target args => calleeUses target ++ usesAll args
  | .int _ _ _ | .float _ _ | .bool _ _ | .natParam _ _ | .fnRef _ _ _ => []

/-- The same for some expressions. -/
def usesAll : List Typed.Expr → List Use
  | [] => []
  | e :: es => uses e ++ usesAll es

end

/-! ## Actions -/

/-- What an execution does. -/
inductive Action where
  | use (u : Use)
  | bind (name : String) (type : Ty)
  | leave
  /-- Goes round a loop. -/
  | again

/-- How the execution of a statement ends. -/
inductive Outcome where
  | normal
  | broke
  | continued
  | returned
  deriving DecidableEq

/-- Whether a loop goes round when its body ends this way. -/
def Outcome.EndsRound (o : Outcome) : Prop := o = .normal ∨ o = .continued

/-- What an expression does. -/
def evaluation (e : Typed.Expr) : List Action := (uses e).map .use

/-- The types of the components of a tuple. -/
def components : Ty → List Ty
  | .tuple elems => elems
  | _ => []

/-! ## Control flow -/

/-- The control flow of a statement. -/
inductive Control where
  | run (actions : List Action) (outcome : Outcome)
  | seq (first second : Control)
  | choice (left right : Control)
  | loop (elements : Option Ty) (test enter : List Action) (body : Control)

namespace Control

/-- The type of the elements of a loop, if it runs over an array. -/
def elements (iterable : Typed.Expr) (varType : Ty) : Option Ty :=
  match iterable.type with
  | .array _ _ => some varType
  | _ => none

mutual

/-- The control flow of a statement. -/
def ofStmt : Typed.Stmt → Control
  | .assign _ target value => run (evaluation value ++ [.bind target value.type]) .normal
  | .tupleAssign _ targets value =>
    run (evaluation value ++ targets.zipWith .bind (components value.type)) .normal
  | .expr _ value => run (evaluation value) .normal
  | .ret _ value => run ((value.map evaluation).getD [] ++ [.leave]) .returned
  | .branch _ condition thenBody elseBody =>
    seq (run (evaluation condition) .normal) (choice (ofBlock thenBody) (ofBlock elseBody))
  | .whileLoop _ condition body => loop none (evaluation condition) [] (ofBlock body)
  | .forLoop _ loopVar varType iterable body =>
    seq (run (evaluation iterable) .normal)
      (loop (elements iterable varType) [] [.bind loopVar varType] (ofBlock body))
  | .breakLoop _ => run [] .broke
  | .continueLoop _ => run [] .continued

/-- The control flow of a block. -/
def ofBlock : List Typed.Stmt → Control
  | [] => run [] .normal
  | s :: ss => seq (ofStmt s) (ofBlock ss)

end

/-- The control flow of a function, which is left at its end at the latest. -/
def ofFunction (f : Typed.Function) : Control := seq (ofBlock f.body) (run [.leave] .returned)

/-! ## Paths -/

/-- Complete iterations of a loop whose body takes the paths `body`, one after another. -/
inductive Rounds (test enter : List Action) (body : List Action → Outcome → Prop) :
    List Action → Prop where
  | nil : Rounds test enter body []
  | snoc {r p : List Action} {o : Outcome} (rounds : Rounds test enter body r) (path : body p o)
      (ends : o.EndsRound) : Rounds test enter body (r ++ (test ++ enter ++ p ++ [.again]))

/-- How a loop ends: its test fails, or its body jumps out. -/
inductive Ends (test enter : List Action) (body : List Action → Outcome → Prop) :
    List Action → Outcome → Prop where
  | done : Ends test enter body test .normal
  | broke {p : List Action} (path : body p .broke) : Ends test enter body (test ++ enter ++ p) .normal
  | returned {p : List Action} (path : body p .returned) :
      Ends test enter body (test ++ enter ++ p) .returned

/-- Some execution performs the given actions and ends with the given outcome. -/
def Path : Control → List Action → Outcome → Prop
  | run actions outcome, p, o => p = actions ∧ o = outcome
  | seq a b, p, o =>
    (∃ p₁ p₂, p = p₁ ++ p₂ ∧ a.Path p₁ .normal ∧ b.Path p₂ o) ∨ a.Path p o ∧ o ≠ .normal
  | choice a b, p, o => a.Path p o ∨ b.Path p o
  | loop _ test enter body, p, o =>
    ∃ r q, p = r ++ q ∧ Rounds test enter body.Path r ∧ Ends test enter body.Path q o

namespace Path

variable {a b : Control} {p q : List Action} {o : Outcome}

theorem run (p : List Action) (o : Outcome) : (run p o).Path p o := ⟨rfl, rfl⟩

theorem seq (ha : a.Path p .normal) (hb : b.Path q o) : (seq a b).Path (p ++ q) o :=
  .inl ⟨p, q, rfl, ha, hb⟩

theorem jump (ha : a.Path p o) (ho : o ≠ .normal) : (Control.seq a b).Path p o := .inr ⟨ha, ho⟩

theorem loop {elements : Option Ty} {test enter : List Action}
    (rounds : Rounds test enter a.Path p) (ends : Ends test enter a.Path q o) :
    (loop elements test enter a).Path (p ++ q) o :=
  ⟨p, q, rfl, rounds, ends⟩

end Path

theorem exists_path : ∀ c : Control, ∃ p o, c.Path p o
  | .run p o => ⟨p, o, .run p o⟩
  | .seq a b => by
    obtain ⟨p, o, ha⟩ := exists_path a
    obtain ⟨q, o', hb⟩ := exists_path b
    by_cases ho : o = .normal
    · subst ho
      exact ⟨_, o', .seq ha hb⟩
    · exact ⟨p, o, .jump ha ho⟩
  | .choice a _ => by
    obtain ⟨p, o, ha⟩ := exists_path a
    exact ⟨p, o, .inl ha⟩
  | .loop _ _ _ _ => ⟨_, .normal, .loop .nil .done⟩

section

variable {a : Control} {p : List Action} {o : Outcome}

theorem Path.extend_seq (ha : a.Path p o) (b : Control) :
    ∃ q o', (Control.seq a b).Path (p ++ q) o' := by
  by_cases ho : o = .normal
  · subst ho
    obtain ⟨q, o', hb⟩ := b.exists_path
    exact ⟨q, o', .seq ha hb⟩
  · exact ⟨[], o, by simpa using .jump ha ho⟩

theorem Path.extend_loop (ha : a.Path p o) (elements : Option Ty) (test enter : List Action) :
    ∃ q o', (Control.loop elements test enter a).Path (test ++ enter ++ p ++ q) o' := by
  cases o with
  | broke => exact ⟨[], .normal, [], _, List.append_nil _, .nil, .broke ha⟩
  | returned => exact ⟨[], .returned, [], _, List.append_nil _, .nil, .returned ha⟩
  | normal | continued =>
    refine ⟨.again :: test, .normal, ?_⟩
    rw [List.append_cons]
    exact .loop (.snoc .nil ha (by simp [Outcome.EndsRound])) .done

end

/-- Some execution of the first control flow performs the given actions and then starts
    with the second one, which is a part of the first. -/
inductive Reaches : Control → List Action → Control → Prop where
  | here {c : Control} : Reaches c [] c
  | first {a b c : Control} {p : List Action} (h : Reaches a p c) : Reaches (seq a b) p c
  | second {a b c : Control} {p q : List Action} (path : a.Path p .normal) (h : Reaches b q c) :
      Reaches (seq a b) (p ++ q) c
  | left {a b c : Control} {p : List Action} (h : Reaches a p c) : Reaches (choice a b) p c
  | right {a b c : Control} {p : List Action} (h : Reaches b p c) : Reaches (choice a b) p c
  | body {elements : Option Ty} {test enter r q : List Action} {b c : Control}
      (rounds : Rounds test enter b.Path r) (h : Reaches b q c) :
      Reaches (loop elements test enter b) (r ++ (test ++ enter ++ q)) c

end Control

/-! ## Parameters -/

/-- The parameters of a function are bound before its body is run. -/
def bindings (ps : List Param) : List Action := ps.map fun p => .bind p.name p.type

/-- The parameter that a name stands for: the last one, if several have the name. -/
def lastParam (ps : List Param) (x : String) : Option Param := ps.reverse.find? (·.name = x)

theorem lastParam_cons (p : Param) (ps : List Param) (x : String) :
    lastParam (p :: ps) x = (lastParam ps x).or (if p.name = x then some p else none) := by
  simp only [lastParam, List.reverse_cons, List.find?_append]
  by_cases h : p.name = x <;> simp [h]

theorem lastParam_append_singleton (ps : List Param) (p : Param) (x : String) :
    lastParam (ps ++ [p]) x = if p.name = x then some p else lastParam ps x := by
  simp only [lastParam, List.reverse_append, List.reverse_singleton, List.singleton_append]
  by_cases h : p.name = x <;> simp [h]

theorem mem_of_lastParam {ps : List Param} {x : String} {p : Param}
    (h : lastParam ps x = some p) : p ∈ ps :=
  List.mem_reverse.mp (List.mem_of_find?_eq_some h)

end QuantumStatics.Execution
