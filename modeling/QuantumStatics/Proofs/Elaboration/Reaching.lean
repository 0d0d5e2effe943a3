/-
  The types of local names are right on every execution.

  The checker of types looks at the body of a loop once, in the environment of the entry,
  and where paths join it keeps the type of a name that is bound on one of them only.  So
  it cannot know that the name was bound to a value of that type.  The checker of
  consumption knows nothing about types, but it makes sure that a name is defined on every
  path to its use.  Together they follow `Reached`: whatever is defined was last bound to a
  value of the type in the environment.

  * `recorded_type_reaches`: on every execution of a function that both checkers accept, a
    name was last bound to a value of the type that is recorded where the name is used.
-/
import QuantumStatics.Proofs.Consumption.Simulation
import QuantumStatics.Proofs.Elaboration.Elaborated
import QuantumStatics.Proofs.Evaluation

namespace QuantumStatics.Execution

/-! ## The binding that reaches a point -/

/-- The type of the value that an action binds a name to. -/
def Action.binds (x : String) : Action → Option Ty
  | .bind n t => if n = x then some t else none
  | .use _ | .leave | .again => none

/-- The type of the value that a name was last bound to. -/
def reaching (h : List Action) (x : String) : Option Ty := h.reverse.findSome? (·.binds x)

variable {h : List Action} {x : String}

theorem reaching_append (p : List Action) :
    reaching (h ++ p) x = (reaching p x).or (reaching h x) := by
  simp [reaching, List.findSome?_append]

theorem reaching_singleton (a : Action) : reaching [a] x = a.binds x := by
  cases ha : a.binds x <;> simp [reaching, List.findSome?, ha]

theorem reaching_append_singleton (a : Action) :
    reaching (h ++ [a]) x = (a.binds x).or (reaching h x) := by
  rw [reaching_append, reaching_singleton]

theorem reaching_append_uses (us : List Use) :
    reaching (h ++ us.map .use) x = reaching h x := by
  have : reaching (us.map .use) x = none := by simp [reaching, Action.binds]
  rw [reaching_append, this, Option.none_or]

theorem reaching_bindings (ps : List Param) :
    reaching (bindings ps) x = (lastParam ps x).map (·.type) := by
  induction ps with
  | nil => rfl
  | cons p ps ih =>
    have split : bindings (p :: ps) = [.bind p.name p.type] ++ bindings ps := rfl
    rw [split, reaching_append, ih, reaching_singleton, lastParam_cons]
    cases lastParam ps x with
    | some q => rfl
    | none => by_cases hx : p.name = x <;> simp [Action.binds, hx]

theorem reaching_of_after {κ : Ty → OwnershipClass} {c : Cell}
    (hc : Store.after κ h x = some c) : reaching h x = some c.type := by
  induction h using List.reverseRecOn generalizing c with
  | nil => cases hc
  | append_singleton h a ih =>
    rw [Store.after_append_singleton] at hc
    rw [reaching_append_singleton]
    cases a with
    | leave | again => exact ih hc
    | bind n t =>
      simp only [Store.step] at hc
      by_cases hx : x = n
      · rw [if_pos hx] at hc
        cases hc
        simp [Action.binds, hx]
      · rw [if_neg hx] at hc
        simpa [Action.binds, Ne.symm hx] using ih hc
    | use u =>
      rcases Store.step_cases hc with hc | ⟨hu, -⟩ | ⟨_, c', -, -, -, hc', rfl⟩
      · exact ih hc
      · cases hu
      · rw [Store.type_giveAway]
        exact ih hc'

/-- A use records the type of the value that its name was last bound to. -/
def Matches (h : List Action) : Action → Prop
  | .use u => ∀ t, u.type = some t → ∃ t', reaching h u.name = some t' ∧ t'.equal t
  | .bind _ _ | .leave | .again => True

theorem fine_uses {us : List Use} (hus : ∀ u ∈ us, Matches h (.use u)) :
    Fine Matches h (us.map .use) := by
  induction us generalizing h with
  | nil => exact .nil
  | cons u us ih =>
    obtain ⟨hu, hus⟩ := List.forall_mem_cons.mp hus
    refine Fine.append (.singleton hu) (ih fun v hv t ht => ?_)
    rw [reaching_append_singleton]
    exact hus v hv t ht

end QuantumStatics.Execution

namespace QuantumStatics.Elaboration

open Execution
open Consumption (Bindings Defined)

/-! ## One name -/

/-- A name was last bound to a value of its type in the environment. -/
def LastBound (E : LocalTypes) (h : List Action) (x : String) : Prop :=
  ∃ t t', E x = some t ∧ reaching h x = some t' ∧ t'.equal t

section

variable {E E' E₀ N : LocalTypes} {h h' : List Action} {a : Action} {x : String}

theorem TypesAfter.lastBound (hs : TypesAfter a E E') (hx : a.binds x = none → LastBound E h x) :
    LastBound E' (h ++ [a]) x := by
  unfold LastBound
  rw [reaching_append_singleton]
  cases a with
  | use | leave =>
    cases hs
    exact hx rfl
  | bind n t =>
    obtain ⟨a, equal, rfl⟩ := hs
    by_cases hn : x = n
    · exact ⟨a, t, if_pos hn, by simp [Action.binds, hn], equal⟩
    · have other : (Action.bind n t).binds x = none := if_neg (Ne.symm hn)
      simp only [other, Option.none_or, LocalTypes.bind, if_neg hn]
      exact hx other
  | again => exact hs.elim

theorem LastBound.join (hx : LastBound E h x) (hE : E.Joins N) : LastBound N h x := by
  obtain ⟨t, t', ht, hreach, hequal⟩ := hx
  obtain ⟨b, hb, htb⟩ := hE x t ht
  exact ⟨b, t', hb, hreach, Ty.equal_trans hequal htb⟩

theorem lastBound_params {ps : List Param} {q : Param} (hq : lastParam ps x = some q) :
    LastBound (paramTypes ps) (bindings ps) x := by
  refine ⟨q.type, q.type, by simp [paramTypes, hq], ?_, Ty.equal_refl _⟩
  rw [reaching_bindings, hq]
  rfl

theorem LastBound.uses (hx : LastBound E h x) (us : List Use) :
    LastBound E (h ++ us.map .use) x := by
  rwa [LastBound, reaching_append_uses]

theorem LastBound.again (hx : LastBound E₀ h x) (hedge : ∃ exit, E₀.Joins exit ∧ E.Joins exit)
    (hx' : LastBound E h' x) : LastBound E₀ (h' ++ [.again]) x := by
  obtain ⟨exit, hentry, hend⟩ := hedge
  obtain ⟨t₀, -, ht₀, -, -⟩ := hx
  obtain ⟨t, t', ht, hreach, hequal⟩ := hx'
  obtain ⟨b, hb, ht₀b⟩ := hentry x t₀ ht₀
  obtain ⟨b', hb', htb⟩ := hend x t ht
  cases hb.symm.trans hb'
  refine ⟨t₀, t', ht₀, ?_, Ty.equal_trans hequal (Ty.equal_trans htb (Ty.equal_symm ht₀b))⟩
  rw [reaching_append_singleton]
  exact hreach

end

/-! ## Both analyses together -/

section

variable {κ : Ty → OwnershipClass} {borrowed X : String → Prop} {F F' : Bindings}
  {E E' : LocalTypes} {h : List Action}

/-- Whatever is defined, and whatever `X` lists, was last bound to a value of its type in the
    environment. -/
def Reached (X : String → Prop) (F : Bindings) (E : LocalTypes) (h : List Action) : Prop :=
  ∀ x, X x ∨ Defined F x → LastBound E h x

theorem uses_of_steps {us : List Use}
    (hF : (Consumption.consumption κ borrowed False).steps (us.map .use) F F')
    (hE : typeFlow.steps (us.map .use) E E') :
    E' = E ∧ ∀ u ∈ us, Defined F u.name ∧ u.Typed E := by
  induction us generalizing F E with
  | nil => exact ⟨hE.symm, nofun⟩
  | cons u us ih =>
    obtain ⟨F₁, hu, hF⟩ := hF
    obtain ⟨_, ⟨rfl, ht⟩, hE⟩ := hE
    obtain ⟨rfl, rest⟩ := ih hF hE
    obtain ⟨b, hb, hd, -⟩ := id hu
    refine ⟨rfl, List.forall_mem_cons.mpr ⟨⟨⟨b, hb, hd⟩, ht⟩, fun v hv => ?_⟩⟩
    exact (rest v hv).imp_left (Consumption.defined_of_use hu)

theorem Reached.matches {u : Use} (hr : Reached X F E h) (hu : X u.name ∨ Defined F u.name)
    (ht : u.Typed E) : Matches h (.use u) := by
  intro t hut
  obtain ⟨t₁, t', ht₁, hreach, hequal⟩ := hr u.name hu
  cases ht₁.symm.trans (ht t hut)
  exact ⟨t', hreach, hequal⟩

theorem Reached.step {a : Action} (hr : Reached X F E h)
    (hF : Consumption.bindingsStep κ borrowed a F F') (hE : typeFlow.step a E E') :
    Matches h a ∧ Reached X F' E' (h ++ [a]) := by
  obtain ⟨types, recorded⟩ := hE
  cases a with
  | use u =>
    obtain ⟨b, hb, hd, -⟩ := id hF
    refine ⟨hr.matches (.inr ⟨b, hb, hd⟩) recorded, fun x hx => types.lastBound fun _ => ?_⟩
    exact hr x (hx.imp_right (Consumption.defined_of_use hF))
  | bind n t =>
    obtain ⟨c, -, -, rfl⟩ := hF
    refine ⟨trivial, fun x hx => types.lastBound fun other => hr x (hx.imp_right ?_)⟩
    rintro ⟨b, hb, hd⟩
    have hxn : x ≠ n := by
      rintro rfl
      simp [Action.binds] at other
    rw [Dict.get?_insert, if_neg hxn] at hb
    exact ⟨b, hb, hd⟩
  | leave =>
    obtain ⟨rfl, -, -⟩ := hF
    exact ⟨trivial, fun x hx => types.lastBound fun _ => hr x hx⟩
  | again => exact hF.elim

theorem Reached.join {M : Bindings} {N : LocalTypes} (hr : Reached X F E h)
    (hF : Consumption.Covered False F M) (hE : E.Joins N) : Reached X M N h :=
  fun x hx => (hr x (hx.imp_right hF.defined)).join hE

/-- **A back edge restores the relation at the entry of the loop.**  What was defined at the
    entry still has the type that it had there. -/
theorem Reached.again {D : Bindings} {E₀ : LocalTypes} {h' : List Action}
    (hr : Reached X D E₀ h) (hedge : ∃ exit, E₀.Joins exit ∧ E.Joins exit)
    (hr' : Reached (fun x => X x ∨ Defined D x) F E h') :
    Reached (fun x => X x ∨ Defined D x) D E₀ (h' ++ [.again]) := by
  intro x hx
  have hX : X x ∨ Defined D x := hx.elim id .inr
  exact (hr x hX).again hedge (hr' x (.inl hX))

/-- The types in the environment are those of the values, for both analyses together. -/
def reachedSimulation (κ : Ty → OwnershipClass) (borrowed : String → Prop) :
    Simulation ((Consumption.consumption κ borrowed False).prod typeFlow) (String → Prop) where
  holds X d h := Reached X d.1 d.2 h
  ok := Matches
  tests := IsEvaluation
  inside X d x := X x ∨ Defined d.1 x
  step hs hd := hd.step hs.1 hs.2
  join hj hd := hd.join hj.1 hj.2
  goInside hd x hx := hd x (hx.elim id .inr)
  goOutside hd x hx := hd x (hx.imp_left .inl)
  again := by
    rintro X _ ⟨D, E₀⟩ ⟨D₁, E₁⟩ ⟨F, E⟩ h h' hd hs ⟨us, rfl⟩ ha he
    obtain ⟨hF, hE⟩ := FlowAnalysis.steps_prod.mp hs
    obtain ⟨rfl, used⟩ := uses_of_steps hF hE
    have back := Reached.again hd ha.2 he
    have matched : ∀ u ∈ us, Matches (h' ++ [.again]) (.use u) := fun u hu =>
      back.matches (.inr (used u hu).1) (used u hu).2
    refine ⟨Fine.append (p := [.again]) (.singleton trivial) (fine_uses matched), fun x hx => ?_⟩
    rw [List.append_cons]
    exact (back x (hx.imp_right (Consumption.defined_of_uses hF))).uses us

end

/-! ## Functions -/

/-- **Names have the types that are recorded for them.**  On every execution of a function that
    both checkers accept, whatever the branches and however often the loops go round, a name
    that is used was bound before, and the last binding gave it a value of a type that is equal
    to the type that is recorded at the use. -/
theorem recorded_type_reaches {T : SignatureTable} {owner : Option StructDecl}
    {d : Source.FunctionDef} {f : Typed.Function} {memory memory' : CheckerMemory}
    {memo final : ClassMemo} {ws : List Diagnostic}
    (elaborated : checkFunction T owner d memory = .ok f memory')
    (accepted : Consumption.checkFunction f memo = .ok ws final)
    {p₁ p₂ : List Action} {u : Use} {o : Outcome} {t : Ty}
    (path : (Control.ofFunction f).Path (p₁ ++ .use u :: p₂) o) (recorded : u.type = some t) :
    ∃ t', reaching (bindings f.params ++ p₁) u.name = some t' ∧ t'.equal t := by
  -- Whether joined paths agree on classes does not matter for types.
  obtain ⟨F, hparams, admits⟩ :=
    Consumption.admits_of_checkFunction accepted fun h : False => h.elim
  have start : Reached (fun _ => False) F (paramTypes f.params) (bindings f.params) := by
    rintro x (hx | ⟨b, hb, -⟩)
    · exact hx.elim
    · cases hp : lastParam f.params x with
      | none => cases hb.symm.trans ((hparams x).1 hp)
      | some p => exact lastBound_params hp
  have tests : (Control.ofFunction f).Tests IsEvaluation := ⟨Control.tests_ofBlock f.body, trivial⟩
  have fine := ((reachedSimulation final.classOf _).path
    (admits.prod (admits_of_checkFunction elaborated)) tests start path).1
  exact fine p₁ (.use u) p₂ rfl t recorded

/-- Binds one name to values of two types, again and again. -/
def retypes : Source.FunctionDef where
  name := "retypes"
  params := [⟨"c", .bool, .borrowed⟩]
  result := none
  body :=
    [.whileLoop {} (.name {} "c")
      [.assign {} "x" (.int {} 1) none, .assign {} "y" (.name {} "x") none,
        .assign {} "x" (.bool {} true) none, .assign {} "z" (.name {} "x") none]]

/-- What `retypes` is elaborated to. -/
def retypesTyped : Typed.Function where
  name := "retypes"
  params := [⟨"c", .bool, .borrowed⟩]
  result := .none
  body :=
    [.whileLoop {} (.name {} .bool "c" .read)
      [.assign {} "x" (.int {} .int 1), .assign {} "y" (.name {} .int "x" .read),
        .assign {} "x" (.bool {} true), .assign {} "z" (.name {} .bool "x" .read)]]

/-- One round of the loop of `retypes`. -/
def retypesRound : List Action :=
  [.use ⟨"c", .read, some .bool⟩, .bind "x" .int, .use ⟨"x", .read, some .int⟩, .bind "y" .int,
    .bind "x" .bool, .use ⟨"x", .read, some .bool⟩, .bind "z" .bool, .again]

/-- What `retypes` does before it uses its name in the second iteration. -/
def retypesBefore : List Action :=
  retypesRound ++ [.use ⟨"c", .read, some .bool⟩, .bind "x" .int]

/-- How a last round of `retypes` goes on after the first use of `x`. -/
def retypesAfter : List Action :=
  [.bind "y" .int, .bind "x" .bool, .use ⟨"x", .read, some .bool⟩, .bind "z" .bool, .again,
    .use ⟨"c", .read, some .bool⟩, .leave]

theorem path_retypes : (Control.ofFunction retypesTyped).Path
    (retypesBefore ++ .use ⟨"x", .read, some .int⟩ :: retypesAfter) .returned := by
  have path : (Control.ofFunction retypesTyped).Path _ .returned :=
    .seq (.seq (.loop (.snoc (.snoc .nil
      (.seq (.run ..) (.seq (.run ..) (.seq (.run ..) (.seq (.run ..) (.run ..))))) (.inl rfl))
      (.seq (.run ..) (.seq (.run ..) (.seq (.run ..) (.seq (.run ..) (.run ..))))) (.inl rfl))
      .done) (.run ..)) (.run ..)
  exact path

/-- The classes of the types of `retypes`. -/
def retypesClasses : ClassMemo where
  classes := .ofList [("bool", .copyable), ("int", .copyable)]

/-- In the second iteration the name has the first type again, although its last binding in the
    first iteration had the second one. -/
theorem second_round_type_reaches :
    checkFunction {} none retypes {} = .ok retypesTyped { memo := retypesClasses } ∧
    Consumption.checkFunction retypesTyped {} = .ok [] retypesClasses ∧
    (Control.ofFunction retypesTyped).Path
      (retypesBefore ++ .use ⟨"x", .read, some .int⟩ :: retypesAfter) .returned ∧
    reaching (bindings retypesTyped.params ++ retypesRound) "x" = some .bool ∧
    ∃ t', reaching (bindings retypesTyped.params ++ retypesBefore) "x" = some t' ∧
      t'.equal .int := by
  have elaborated : checkFunction {} none retypes {} =
      .ok retypesTyped { memo := retypesClasses } := by cbv
  have accepted : Consumption.checkFunction retypesTyped {} = .ok [] retypesClasses := by cbv
  exact ⟨elaborated, accepted, path_retypes, by cbv,
    recorded_type_reaches elaborated accepted path_retypes rfl⟩

end QuantumStatics.Elaboration
