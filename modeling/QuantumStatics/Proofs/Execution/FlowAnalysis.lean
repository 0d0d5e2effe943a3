/-
  Analyses that follow all executions at once.

  A `FlowAnalysis` follows facts through actions, says which facts may be joined where
  paths meet, and which facts may stand at the end of an iteration.  It looks at the body
  of a loop once: `Admits A c d Q` says that the analysis goes through the control flow `c`
  from the facts `d` and ends with facts that satisfy `Q`.

  A `Simulation` relates the facts of an analysis to what an execution has done.  Its only
  demand on loops is that the relation survives one back edge.
-/
import QuantumStatics.Proofs.Execution.Control

namespace QuantumStatics.Execution

open Control (Path Rounds Ends Reaches)

/-- An analysis that follows facts about executions. -/
structure FlowAnalysis (D : Type) where
  /-- The facts before and after an action. -/
  step : Action → D → D → Prop
  /-- A path with the first facts may go on with the second ones, behind a join. -/
  join : D → D → Prop
  /-- A loop entered with the first facts may go round with the second ones. -/
  again : D → D → Prop
  /-- Loops over arrays of such elements may not be left early. -/
  sealed : Ty → Prop

/-- What an analysis ends with, for each outcome. -/
abbrev Post (D : Type) := Outcome → D → Prop

/-- Requires `next` where a control flow ends normally. -/
def Post.onNormal {D : Type} (Q : Post D) (next : D → Prop) : Post D
  | .normal, d => next d
  | o, d => Q o d

namespace FlowAnalysis

variable {D : Type} (A : FlowAnalysis D)

/-- The facts before and after actions in a row. -/
def steps : List Action → D → D → Prop
  | [], d, d' => d = d'
  | a :: p, d, d' => ∃ m, A.step a d m ∧ steps p m d'

/-- A loop over such elements may be left early. -/
def Open (elements : Option Ty) : Prop := ∀ t ∈ elements, ¬ A.sealed t

/-- What is required where the body of a loop ends. -/
def bodyPost (elements : Option Ty) (entry exit : D) (Q : Post D) : Post D
  | .normal, e | .continued, e => A.again entry e ∧ A.join e exit
  | .broke, e => A.Open elements ∧ A.join e exit
  | .returned, e => A.Open elements ∧ Q .returned e

/-- The analysis goes through a control flow from the facts `d` and ends as `Q` says. -/
def Admits : Control → D → Post D → Prop
  | .run p o, d, Q => ∃ d', A.steps p d d' ∧ Q o d'
  | .seq a b, d, Q => Admits a d (Q.onNormal fun d' => Admits b d' Q)
  | .choice a b, d, Q =>
    -- There is nothing to join if neither side ends normally.
    ∃ m : Option D, (∀ d' ∈ m, Q .normal d') ∧
      Admits a d (Q.onNormal fun e => ∃ d' ∈ m, A.join e d') ∧
      Admits b d (Q.onNormal fun e => ∃ d' ∈ m, A.join e d')
  | .loop elements test enter body, d, Q =>
    ∃ d₁ d₂ m, A.steps test d d₁ ∧ A.steps enter d₁ d₂ ∧ A.join d₁ m ∧ Q .normal m ∧
      Admits body d₂ (A.bodyPost elements d₁ m Q)

variable {A}

theorem steps_append {p q : List Action} {d d' : D} :
    A.steps (p ++ q) d d' ↔ ∃ m, A.steps p d m ∧ A.steps q m d' := by
  induction p generalizing d with
  | nil => simp [steps]
  | cons a p ih =>
    simp only [List.cons_append, steps, ih]
    grind

theorem steps_singleton {a : Action} {d d' : D} : A.steps [a] d d' ↔ A.step a d d' := by
  simp [steps]

end FlowAnalysis

open FlowAnalysis

variable {D : Type} {c : Control} {C C' : List Action → Prop}

theorem Post.onNormal_mono {Q Q' : Post D} {next next' : D → Prop} (hQ : ∀ o d, Q o d → Q' o d)
    (hn : ∀ d, next d → next' d) (o : Outcome) (d : D) :
    Q.onNormal next o d → Q'.onNormal next' o d := by
  cases o with
  | normal => exact hn d
  | broke | continued | returned => exact hQ _ d

theorem FlowAnalysis.Admits.mono {A : FlowAnalysis D} {d : D} {Q Q' : Post D} (h : A.Admits c d Q)
    (hQ : ∀ o e, Q o e → Q' o e) : A.Admits c d Q' := by
  induction c generalizing d Q Q' with
  | run p o =>
    obtain ⟨d', hs, hd'⟩ := h
    exact ⟨d', hs, hQ _ _ hd'⟩
  | seq a b iha ihb => exact iha h (Post.onNormal_mono hQ fun _ hb => ihb hb hQ)
  | choice a b iha ihb =>
    obtain ⟨m, hm, ha, hb⟩ := h
    exact ⟨m, fun d' hd' => hQ _ _ (hm d' hd'), iha ha (Post.onNormal_mono hQ fun _ h => h),
      ihb hb (Post.onNormal_mono hQ fun _ h => h)⟩
  | loop elements test enter body ih =>
    obtain ⟨d₁, d₂, m, ht, he, hj, hm, hb⟩ := h
    refine ⟨d₁, d₂, m, ht, he, hj, hQ _ _ hm, ih hb fun o e h => ?_⟩
    cases o with
    | normal | continued | broke => exact h
    | returned => exact ⟨h.1, hQ _ _ h.2⟩

/-! ## Simulations -/

/-- Every action is fine where it is performed, after what was done before. -/
def Fine (ok : List Action → Action → Prop) (h p : List Action) : Prop :=
  ∀ p₁ a p₂, p = p₁ ++ a :: p₂ → ok (h ++ p₁) a

namespace Fine

variable {ok : List Action → Action → Prop} {h p q : List Action}

theorem nil : Fine ok h [] := by
  intro p₁ a p₂ hp
  simp at hp

theorem singleton {a : Action} (ha : ok h a) : Fine ok h [a] := by
  intro p₁ b p₂ hp
  obtain ⟨rfl, h'⟩ | ⟨p', rfl, h'⟩ := List.append_eq_cons_iff.mp hp.symm
  · cases h'
    simpa using ha
  · simp at h'

theorem append_iff : Fine ok h (p ++ q) ↔ Fine ok h p ∧ Fine ok (h ++ p) q := by
  refine ⟨fun hpq => ⟨fun p₁ a p₂ hp => ?_, fun p₁ a p₂ hq => ?_⟩, ?_⟩
  · exact hpq p₁ a (p₂ ++ q) (by simp [hp])
  · rw [List.append_assoc]
    exact hpq (p ++ p₁) a p₂ (by simp [hq])
  · rintro ⟨hp, hq⟩ p₁ a p₂ heq
    obtain ⟨r, rfl, hr⟩ | ⟨r, rfl, hr⟩ := List.append_eq_append_iff.mp heq
    · exact List.append_assoc .. ▸ hq r a p₂ hr
    · obtain ⟨rfl, hr⟩ | ⟨r', rfl, hr⟩ := List.cons_eq_append_iff.mp hr
      · simpa using hq [] a p₂ hr.symm
      · exact hp p₁ a r' rfl

theorem append (hp : Fine ok h p) (hq : Fine ok (h ++ p) q) : Fine ok h (p ++ q) :=
  append_iff.mpr ⟨hp, hq⟩

theorem left (hpq : Fine ok h (p ++ q)) : Fine ok h p := (append_iff.mp hpq).1

theorem mono {ok' : List Action → Action → Prop} (hp : Fine ok h p)
    (hok : ∀ h a, ok h a → ok' h a) : Fine ok' h p :=
  fun p₁ a p₂ heq => hok _ _ (hp p₁ a p₂ heq)

end Fine

/-- All tests of loops are of the given kind. -/
def Control.Tests (C : List Action → Prop) : Control → Prop
  | run _ _ => True
  | seq a b | choice a b => a.Tests C ∧ b.Tests C
  | loop _ test _ body => C test ∧ body.Tests C

theorem Control.Tests.mono (h : c.Tests C) (hC : ∀ p, C p → C' p) : c.Tests C' := by
  induction c with
  | run => trivial
  | seq a b iha ihb => exact ⟨iha h.1, ihb h.2⟩
  | choice a b iha ihb => exact ⟨iha h.1, ihb h.2⟩
  | loop elements test enter body ih => exact ⟨hC _ h.1, ih h.2⟩

theorem Control.Tests.and (h : c.Tests C) (h' : c.Tests C') : c.Tests fun p => C p ∧ C' p := by
  induction c with
  | run => trivial
  | seq a b iha ihb => exact ⟨iha h.1 h'.1, ihb h.2 h'.2⟩
  | choice a b iha ihb => exact ⟨iha h.1 h'.1, ihb h.2 h'.2⟩
  | loop elements test enter body ih => exact ⟨⟨h.1, h'.1⟩, ih h.2 h'.2⟩

/-- The test of a loop of a statement is an evaluation, if there is one. -/
def IsEvaluation (p : List Action) : Prop := ∃ us : List Use, p = us.map .use

mutual

theorem Control.tests_ofStmt : ∀ s : Typed.Stmt, (ofStmt s).Tests IsEvaluation
  | .assign _ _ _ | .tupleAssign _ _ _ | .expr _ _ | .ret _ _ | .breakLoop _
  | .continueLoop _ => trivial
  | .branch _ _ thenBody elseBody => ⟨trivial, tests_ofBlock thenBody, tests_ofBlock elseBody⟩
  | .whileLoop _ condition body => ⟨⟨uses condition, rfl⟩, tests_ofBlock body⟩
  | .forLoop _ _ _ _ body => ⟨trivial, ⟨[], rfl⟩, tests_ofBlock body⟩

theorem Control.tests_ofBlock : ∀ ss : List Typed.Stmt, (ofBlock ss).Tests IsEvaluation
  | [] => trivial
  | s :: ss => ⟨tests_ofStmt s, tests_ofBlock ss⟩

end

/-- A relation between the facts of an analysis and what an execution has done, which
    actions and joins keep and which one back edge restores.  The relation is stronger
    inside a loop than outside of it, so it has an index. -/
structure Simulation {D : Type} (A : FlowAnalysis D) (ι : Type) where
  holds : ι → D → List Action → Prop
  /-- What is fine to do, after what was done before. -/
  ok : List Action → Action → Prop
  /-- The tests of loops that the relation can bear. -/
  tests : List Action → Prop
  /-- The index inside a loop that is entered with the given facts. -/
  inside : ι → D → ι
  step {i : ι} {a : Action} {d d' : D} {h : List Action} :
    A.step a d d' → holds i d h → ok h a ∧ holds i d' (h ++ [a])
  join {i : ι} {d m : D} {h : List Action} : A.join d m → holds i d h → holds i m h
  goInside {i : ι} {d : D} {h : List Action} : holds i d h → holds (inside i d) d h
  goOutside {i : ι} {d e : D} {h : List Action} : holds (inside i d) e h → holds i e h
  /-- After a back edge the test is made again, and leads to the entry. -/
  again {i : ι} {test : List Action} {d d₁ e : D} {h h' : List Action} :
    holds i d h → A.steps test d d₁ → tests test → A.again d₁ e → holds (inside i d) e h' →
      Fine ok h' (.again :: test) ∧ holds (inside i d) d₁ (h' ++ .again :: test)

namespace Simulation

variable {D ι : Type} {A : FlowAnalysis D} (S : Simulation A ι) {i : ι} {d d₁ d₂ e m : D}
  {Q : Post D} {c c' : Control} {h p test enter r : List Action} {o : Outcome}

theorem steps (hs : A.steps p d e) (hd : S.holds i d h) :
    Fine S.ok h p ∧ S.holds i e (h ++ p) := by
  induction p generalizing d h with
  | nil =>
    cases hs
    exact ⟨.nil, by simpa using hd⟩
  | cons a p ih =>
    obtain ⟨m, ha, hs⟩ := hs
    obtain ⟨ok, hm⟩ := S.step ha hd
    obtain ⟨fine, he⟩ := ih hs hm
    exact ⟨Fine.append (.singleton ok) fine, by simpa using he⟩

/-! ### Loops -/

/-- The relation holds before and after the test of a loop. -/
structure AtTest (j : ι) (d₁ : D) (test h : List Action) : Prop where
  fine : Fine S.ok h test
  after : S.holds j d₁ (h ++ test)

/-- Every execution of the body of a loop leads from `d₁` to where `Q` holds. -/
def Keeps (j : ι) (d₁ : D) (enter : List Action) (body : List Action → Outcome → Prop)
    (Q : Post D) : Prop :=
  ∀ h p o, S.holds j d₁ h → body p o →
    Fine S.ok h (enter ++ p) ∧ ∃ e, Q o e ∧ S.holds j e (h ++ (enter ++ p))

variable {S} {j : ι} {elements : Option Ty} {body : List Action → Outcome → Prop}

theorem Keeps.edge (hk : S.Keeps j d₁ enter body (A.bodyPost elements d₁ m Q))
    (ht : S.AtTest j d₁ test h) (hp : body p o) (ho : o.EndsRound) :
    Fine S.ok h (test ++ enter ++ p) ∧
      ∃ e, A.again d₁ e ∧ S.holds j e (h ++ (test ++ enter ++ p)) := by
  obtain ⟨fine, e, he, hold⟩ := hk _ _ _ ht.after hp
  refine ⟨by simpa using ht.fine.append fine, e, ?_, by simpa using hold⟩
  rcases ho with rfl | rfl <;> exact he.1

theorem Keeps.rounds (hk : S.Keeps j d₁ enter body (A.bodyPost elements d₁ m Q))
    (back : ∀ e h', A.again d₁ e → S.holds j e h' →
      Fine S.ok h' (.again :: test) ∧ S.holds j d₁ (h' ++ .again :: test))
    (ht : S.AtTest j d₁ test h) (hr : Rounds test enter body r) :
    Fine S.ok h r ∧ S.AtTest j d₁ test (h ++ r) := by
  induction hr with
  | nil => exact ⟨.nil, by simpa using ht⟩
  | @snoc r p o _ path ends ih =>
    obtain ⟨fine, ht⟩ := ih
    obtain ⟨fine', e, hae, he⟩ := hk.edge ht path ends
    obtain ⟨fineAgain, after⟩ := back e _ hae he
    obtain ⟨fineAgain, fineTest⟩ := Fine.append_iff (p := [.again]).mp fineAgain
    refine ⟨fine.append (fine'.append fineAgain), ?_, ?_⟩
    · simpa using fineTest
    · simpa using after

theorem Keeps.of_enter {R : Post D} (he : A.steps enter d₁ d₂)
    (hb : ∀ h p o, S.holds j d₂ h → body p o →
      Fine S.ok h p ∧ ∃ e, R o e ∧ S.holds j e (h ++ p)) :
    S.Keeps j d₁ enter body R := by
  intro h p o hd hp
  obtain ⟨fineEnter, hd₂⟩ := S.steps he hd
  obtain ⟨fine, e, hR, hold⟩ := hb _ _ _ hd₂ hp
  exact ⟨fineEnter.append fine, e, hR, by simpa using hold⟩

variable (S)

theorem atTest (ht : A.steps test d d₁) (hd : S.holds i d h) :
    S.AtTest (S.inside i d) d₁ test h :=
  have ⟨fine, after⟩ := S.steps ht (S.goInside hd)
  ⟨fine, after⟩

/-! ### Paths -/

/-- **Every execution of an admitted control flow is fine.**  Along every path, whatever the
    branches and however often the loops go round, every action is fine where it is
    performed, and the relation holds at the end with facts that the analysis ends with. -/
theorem path (ha : A.Admits c d Q) (hc : c.Tests S.tests) (hd : S.holds i d h)
    (hp : c.Path p o) : Fine S.ok h p ∧ ∃ e, Q o e ∧ S.holds i e (h ++ p) := by
  induction c generalizing i d Q h p o with
  | run actions outcome =>
    obtain ⟨rfl, rfl⟩ := hp
    obtain ⟨d', hs, hQ⟩ := ha
    obtain ⟨fine, hold⟩ := S.steps hs hd
    exact ⟨fine, d', hQ, hold⟩
  | seq a b iha ihb =>
    rcases hp with ⟨p₁, p₂, rfl, hpa, hpb⟩ | ⟨hpa, ho⟩
    · obtain ⟨fine, d', hb, hold⟩ := iha ha hc.1 hd hpa
      obtain ⟨fine', e, hQ, hold'⟩ := ihb hb hc.2 hold hpb
      exact ⟨fine.append fine', e, hQ, by simpa using hold'⟩
    · obtain ⟨fine, e, hQ, hold⟩ := iha ha hc.1 hd hpa
      refine ⟨fine, e, ?_, hold⟩
      cases o with
      | normal => exact absurd rfl ho
      | broke | continued | returned => exact hQ
  | choice a b iha ihb =>
    obtain ⟨m, hm, ha, hb⟩ := ha
    have side : Fine S.ok h p ∧
        ∃ e, Q.onNormal (fun e => ∃ d' ∈ m, A.join e d') o e ∧ S.holds i e (h ++ p) := by
      rcases hp with hp | hp
      · exact iha ha hc.1 hd hp
      · exact ihb hb hc.2 hd hp
    obtain ⟨fine, e, hQ, hold⟩ := side
    cases o with
    | normal =>
      obtain ⟨d', hd', hj⟩ := hQ
      exact ⟨fine, d', hm d' hd', S.join hj hold⟩
    | broke | continued | returned => exact ⟨fine, e, hQ, hold⟩
  | loop elements test enter body ih =>
    obtain ⟨d₁, d₂, m, ht, he, hj, hm, hb⟩ := ha
    obtain ⟨r, q, rfl, hr, hq⟩ := hp
    have keeps : S.Keeps (S.inside i d) d₁ enter body.Path (A.bodyPost elements d₁ m Q) :=
      .of_enter he fun _ _ _ => ih hb hc.2
    obtain ⟨fine, at'⟩ := keeps.rounds (fun _ _ => S.again hd ht hc.1) (S.atTest ht hd) hr
    cases hq with
    | done => exact ⟨fine.append at'.fine, m, hm, by simpa using S.join hj (S.goOutside at'.after)⟩
    | broke hq =>
      obtain ⟨fine', e, hQ, hold⟩ := keeps _ _ _ at'.after hq
      refine ⟨fine.append (by simpa using at'.fine.append fine'), m, hm, ?_⟩
      simpa using S.join hQ.2 (S.goOutside hold)
    | returned hq =>
      obtain ⟨fine', e, hQ, hold⟩ := keeps _ _ _ at'.after hq
      refine ⟨fine.append (by simpa using at'.fine.append fine'), e, hQ.2, ?_⟩
      simpa using S.goOutside hold

theorem reaches (ha : A.Admits c d Q) (hc : c.Tests S.tests) (hd : S.holds i d h)
    (hr : c.Reaches p c') :
    c'.Tests S.tests ∧ ∃ i' d' Q', A.Admits c' d' Q' ∧ S.holds i' d' (h ++ p) := by
  induction hr generalizing i d Q h with
  | here => exact ⟨hc, i, d, Q, ha, by simpa using hd⟩
  | first _ ih => exact ih ha hc.1 hd
  | @second a b c p q path _ ih =>
    obtain ⟨-, d', hb, hold⟩ := S.path (c := a) ha hc.1 hd path
    simpa using ih hb hc.2 hold
  | left _ ih =>
    obtain ⟨m, -, ha, -⟩ := ha
    exact ih ha hc.1 hd
  | right _ ih =>
    obtain ⟨m, -, -, hb⟩ := ha
    exact ih hb hc.2 hd
  | @body elements test enter r q b c rounds _ ih =>
    obtain ⟨d₁, d₂, m, ht, he, -, -, hb⟩ := ha
    have keeps : S.Keeps (S.inside i d) d₁ enter b.Path (A.bodyPost elements d₁ m Q) :=
      .of_enter he fun _ _ _ => S.path hb hc.2
    obtain ⟨-, at'⟩ := keeps.rounds (fun _ _ => S.again hd ht hc.1) (S.atTest ht hd) rounds
    obtain ⟨-, hd₂⟩ := S.steps he at'.after
    simpa using ih hb hc.2 hd₂

theorem backEdge {elements : Option Ty} {body : Control}
    (ha : A.Admits (.loop elements test enter body) d Q)
    (hc : (Control.loop elements test enter body).Tests S.tests) (hd : S.holds i d h)
    (hr : Rounds test enter body.Path r) (hp : body.Path p o) (ho : o.EndsRound) :
    ∃ d₁ e, A.steps test d d₁ ∧ A.again d₁ e ∧
      S.holds (S.inside i d) e (h ++ (r ++ (test ++ enter ++ p))) := by
  obtain ⟨d₁, d₂, m, ht, he, -, -, hb⟩ := ha
  have keeps : S.Keeps (S.inside i d) d₁ enter body.Path (A.bodyPost elements d₁ m Q) :=
    .of_enter he fun _ _ _ => S.path hb hc.2
  obtain ⟨-, at'⟩ := keeps.rounds (fun _ _ => S.again hd ht hc.1) (S.atTest ht hd) hr
  obtain ⟨-, e, hae, hold⟩ := keeps.edge at' hp ho
  exact ⟨d₁, e, ht, hae, by simpa using hold⟩

theorem not_left {t : Ty} {body : Control}
    (ha : A.Admits (.loop (some t) test enter body) d Q)
    (hc : (Control.loop (some t) test enter body).Tests S.tests) (hd : S.holds i d h)
    (ht : A.sealed t) (hp : body.Path p o) : o ≠ .broke ∧ o ≠ .returned := by
  obtain ⟨d₁, d₂, m, htest, he, -, -, hb⟩ := ha
  have keeps : S.Keeps (S.inside i d) d₁ enter body.Path (A.bodyPost (some t) d₁ m Q) :=
    .of_enter he fun _ _ _ => S.path hb hc.2
  obtain ⟨-, e, hQ, -⟩ := keeps _ _ _ (S.atTest htest hd).after hp
  constructor <;> rintro rfl <;> exact hQ.1 t rfl ht

/-! ### Checks that every path passes -/

variable {step : Action → D → D → Prop} {good : List Action → Action → Prop}

theorem steps_of_fine
    (hstep : ∀ {i a d d' h}, A.step a d d' → S.holds i d h → good h a → step a d d')
    (hs : A.steps p d e) (hd : S.holds i d h) (fine : Fine good h p) :
    { A with step := step }.steps p d e := by
  induction p generalizing d h with
  | nil => exact hs
  | cons a p ih =>
    obtain ⟨m, ha, hs⟩ := hs
    obtain ⟨first, rest⟩ := Fine.append_iff (p := [a]).mp fine
    exact ⟨m, hstep ha hd (by simpa using first [] a [] rfl), ih hs (S.step ha hd).2 rest⟩

/-- **What every execution passes, the analysis can check.**  An analysis that admits a control flow
    still admits it with stronger steps, if they follow wherever an execution does something good,
    and if every execution does.  It ends where executions end. -/
theorem admits_of_fine
    (hstep : ∀ {i a d d' h}, A.step a d d' → S.holds i d h → good h a → step a d d')
    (ha : A.Admits c d Q) (hc : c.Tests S.tests) (hd : S.holds i d h)
    (fine : ∀ p o, c.Path p o → Fine good h p) :
    { A with step := step }.Admits c d
      fun o e => Q o e ∧ ∃ p, c.Path p o ∧ S.holds i e (h ++ p) := by
  induction c generalizing i d Q h with
  | run actions outcome =>
    obtain ⟨d', hs, hQ⟩ := ha
    have path := Path.run actions outcome
    exact ⟨d', S.steps_of_fine hstep hs hd (fine _ _ path), hQ, _, path, (S.steps hs hd).2⟩
  | seq a b iha ihb =>
    have first := iha ha hc.1 hd fun p o hp => by
      obtain ⟨q, o', hpq⟩ := hp.extend_seq b
      exact (fine _ _ hpq).left
    refine first.mono fun o e ⟨hQ, p, hp, hold⟩ => ?_
    cases o with
    | normal =>
      have second := ihb hQ hc.2 hold fun q o' hq =>
        (Fine.append_iff.mp (fine _ _ (.seq hp hq))).2
      refine second.mono fun o' e' ⟨hQ', q, hq, hold'⟩ => ⟨hQ', _, .seq hp hq, ?_⟩
      simpa using hold'
    | broke | continued | returned => exact ⟨hQ, p, .jump hp nofun, hold⟩
  | choice a b iha ihb =>
    obtain ⟨m, hm, ha, hb⟩ := ha
    have left := iha ha hc.1 hd fun p o hp => fine p o (.inl hp)
    have right := ihb hb hc.2 hd fun p o hp => fine p o (.inr hp)
    -- There is something to join if a path through one of the sides ends normally.
    obtain ⟨m', hm', same⟩ : ∃ m' : Option D, (∀ d' ∈ m', Q .normal d' ∧
        ∃ p, (Control.choice a b).Path p .normal ∧ S.holds i d' (h ++ p)) ∧
        ∀ p, (Control.choice a b).Path p .normal → m' = m := by
      by_cases ends : ∃ p, (Control.choice a b).Path p .normal
      · obtain ⟨p, hp⟩ := ends
        have side : ∃ e, (∃ d' ∈ m, A.join e d') ∧ S.holds i e (h ++ p) := by
          rcases hp with hp | hp
          · exact (S.path ha hc.1 hd hp).2
          · exact (S.path hb hc.2 hd hp).2
        obtain ⟨e, ⟨d', hd', hj⟩, hold⟩ := side
        refine ⟨m, fun d'' hd'' => ?_, fun _ _ => rfl⟩
        cases Option.mem_unique hd' hd''
        exact ⟨hm d' hd', p, hp, S.join hj hold⟩
      · exact ⟨none, nofun, fun p hp => absurd ⟨p, hp⟩ ends⟩
    have post : ∀ o e, Q.onNormal (fun e => ∃ d' ∈ m, A.join e d') o e →
        ∀ p, (Control.choice a b).Path p o → S.holds i e (h ++ p) →
        Post.onNormal (fun o e => Q o e ∧ ∃ p, (Control.choice a b).Path p o ∧ S.holds i e (h ++ p))
          (fun e => ∃ d' ∈ m', A.join e d') o e := by
      intro o e hQ p hp hold
      cases o with
      | normal => exact same p hp ▸ hQ
      | broke | continued | returned => exact ⟨hQ, p, hp, hold⟩
    exact ⟨m', hm', left.mono fun o e ⟨hQ, p, hp, hold⟩ => post o e hQ p (.inl hp) hold,
      right.mono fun o e ⟨hQ, p, hp, hold⟩ => post o e hQ p (.inr hp) hold⟩
  | loop elements test enter body ih =>
    obtain ⟨d₁, d₂, m, ht, he, hj, hm, hb⟩ := ha
    have fineBody : ∀ p o, body.Path p o → Fine good h (test ++ enter ++ p) := fun p o hp => by
      obtain ⟨q, o', hpq⟩ := hp.extend_loop elements test enter
      exact (fine _ _ hpq).left
    obtain ⟨p₀, o₀, hp₀⟩ := body.exists_path
    obtain ⟨fineTest, fineEnter⟩ := Fine.append_iff.mp (fineBody p₀ o₀ hp₀).left
    have hd₁ := (S.steps ht (S.goInside hd)).2
    have hd₂ := (S.steps he hd₁).2
    have inside := ih hb hc.2 hd₂ fun p o hp => by
      simpa using (Fine.append_iff.mp (fineBody p o hp)).2
    refine ⟨d₁, d₂, m, S.steps_of_fine hstep ht hd fineTest,
      S.steps_of_fine hstep he hd₁ fineEnter, hj, ⟨hm, _, .loop .nil .done, ?_⟩, ?_⟩
    · exact S.join hj (S.goOutside hd₁)
    · refine inside.mono fun o e ⟨hQ, p, hp, hold⟩ => ?_
      cases o with
      | normal | continued | broke => exact hQ
      | returned =>
        refine ⟨hQ.1, hQ.2, _, .loop .nil (.returned hp), ?_⟩
        simpa using S.goOutside hold

end Simulation

/-! ## Two analyses together -/

/-- Two analyses at the same time. -/
def FlowAnalysis.prod {D E : Type} (A : FlowAnalysis D) (B : FlowAnalysis E) :
    FlowAnalysis (D × E) where
  step a x y := A.step a x.1 y.1 ∧ B.step a x.2 y.2
  join x y := A.join x.1 y.1 ∧ B.join x.2 y.2
  again x y := A.again x.1 y.1 ∧ B.again x.2 y.2
  sealed t := A.sealed t ∧ B.sealed t

section Prod

variable {D E : Type} {A : FlowAnalysis D} {B : FlowAnalysis E}

theorem FlowAnalysis.steps_prod {p : List Action} {x y : D × E} :
    (A.prod B).steps p x y ↔ A.steps p x.1 y.1 ∧ B.steps p x.2 y.2 := by
  induction p generalizing x with
  | nil => exact Prod.ext_iff
  | cons a p ih =>
    simp only [steps, ih]
    constructor
    · rintro ⟨⟨m, n⟩, ⟨hm, hn⟩, ha, hb⟩
      exact ⟨⟨m, hm, ha⟩, n, hn, hb⟩
    · rintro ⟨⟨m, hm, ha⟩, n, hn, hb⟩
      exact ⟨(m, n), ⟨hm, hn⟩, ha, hb⟩

/-- The requirements of two analyses. -/
def Post.prod (Q : Post D) (R : Post E) : Post (D × E) := fun o x => Q o x.1 ∧ R o x.2

theorem FlowAnalysis.Admits.prod {c : Control} {d : D} {e : E} {Q : Post D} {R : Post E}
    (ha : A.Admits c d Q) (hb : B.Admits c e R) : (A.prod B).Admits c (d, e) (Q.prod R) := by
  induction c generalizing d e Q R with
  | run p o =>
    obtain ⟨d', hd', hQ⟩ := ha
    obtain ⟨e', he', hR⟩ := hb
    exact ⟨(d', e'), steps_prod.mpr ⟨hd', he'⟩, hQ, hR⟩
  | seq a b iha ihb =>
    refine (iha ha hb).mono fun o x h => ?_
    cases o with
    | normal => exact ihb h.1 h.2
    | broke | continued | returned => exact h
  | choice a b iha ihb =>
    obtain ⟨m, hm, ha, ha'⟩ := ha
    obtain ⟨n, hn, hb, hb'⟩ := hb
    have both : ∀ o x, (Q.onNormal (fun x => ∃ d' ∈ m, A.join x d')).prod
        (R.onNormal fun x => ∃ e' ∈ n, B.join x e') o x →
        (Q.prod R).onNormal (fun x => ∃ y ∈ m.bind fun d' => n.map (d', ·),
          (A.prod B).join x y) o x := by
      intro o x h
      cases o with
      | normal =>
        obtain ⟨⟨d', hd', hj⟩, e', he', hj'⟩ := h
        refine ⟨(d', e'), ?_, hj, hj'⟩
        simp [Option.mem_def.mp hd', Option.mem_def.mp he']
      | broke | continued | returned => exact h
    refine ⟨m.bind fun d' => n.map (d', ·), fun y hy => ?_, (iha ha hb).mono both,
      (ihb ha' hb').mono both⟩
    obtain ⟨d', hd', hy⟩ := Option.bind_eq_some_iff.mp hy
    obtain ⟨e', he', rfl⟩ := Option.map_eq_some_iff.mp hy
    exact ⟨hm d' hd', hn e' he'⟩
  | loop elements test enter body ih =>
    obtain ⟨d₁, d₂, m, ht, he, hj, hm, hbody⟩ := ha
    obtain ⟨e₁, e₂, n, ht', he', hj', hn, hbody'⟩ := hb
    refine ⟨(d₁, e₁), (d₂, e₂), (m, n), steps_prod.mpr ⟨ht, ht'⟩, steps_prod.mpr ⟨he, he'⟩,
      ⟨hj, hj'⟩, ⟨hm, hn⟩, (ih hbody hbody').mono fun o x h => ?_⟩
    cases o with
    | normal | continued => exact ⟨⟨h.1.1, h.2.1⟩, h.1.2, h.2.2⟩
    | broke => exact ⟨fun t ht hs => h.1.1 t ht hs.1, h.1.2, h.2.2⟩
    | returned => exact ⟨fun t ht hs => h.1.1 t ht hs.1, h.1.2, h.2.2⟩

end Prod

end QuantumStatics.Execution
