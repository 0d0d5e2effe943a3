/-
  The bindings that the checker follows and the cells of an execution.

  `Related` ties the states of the bindings to the cells.  A defined binding has a cell of at
  most its class.  A defined linear binding has its value, and every linear value that is
  there belongs to a defined binding.  The value of a defined binding may be gone only if
  it is `Spent`: it went away before a loop went round.

  A back edge is where this needs an argument.  The checker joins the end of an iteration
  with the entry of the loop, behind the test, and does not make the test again.  So the
  relation is carried through the test once more, between the bindings of its first
  evaluation and the cells of the next one (`Related.retest`).
-/
import QuantumStatics.Proofs.Consumption.Followed
import QuantumStatics.Proofs.Execution.Store

namespace QuantumStatics.Consumption

open Execution

/-- The bindings `F` and the cells after the actions `h` fit together.  The names in `X` are
    bound for good.  What is said about linear values is said about the bindings `G`, which
    are `F` unless a test is made again. -/
structure Related (κ : Ty → OwnershipClass) (X : String → Prop) (F G : Bindings)
    (h : List Action) : Prop where
  settled {x : String} : X x ∨ Defined F x →
    ∃ b c, F.get? x = some b ∧ Store.after κ h x = some c ∧ κ c.type ≤ b.cls
  spent {x : String} : Defined F x → Dead κ h x → Spent κ h x
  live {x : String} {b : Binding} {c : Cell} : G.get? x = some b → b.state = .defined →
    b.cls = .linear → Store.after κ h x = some c → c.live
  accounted {x : String} {c : Cell} :
    Store.after κ h x = some c → c.live → κ c.type = .linear → Defined G x

/-- What is fine for an execution to do after the actions `h`.  A use finds its value, unless
    the value is affine and spent; but only if `keeps` holds, it is sure to find it otherwise. -/
def Acceptable (κ : Ty → OwnershipClass) (borrowed : String → Prop) (keeps : Prop)
    (h : List Action) : Action → Prop
  | .use u => ∃ c, Store.after κ h u.name = some c ∧
      (¬ c.live → κ c.type = .affine → Spent κ h u.name) ∧ (keeps → c.live ∨ κ c.type = .affine)
  | .bind n _ => ∀ c, Store.after κ h n = some c → c.live → κ c.type ≠ .linear
  | .leave =>
    (∀ x c, Store.after κ h x = some c → c.live → κ c.type = .linear → borrowed x) ∧
    ∀ x, borrowed x → ∃ c, Store.after κ h x = some c ∧
      (¬ c.live → κ c.type = .affine ∧ Spent κ h x)
  | .again => True

/-- No use gives a value away. -/
def GivesNothingAway (p : List Action) : Prop := ∀ u, .use u ∈ p → u.kind ≠ .consume

/-- A test evaluates an expression, and gives nothing away if `keeps` holds. -/
def IsTest (keeps : Prop) (p : List Action) : Prop :=
  IsEvaluation p ∧ (keeps → GivesNothingAway p)

section

variable {κ : Ty → OwnershipClass} {borrowed X : String → Prop} {keeps agree : Prop}
  {F F' G : Bindings} {h p : List Action} {x : String} {u : Use} {b : Binding} {us : List Use}

/-! ## Uses -/

theorem defined_of_use (hs : UseStep u F F') (hx : Defined F' x) : Defined F x := by
  obtain ⟨b, hb, hd, rfl⟩ := hs
  split at hx
  · obtain ⟨b', hb', hd'⟩ := hx
    rw [Dict.get?_insert] at hb'
    split at hb'
    · cases hb'
      cases hd'
    · exact ⟨b', hb', hd'⟩
  · exact hx

theorem class_of_use (hs : UseStep u F F') (hx : F.get? x = some b) :
    ∃ b', F'.get? x = some b' ∧ b'.cls = b.cls := by
  obtain ⟨b', hb', hd, rfl⟩ := hs
  split
  · rw [Dict.get?_insert]
    split
    · rename_i hn
      cases hx.symm.trans (hn ▸ hb')
      exact ⟨_, rfl, rfl⟩
    · exact ⟨b, hx, rfl⟩
  · exact ⟨b, hx, rfl⟩

theorem defined_of_uses (hs : (consumption κ borrowed agree).steps (us.map .use) F F')
    (hx : Defined F' x) : Defined F x := by
  induction us generalizing F with
  | nil => exact hs ▸ hx
  | cons u us ih =>
    obtain ⟨F₁, hu, hs⟩ := hs
    exact defined_of_use hu (ih hs)

theorem class_of_uses (hs : (consumption κ borrowed agree).steps (us.map .use) F F')
    (hx : F.get? x = some b) : ∃ b', F'.get? x = some b' ∧ b'.cls = b.cls := by
  induction us generalizing F b with
  | nil => exact ⟨b, hs ▸ hx, rfl⟩
  | cons u us ih =>
    obtain ⟨F₁, hu, hs⟩ := hs
    obtain ⟨b₁, hb₁, hc₁⟩ := class_of_use hu hx
    obtain ⟨b', hb', hc'⟩ := ih hs hb₁
    exact ⟨b', hb', hc'.trans hc₁⟩

theorem eq_of_uses (hus : GivesNothingAway (us.map .use))
    (hs : (consumption κ borrowed agree).steps (us.map .use) F F') : F = F' := by
  induction us generalizing F with
  | nil => exact hs
  | cons u us ih =>
    obtain ⟨F₁, ⟨b, -, -, rfl⟩, hs⟩ := hs
    rw [if_neg fun hc => hus u (List.mem_cons_self ..) hc.1] at hs
    exact ih (fun v hv => hus v (List.mem_cons_of_mem _ hv)) hs

/-! ## One action -/

namespace Related

theorem cell (hr : Related κ X F F h) (hx : Defined F x) :
    ∃ c, Store.after κ h x = some c ∧ (¬ c.live → κ c.type = .affine ∧ Spent κ h x) := by
  obtain ⟨b, c, hb, hc, hle⟩ := hr.settled (.inr hx)
  refine ⟨c, hc, fun hd => ⟨?_, hr.spent hx ⟨c, hc, hd⟩⟩⟩
  obtain ⟨b', hb', hs⟩ := hx
  cases hb.symm.trans hb'
  cases hκ : κ c.type with
  | copyable => exact absurd hκ (Store.ne_copyable_of_dead hc hd)
  | affine => rfl
  | linear =>
    rw [hκ, OwnershipClass.linear_le_iff] at hle
    exact absurd (hr.live hb hs hle hc) hd

theorem of_after_eq {a : Action} (hr : Related κ X F G h) (ha : ∀ x t, a ≠ .bind x t)
    (hσ : Store.after κ (h ++ [a]) = Store.after κ h) : Related κ X F G (h ++ [a]) where
  settled := by
    rw [hσ]
    exact hr.settled
  spent hx hdead := by
    unfold Dead at hdead
    rw [hσ] at hdead
    exact (hr.spent hx hdead).append fun t ht => ha _ t (List.mem_singleton.mp ht).symm
  live := by
    rw [hσ]
    exact hr.live
  accounted := by
    rw [hσ]
    exact hr.accounted

theorem of_update {a : Action} {n : String} {G' : Bindings} (hr : Related κ X F G h)
    (ha : ∀ x t, a = .bind x t → x = n)
    (hF : ∀ x ≠ n, F'.get? x = F.get? x) (hG : ∀ x ≠ n, G'.get? x = G.get? x)
    (hσ : ∀ x ≠ n, Store.after κ (h ++ [a]) x = Store.after κ h x)
    (settled : ∃ b c, F'.get? n = some b ∧ Store.after κ (h ++ [a]) n = some c ∧
      κ c.type ≤ b.cls)
    (spent : Defined F' n → Dead κ (h ++ [a]) n → Spent κ (h ++ [a]) n)
    (live : ∀ c, Defined G' n → Store.after κ (h ++ [a]) n = some c → c.live)
    (accounted : ∀ c, Store.after κ (h ++ [a]) n = some c → c.live → κ c.type = .linear →
      Defined G' n) : Related κ X F' G' (h ++ [a]) where
  settled {x} hx := by
    by_cases hn : x = n
    · exact hn ▸ settled
    · rw [hF x hn, hσ x hn]
      refine hr.settled (hx.imp_right fun hx => ?_)
      unfold Defined at hx ⊢
      rwa [hF x hn] at hx
  spent {x} hx hdead := by
    by_cases hn : x = n
    · subst hn
      exact spent hx hdead
    · unfold Defined at hx
      rw [hF x hn] at hx
      unfold Dead at hdead
      rw [hσ x hn] at hdead
      refine (hr.spent hx hdead).append fun t ht => hn ?_
      exact ha x t (List.mem_singleton.mp ht).symm
  live {x b c} hb hd hl hc := by
    by_cases hn : x = n
    · subst hn
      exact live c ⟨b, hb, hd⟩ hc
    · exact hr.live ((hG x hn).symm.trans hb) hd hl ((hσ x hn).symm.trans hc)
  accounted {x c} hc hlive hlin := by
    by_cases hn : x = n
    · subst hn
      exact accounted c hc hlive hlin
    · unfold Defined
      rw [hG x hn]
      exact hr.accounted ((hσ x hn).symm.trans hc) hlive hlin

/-- A use keeps the relation.  The bindings that linear values are accounted by may change
    with the use or stay, as long as they do not define what the use gives away. -/
theorem use {u : Use} {G' : Bindings} (hr : Related κ X F G h) (hs : UseStep u F F')
    (hkept : F' = F → G' = G) (hG : ∀ x ≠ u.name, G'.get? x = G.get? x)
    (hgone : Defined G' u.name → Defined F' u.name) :
    Related κ X F' G' (h ++ [.use u]) := by
  obtain ⟨b, hb, hd, rfl⟩ := hs
  obtain ⟨b', c, hb', hc, hle⟩ := hr.settled (.inr ⟨b, hb, hd⟩)
  cases hb.symm.trans hb'
  by_cases hcons : u.kind = .consume ∧ b.cls ≠ .copyable
  · simp only [if_pos hcons] at hgone ⊢
    have after : Store.after κ (h ++ [.use u]) u.name = some (c.giveAway κ) := by
      simp [Store.step, hcons.1, hc]
    have gone : ¬ Defined (F.insert u.name { b with state := .consumed }) u.name := by
      rintro ⟨b'', hb'', hd''⟩
      rw [Dict.get?_insert, if_pos rfl] at hb''
      cases hb''
      cases hd''
    refine hr.of_update (by intro x t h; cases h) (fun x hx => ?_) hG (fun x hx => ?_)
      ⟨_, _, by rw [Dict.get?_insert, if_pos rfl], after, by simpa using hle⟩
      (fun hdef => absurd hdef gone) (fun _ hdef => absurd (hgone hdef) gone)
      fun c' hc' hlive hlin => ?_
    · rw [Dict.get?_insert, if_neg hx]
    · simp [Store.step, hx]
    · cases hc'.symm.trans after
      rw [Store.type_giveAway] at hlin
      simp [Cell.giveAway, hlin] at hlive
  · rw [if_neg hcons] at hkept ⊢
    rw [hkept rfl]
    refine hr.of_after_eq (by intro x t h; cases h) (funext fun x => ?_)
    simp only [Store.after_append_singleton, Store.step]
    split
    · rename_i hx
      obtain ⟨rfl, hk⟩ := hx
      have : b.cls = .copyable := by simpa [hk] using hcons
      rw [this, OwnershipClass.le_copyable_iff] at hle
      simp [hc, Cell.giveAway, hle]
    · rfl

theorem bind {n : String} {t : Ty} (hr : Related κ X F F h)
    (hs : bindingsStep κ borrowed (.bind n t) F F') : Related κ X F' F' (h ++ [.bind n t]) := by
  obtain ⟨c, hle, -, rfl⟩ := hs
  have after : Store.after κ (h ++ [.bind n t]) n = some ⟨t, true⟩ := by simp [Store.step]
  have look : (F.insert n { (F.get? n).getD {} with state := .defined, cls := c }).get? n =
      some { (F.get? n).getD {} with state := .defined, cls := c } := by
    rw [Dict.get?_insert, if_pos rfl]
  have others : ∀ x ≠ n, (F.insert n { (F.get? n).getD {} with
      state := .defined, cls := c }).get? x = F.get? x :=
    fun x hx => by rw [Dict.get?_insert, if_neg hx]
  refine hr.of_update (by rintro x t' ⟨⟩; rfl) others others (fun x hx => by simp [Store.step, hx])
    ⟨_, _, look, after, hle⟩ (fun _ hdead => ?_) (fun c' _ hc' => ?_) fun _ _ _ _ => ⟨_, look, rfl⟩
  · obtain ⟨c', hc', hd⟩ := hdead
    cases hc'.symm.trans after
    exact absurd rfl hd
  · cases hc'.symm.trans after
    rfl

theorem linear (hr : Related κ X F F h) {c : Cell} (hc : Store.after κ h x = some c)
    (hlive : c.live) (hlin : κ c.type = .linear) :
    ∃ b, F.get? x = some b ∧ b.state = .defined ∧ b.cls = .linear := by
  have hdef := hr.accounted hc hlive hlin
  obtain ⟨b, c', hb, hc', hle⟩ := hr.settled (.inr hdef)
  obtain ⟨b', hb', hd⟩ := hdef
  cases hb.symm.trans hb'
  cases hc.symm.trans hc'
  rw [hlin, OwnershipClass.linear_le_iff] at hle
  exact ⟨b, hb, hd, hle⟩

/-- **Every action keeps the relation**, and is acceptable. -/
theorem step {a : Action} (hr : Related κ X F F h) (hs : bindingsStep κ borrowed a F F') :
    Acceptable κ borrowed keeps h a ∧ Related κ X F' F' (h ++ [a]) := by
  cases a with
  | use u =>
    have hs : UseStep u F F' := hs
    refine ⟨?_, hr.use hs id (fun x hx => ?_) id⟩
    · obtain ⟨b, hb, hd, -⟩ := hs
      obtain ⟨c, hc, hdead⟩ := hr.cell ⟨b, hb, hd⟩
      refine ⟨c, hc, fun hl _ => (hdead hl).2, fun _ => ?_⟩
      exact Classical.or_iff_not_imp_left.mpr fun hl => (hdead hl).1
    · obtain ⟨b, -, -, rfl⟩ := hs
      split
      · rw [Dict.get?_insert, if_neg hx]
      · rfl
  | bind n t =>
    refine ⟨fun c hc hlive hlin => ?_, hr.bind hs⟩
    obtain ⟨b, hb, hd, hcls⟩ := hr.linear hc hlive hlin
    obtain ⟨_, -, free, -⟩ := hs
    exact free b hb hd hcls
  | leave =>
    obtain ⟨rfl, back, left⟩ := hs
    refine ⟨⟨fun x c hc hlive hlin => ?_, fun x hx => hr.cell (back x hx)⟩,
      hr.of_after_eq (by intro x t h; cases h) (by simp [Store.step])⟩
    obtain ⟨b, hb, hd, hcls⟩ := hr.linear hc hlive hlin
    exact left x b hb hd hcls
  | again => exact hs.elim

theorem join {m : Bindings} (hr : Related κ X F F h) (hc : Covered True F m) :
    Related κ X m m h where
  settled hx := by
    obtain ⟨b, c, hb, hσ, hle⟩ := hr.settled (hx.imp_right hc.defined)
    obtain ⟨b', hb'⟩ := Option.isSome_iff_exists.mp (hc.present (Option.isSome_of_eq_some hb))
    exact ⟨b', c, hb', hσ, hc.sameClass trivial hb hb' ▸ hle⟩
  spent hx := hr.spent (hc.defined hx)
  live hb' hd hl := by
    obtain ⟨b, hb, hd⟩ := hc.defined ⟨_, hb', hd⟩
    exact hr.live hb hd (hc.sameClass trivial hb hb' ▸ hl)
  accounted hσ hlive hlin := by
    obtain ⟨b, hb, hd, hl⟩ := hr.linear hσ hlive hlin
    exact hc.held trivial hb hd hl

/-! ## Back edges -/

/-- Behind a back edge, the bindings before the test fit the cells, as far as they do not
    say anything about linear values; the bindings behind the test say it. -/
theorem afterEdge {d d₁ e : Bindings} {us : List Use} {h' : List Action}
    (hd : Related κ X d d h) (hs : (consumption κ borrowed True).steps (us.map .use) d d₁)
    (hagain : (consumption κ borrowed True).again d₁ e)
    (he : Related κ (fun x => X x ∨ Defined d x) e e h') :
    Related κ (fun x => X x ∨ Defined d x) d d₁ (h' ++ [.again]) := by
  obtain ⟨exit, entryCovered, edgeCovered⟩ := hagain
  have after : Store.after κ (h' ++ [.again]) = Store.after κ h' := by simp [Store.step]
  refine ⟨fun {x} hx => ?_, fun {x} _ hdead => ?_, fun {x b c} hb hdef hl hc => ?_,
    fun {x c} hc hlive hlin => ?_⟩
  · have hX : X x ∨ Defined d x := hx.elim id .inr
    obtain ⟨b, -, hb, -⟩ := hd.settled hX
    obtain ⟨b₁, hb₁, hcls₁⟩ := class_of_uses hs hb
    obtain ⟨bx, hbx⟩ := Option.isSome_iff_exists.mp
      (entryCovered.present (Option.isSome_of_eq_some hb₁))
    obtain ⟨be, c, hbe, hc, hle⟩ := he.settled (.inl hX)
    refine ⟨b, c, hb, by rw [after, hc], ?_⟩
    rwa [← hcls₁, ← entryCovered.sameClass trivial hb₁ hbx, edgeCovered.sameClass trivial hbe hbx]
  · unfold Dead at hdead
    rw [after] at hdead
    exact ⟨h', [], rfl, hdead, by simp⟩
  · rw [after] at hc
    have held := entryCovered.held trivial hb hdef hl
    obtain ⟨be, hbe, hde⟩ := edgeCovered.defined held
    obtain ⟨bx, hbx, -⟩ := held
    refine he.live hbe hde ?_ hc
    rw [← edgeCovered.sameClass trivial hbe hbx, entryCovered.sameClass trivial hb hbx, hl]
  · rw [after] at hc
    obtain ⟨be, hbe, hde, hcls⟩ := he.linear hc hlive hlin
    exact entryCovered.defined (edgeCovered.held trivial hbe hde hcls)

theorem uses {us : List Use} (hr : Related κ X F G h)
    (hs : (consumption κ borrowed agree).steps (us.map .use) F F')
    (hG : ∀ {x}, Defined G x → Defined F' x) : Related κ X F' G (h ++ us.map .use) := by
  induction us generalizing F h with
  | nil =>
    cases hs
    simpa using hr
  | cons u us ih =>
    obtain ⟨F₁, hu, hs⟩ := hs
    have hG₁ : Defined G u.name → Defined F₁ u.name := fun hx => defined_of_uses hs (hG hx)
    simpa using ih (hr.use hu (fun _ => rfl) (fun _ _ => rfl) hG₁) hs

theorem atUse {us₁ us₂ : List Use} {u : Use} (hr : Related κ X F G h)
    (hs : (consumption κ borrowed agree).steps ((us₁ ++ u :: us₂).map .use) F G) :
    ∃ F₁ F₂, (consumption κ borrowed agree).steps (us₁.map .use) F F₁ ∧ UseStep u F₁ F₂ ∧
      (consumption κ borrowed agree).steps (us₂.map .use) F₂ G ∧
      Related κ X F₁ G (h ++ us₁.map .use) := by
  rw [List.map_append, FlowAnalysis.steps_append] at hs
  obtain ⟨F₁, hs₁, hs₂⟩ := hs
  have hr₁ := hr.uses hs₁ (defined_of_uses hs₂)
  obtain ⟨F₂, hu, hs₂⟩ := hs₂
  exact ⟨F₁, F₂, hs₁, hu, hs₂, hr₁⟩

theorem retest {us : List Use} (hr : Related κ X F G h)
    (hs : (consumption κ borrowed agree).steps (us.map .use) F G)
    (hus : keeps → GivesNothingAway (us.map .use)) :
    Fine (Acceptable κ borrowed keeps) h (us.map .use) ∧ Related κ X G G (h ++ us.map .use) := by
  refine ⟨fun p₁ a p₂ hp => ?_, hr.uses hs id⟩
  obtain ⟨us₁, us₂, rfl, rfl, hu⟩ := List.map_eq_append_iff.mp hp
  obtain ⟨u, us₂, rfl, rfl, rfl⟩ := List.map_eq_cons_iff.mp hu
  obtain ⟨F₁, F₂, hs₁, ⟨b, hb, hd, -⟩, -, hr₁⟩ := hr.atUse hs
  obtain ⟨b', c, hb', hc, hle⟩ := hr₁.settled (.inr ⟨b, hb, hd⟩)
  refine ⟨c, hc, fun hl _ => hr₁.spent ⟨b, hb, hd⟩ ⟨c, hc, hl⟩, fun hk => ?_⟩
  -- If nothing is given away, the bindings stay the same through the test.
  have hkept : GivesNothingAway (us₁.map .use) := fun v hv =>
    hus hk v (by rw [List.map_append]; exact List.mem_append_left _ hv)
  obtain rfl := eq_of_uses hkept hs₁
  obtain rfl := eq_of_uses (hus hk) hs
  obtain ⟨c', hc', hdead⟩ := hr₁.cell ⟨b, hb, hd⟩
  cases hc.symm.trans hc'
  exact Classical.or_iff_not_imp_left.mpr fun hl => (hdead hl).1

end Related

/-- **The bindings that the checker follows simulate the cells of every execution**, if joined
    paths agree on classes. -/
def simulation (κ : Ty → OwnershipClass) (borrowed : String → Prop) (keeps : Prop) :
    Simulation (consumption κ borrowed True) (String → Prop) where
  holds X F h := Related κ X F F h
  ok := Acceptable κ borrowed keeps
  tests := IsTest keeps
  inside X F x := X x ∨ Defined F x
  step hs hr := hr.step hs
  join hc hr := hr.join hc
  goInside hr := ⟨fun hx => hr.settled (hx.elim id .inr), hr.spent, hr.live, hr.accounted⟩
  goOutside hr := ⟨fun hx => hr.settled (hx.imp_left .inl), hr.spent, hr.live, hr.accounted⟩
  again hd hs ht hagain he := by
    obtain ⟨⟨us, rfl⟩, hus⟩ := ht
    obtain ⟨fine, hr⟩ := (hd.afterEdge hs hagain he).retest hs hus
    exact ⟨Fine.append (p := [.again]) (.singleton trivial) fine, by simpa using hr⟩

/-! ## Accepted functions -/

/-- What the marks of the parameters mean: only borrowed parameters are marked, and all those
    that may not be copied. -/
structure MarksBorrowed (κ : Ty → OwnershipClass) (ps : List Param) (marked : String → Prop) :
    Prop where
  borrowed {x : String} : marked x → ∃ p, lastParam ps x = some p ∧ p.ownership = .borrowed
  lent {x : String} {p : Param} : lastParam ps x = some p → p.ownership = .borrowed →
    κ p.type ≠ .copyable → marked x

theorem MarksBorrowed.linear {ps : List Param} {marked : String → Prop} {p : Param}
    (hm : MarksBorrowed κ ps marked) (hp : lastParam ps x = some p) (ho : p.ownership = .borrowed)
    (hl : κ p.type = .linear) : marked x :=
  hm.lent hp ho (by simp [hl])

theorem start_of_checkFunction {f : Typed.Function} {memo final : ClassMemo}
    {ws : List Diagnostic} (h : checkFunction f memo = .ok ws final)
    (hj : Agreeing (joinsFunction f memo)) :
    ∃ F marked, MarksBorrowed final.classOf f.params marked ∧
      (consumption final.classOf marked True).Admits (.ofFunction f) F (fun _ _ => True) ∧
      Related final.classOf (fun _ => False) F F (bindings f.params) := by
  obtain ⟨F, look, admits⟩ := admits_of_checkFunction h fun _ : True => hj
  have after : ∀ x, Store.after final.classOf (bindings f.params) x =
      (lastParam f.params x).map fun p => ⟨p.type, true⟩ := by
    intro x
    have := @Store.after_bindings final.classOf [] x f.params
    rwa [List.nil_append, show Store.after final.classOf [] x = none from rfl,
      Option.or_none] at this
  have param : ∀ {x b}, F.get? x = some b →
      ∃ p, lastParam f.params x = some p ∧ IsParam final p b := by
    intro x b hb
    cases hp : lastParam f.params x with
    | none => cases hb.symm.trans ((look x).1 hp)
    | some p =>
      obtain ⟨b', hb', hparam⟩ := (look x).2 p hp
      cases hb.symm.trans hb'
      exact ⟨p, rfl, hparam⟩
  refine ⟨F, marks F, ⟨fun {x} hx => ?_, fun {x p} hp ho hl => ?_⟩, admits,
    ⟨fun {x} hx => ?_, fun {x} _ hdead => ?_, fun {x b c} _ _ _ hc => ?_, fun {x c} hc _ _ => ?_⟩⟩
  · obtain ⟨b, hb, hmark⟩ := hx
    obtain ⟨p, hp, -, hparam⟩ := param hb
    rw [hparam] at hmark
    exact ⟨p, hp, by simpa using (Bool.and_eq_true_iff.mp hmark).1⟩
  · obtain ⟨b, hb, hle, hparam⟩ := (look x).2 p hp
    have hb' : b.cls ≠ .copyable := fun h => hl (OwnershipClass.le_copyable_iff.mp (h ▸ hle))
    refine ⟨b, hb, ?_⟩
    rw [hparam]
    simp [ho, hb']
  · obtain ⟨b, hb, -⟩ := hx.resolve_left id
    obtain ⟨p, hp, hle, -⟩ := param hb
    exact ⟨b, ⟨p.type, true⟩, hb, by rw [after, hp]; rfl, hle⟩
  · obtain ⟨c, hc, hd⟩ := hdead
    rw [after] at hc
    obtain ⟨p, -, rfl⟩ := Option.map_eq_some_iff.mp hc
    exact absurd rfl hd
  · rw [after] at hc
    obtain ⟨p, -, rfl⟩ := Option.map_eq_some_iff.mp hc
    rfl
  · rw [after] at hc
    obtain ⟨p, hp, rfl⟩ := Option.map_eq_some_iff.mp hc
    obtain ⟨b, hb, -, hparam⟩ := (look x).2 p hp
    exact ⟨b, hb, by rw [hparam]⟩

end

end QuantumStatics.Consumption
