/-
  Bindings of less restrictive classes.

  If the types of a program get less restrictive, its bindings go through the same states, with one
  exception: what can be copied is not consumed.  `Narrowing` holds what becomes of the classes and
  of the parameters that must be given back, and `Narrowing.Beside E F F'` says that the bindings
  `F'` are what the bindings `F` become, where `E` holds the types of the names that are bound.
-/
import Mathlib.Data.Bool.Basic
import Mathlib.Data.List.Forall2
import QuantumStatics.Proofs.Consumption.Traced
import QuantumStatics.Proofs.Elaboration.TypeFlow

namespace QuantumStatics.Consumption

open Elaboration (LocalTypes)

/-- What becomes of the classes of types: values of a type have the first class, which becomes the
    second one. -/
structure ClassChange where
  classes : Ty → OwnershipClass → OwnershipClass → Prop
  le {a : Ty} {c c' : OwnershipClass} : classes a c c' → c' ≤ c
  unique {a : Ty} {c c' d d' : OwnershipClass} : classes a c c' → classes a d d' → c = d ∧ c' = d'
  equal {a b : Ty} {c c' : OwnershipClass} : a.equal b → classes a c c' → classes b c c'

/-- What becomes of the classes of types and of the parameters that must be given back. -/
structure Narrowing extends ClassChange where
  /-- The parameters that must be given back, before and after. -/
  borrowed : String → Prop
  borrowed' : String → Prop
  kept {x : String} : borrowed' x → borrowed x

/-! ## States -/

/-- What becomes of a state.  What can be copied need not have been consumed. -/
structure StateNarrows (c c' : OwnershipClass) (s s' : BindingState) : Prop where
  state : s' = s ∨ s = .consumed ∧ c' = .copyable
  partly : s = .maybeDefined → c ≠ .linear

/-- The state of a name behind a join, if the paths can be joined. -/
def joinStates (linear : Bool) (l r : BindingState) : Option BindingState :=
  if l = r then some l
  else if linear then if l = .defined ∨ r = .defined then none else some .consumed
  else if l = .consumed ∨ r = .consumed then some .consumed
  else some .maybeDefined

theorem joinStates_narrows {c c' : OwnershipClass} (hc : c' ≤ c) {l l' r r' s : BindingState}
    (hl : StateNarrows c c' l l') (hr : StateNarrows c c' r r')
    (h : joinStates (c = .linear) l r = some s) :
    ∃ s', joinStates (c' = .linear) l' r' = some s' ∧ StateNarrows c c' s s' := by
  obtain ⟨hl, hlp⟩ := hl
  obtain ⟨hr, hrp⟩ := hr
  have hlin : c' = .linear → c = .linear := fun h => OwnershipClass.linear_le_iff.mp (h ▸ hc)
  suffices ∃ s', joinStates (c' = .linear) l' r' = some s' ∧
      (s' = s ∨ s = .consumed ∧ c' = .copyable) ∧ (s = .maybeDefined → c ≠ .linear) by
    obtain ⟨s', hs', state, partly⟩ := this
    exact ⟨s', hs', state, partly⟩
  cases l <;> cases r <;> grind [joinStates]

theorem Binding.cls_of_holdsLinear {b : Binding} (h : b.holdsLinear) : b.cls = .linear := by
  simp only [holdsLinear, Bool.and_eq_true, decide_eq_true_eq] at h
  exact h.2

/-- `m` joins two bindings and has the state `s`. -/
def Binding.JoinedTo (l r : Binding) (s : BindingState) (m : Binding) : Prop :=
  m.state = s ∧ m.cls = l.cls ∧
    (m.borrowedParam = l.borrowedParam ∨ m.borrowedParam = r.borrowedParam)

theorem Binding.merge_of_sameClass (location : Location) (x : String) {l r : Binding}
    (h : r.cls = l.cls) :
    match joinStates (l.cls = .linear) l.state r.state with
    | some s => ∃ m, merge location x l r = .ok m ∧ l.JoinedTo r s m
    | none => ∃ f, merge location x l r = .error f := by
  unfold merge joinStates
  by_cases hs : l.state = r.state
  · simp only [hs, if_true]
    exact ⟨l, rfl, hs, rfl, .inl rfl⟩
  · have merged : ∀ s,
        l.JoinedTo r s { (if l.state = .undefined then r else l) with state := s } := by
      intro s
      split
      · exact ⟨rfl, h, .inr rfl⟩
      · exact ⟨rfl, rfl, .inl rfl⟩
    -- One of two different states is not undefined.
    have holds : (l.holdsLinear || r.holdsLinear) = decide (l.cls = .linear) := by
      unfold holdsLinear
      rw [h]
      by_cases hl : l.state = .undefined
      · have hr : r.state ≠ .undefined := fun hr => hs (hl.trans hr.symm)
        simp [hr]
      · by_cases hc : l.cls = .linear <;> simp [hl, hc]
    rw [if_neg hs, if_neg hs]
    dsimp only
    rw [holds]
    by_cases hc : l.cls = .linear
    · simp only [hc, decide_true, if_true]
      by_cases hd : l.state = .defined ∨ r.state = .defined
      · simp only [if_pos hd]
        split
        · exact ⟨_, rfl⟩
        · exact ⟨_, rfl⟩
      · simp only [if_neg hd]
        exact ⟨_, rfl, merged _⟩
    · simp only [hc, decide_false, Bool.false_eq_true, if_false]
      by_cases he : l.state = .consumed ∨ r.state = .consumed
      · simp only [if_pos he]
        exact ⟨_, rfl, merged _⟩
      · simp only [if_neg he]
        exact ⟨_, rfl, merged _⟩

namespace Narrowing

variable (N : Narrowing)

/-! ## Bindings -/

/-- What becomes of a binding of a name that holds values of some type. -/
structure Narrows (x : String) (a : Ty) (b b' : Binding) : Prop where
  classes : N.classes a b.cls b'.cls
  state : StateNarrows b.cls b'.cls b.state b'.state
  mark : b.borrowedParam = true ↔ N.borrowed x
  mark' : b'.borrowedParam = true ↔ N.borrowed' x

variable {N} {x : String} {a a₁ : Ty} {b b' l l' r r' m : Binding} {location : Location}

namespace Narrows

theorem equal (h : N.Narrows x a b b') (ha : a.equal a₁) : N.Narrows x a₁ b b' :=
  { h with classes := N.equal ha h.classes }

theorem undefinedLike (h : N.Narrows x a b b') :
    N.Narrows x a b.undefinedLike b'.undefinedLike :=
  ⟨h.classes, ⟨.inl rfl, nofun⟩, h.mark, h.mark'⟩

theorem defined (h : N.Narrows x a b b') (hb : b.state = .defined) : b'.state = .defined := by
  rcases h.state.state with hs | ⟨hs, -⟩
  · rw [hs, hb]
  · rw [hb] at hs
    cases hs

theorem linear (h : N.Narrows x a b b') (hb : b'.cls = .linear) :
    b.cls = .linear ∧ b'.state = b.state := by
  refine ⟨OwnershipClass.linear_le_iff.mp (hb ▸ N.le h.classes), ?_⟩
  rcases h.state.state with hs | ⟨-, hc⟩
  · exact hs
  · rw [hb] at hc
    cases hc

theorem holdsLinear (h : N.Narrows x a b b') (hb : b'.holdsLinear) : b.holdsLinear := by
  simp only [Binding.holdsLinear, Bool.and_eq_true, decide_eq_true_eq] at hb ⊢
  obtain ⟨hc, hs⟩ := h.linear hb.2
  exact ⟨hs ▸ hb.1, hc⟩

theorem merge (hl : N.Narrows x a l l') (hr : N.Narrows x a r r')
    (h : Binding.merge location x l r = .ok m) :
    ∃ m', Binding.merge location x l' r' = .ok m' ∧ N.Narrows x a m m' := by
  obtain ⟨hcls, hcls'⟩ := N.unique hr.classes hl.classes
  have joined := Binding.merge_of_sameClass location x hcls
  have joined' := Binding.merge_of_sameClass location x hcls'
  cases hs : joinStates (l.cls = .linear) l.state r.state with
  | none =>
    rw [hs, h] at joined
    obtain ⟨f, hf⟩ := joined
    cases hf
  | some s =>
    rw [hs, h] at joined
    obtain ⟨_, ⟨⟩, hms, hmc, hmark⟩ := joined
    obtain ⟨s', hs', narrows⟩ := joinStates_narrows (N.le hl.classes) hl.state
      (hcls ▸ hcls' ▸ hr.state) hs
    rw [hs'] at joined'
    obtain ⟨m', hm', hms', hmc', hmark'⟩ := joined'
    refine ⟨m', hm', ?_, ?_, ?_, ?_⟩
    · rw [hmc, hmc']
      exact hl.classes
    · rw [hmc, hmc', hms, hms']
      exact narrows
    · rcases hmark with hmark | hmark <;> rw [hmark]
      · exact hl.mark
      · exact hr.mark
    · rcases hmark' with hmark' | hmark' <;> rw [hmark']
      · exact hl.mark'
      · exact hr.mark'

end Narrows

/-! ## All bindings -/

variable (N) in
/-- What becomes of a name, bound or not, that holds values of some type if it is bound. -/
inductive NarrowsAt (x : String) : Option Ty → Option Binding → Option Binding → Prop
  | bound {a : Ty} {b b' : Binding} : N.Narrows x a b b' → NarrowsAt x (some a) (some b) (some b')
  | unbound {o : Option Ty} : ¬ N.borrowed x → NarrowsAt x o none none

namespace NarrowsAt

variable {o : Option Ty} {p p' : Option Binding}

theorem mark (h : N.NarrowsAt x o p p') : (p.getD {}).borrowedParam = true ↔ N.borrowed x := by
  cases h with
  | bound h => exact h.mark
  | unbound h => simpa using h

theorem mark' (h : N.NarrowsAt x o p p') : (p'.getD {}).borrowedParam = true ↔ N.borrowed' x := by
  cases h with
  | bound h => exact h.mark'
  | unbound h => simpa using fun h' => h (N.kept h')

theorem held (h : N.NarrowsAt x o p p') (hs : (p'.getD {}).state = .defined)
    (hc : (p'.getD {}).cls = .linear) :
    (p.getD {}).state = .defined ∧ (p.getD {}).cls = .linear := by
  cases h with
  | bound h =>
    obtain ⟨hc, hs'⟩ := h.linear hc
    exact ⟨hs'.symm.trans hs, hc⟩
  | unbound => cases hs

end NarrowsAt

variable (N) in
/-- The bindings of the second run are narrower, name by name. -/
def Beside (E : LocalTypes) (F F' : Bindings) : Prop :=
  ∀ x, N.NarrowsAt x (E x) (F.get? x) (F'.get? x)

variable {E E' : LocalTypes} {F F' G G' H : Bindings}

namespace Beside

theorem bound (h : N.Beside E F F') (hx : F.get? x = some b) :
    ∃ a b', E x = some a ∧ F'.get? x = some b' ∧ N.Narrows x a b b' := by
  have hn := h x
  rw [hx] at hn
  generalize E x = o, F'.get? x = p at hn
  cases hn with
  | bound hn => exact ⟨_, _, rfl, rfl, hn⟩

theorem bound' (h : N.Beside E F F') (hx : F'.get? x = some b') :
    ∃ a b, E x = some a ∧ F.get? x = some b ∧ N.Narrows x a b b' := by
  have hn := h x
  rw [hx] at hn
  generalize E x = o, F.get? x = p at hn
  cases hn with
  | bound hn => exact ⟨_, _, rfl, rfl, hn⟩

theorem mono (h : N.Beside E F F') (hE : E.Joins E') : N.Beside E' F F' := by
  intro x
  have hn := h x
  generalize ho : E x = o, F.get? x = p, F'.get? x = p' at hn ⊢
  cases hn with
  | bound hn =>
    obtain ⟨a', ha', equal⟩ := hE x _ ho
    rw [ha']
    exact .bound (hn.equal equal)
  | unbound hx => exact .unbound hx

theorem insert {n : String} (h : N.Beside E F F') (hE : ∀ x, x ≠ n → E' x = E x)
    (hn : E' n = some a) (hb : N.Narrows n a b b') :
    N.Beside E' (F.insert n b) (F'.insert n b') := by
  intro x
  rw [Dict.get?_insert, Dict.get?_insert]
  by_cases hx : x = n
  · subst hx
    rw [if_pos rfl, if_pos rfl, hn]
    exact .bound hb
  · rw [if_neg hx, if_neg hx, hE x hx]
    exact h x

theorem insertLeft {n : String} (h : N.Beside E F F') (hn : E n = some a)
    (hb' : F'.get? n = some b') (hb : N.Narrows n a b b') : N.Beside E (F.insert n b) F' := by
  intro x
  rw [Dict.get?_insert]
  by_cases hx : x = n
  · subst hx
    rw [if_pos rfl, hn, hb']
    exact .bound hb
  · rw [if_neg hx]
    exact h x

theorem orUndefined (hF : N.Beside E F F') (hG : N.Beside E G G')
    (hx : (F'.get? x).isSome ∨ (G'.get? x).isSome) :
    ((F.get? x).isSome ∨ (G.get? x).isSome) ∧ ∃ a, E x = some a ∧
      N.Narrows x a (.orUndefined (F.get? x) (G.get? x)) (.orUndefined (F'.get? x) (G'.get? x)) ∧
      N.Narrows x a (.orUndefined (G.get? x) (F.get? x))
        (.orUndefined (G'.get? x) (F'.get? x)) := by
  have hf := hF x
  have hg := hG x
  generalize E x = o, F.get? x = p, F'.get? x = p', G.get? x = q, G'.get? x = q' at hf hg hx ⊢
  cases hf with
  | bound hf =>
    refine ⟨.inl rfl, _, rfl, hf, ?_⟩
    cases hg with
    | bound hg => exact hg
    | unbound => exact hf.undefinedLike
  | unbound =>
    cases hg with
    | bound hg => exact ⟨.inr rfl, _, rfl, hg.undefinedLike, hg⟩
    | unbound => simp at hx

end Beside

end Narrowing

/-! ## Joined paths -/

namespace Flow

variable {location : Location} {l r m : Flow}

theorem exists_mergeEach {ps : List (String × Option Binding × Option Binding)}
    (h : ∀ x p q, (x, p, q) ∈ ps →
      ∃ b, Binding.merge location x (.orUndefined p q) (.orUndefined q p) = .ok b) :
    ∃ es, mergeEach location ps = .ok es := by
  induction ps with
  | nil => exact ⟨[], rfl⟩
  | cons p ps ih =>
    obtain ⟨x, p, q⟩ := p
    obtain ⟨b, hb⟩ := h x p q (List.mem_cons_self ..)
    obtain ⟨es, hes⟩ := ih fun x p q hm => h x p q (List.mem_cons_of_mem _ hm)
    exact ⟨(x, b) :: es, except_bind_eq_ok.mpr ⟨b, hb, except_bind_eq_ok.mpr ⟨es, hes, rfl⟩⟩⟩

theorem exists_merge (hl : l.reachable) (hr : r.reachable)
    (h : ∀ x, (l.bindings.get? x).isSome ∨ (r.bindings.get? x).isSome → ∃ b,
      Binding.merge location x (.orUndefined (l.bindings.get? x) (r.bindings.get? x))
        (.orUndefined (r.bindings.get? x) (l.bindings.get? x)) = .ok b) :
    ∃ m, l.merge location r = .ok m := by
  obtain ⟨es, hes⟩ : ∃ es, mergeEach location (l.bindings.align r.bindings) = .ok es := by
    refine exists_mergeEach fun x p q hm => ?_
    obtain ⟨rfl, rfl, hx⟩ := Dict.mem_align.mp hm
    exact h x hx
  rw [merge_of_reachable hl hr, hes]
  exact ⟨_, rfl⟩

end Flow

namespace Narrowing

variable {N : Narrowing} {x : String} {a : Ty} {b b' : Binding} {location : Location}
  {E E' : LocalTypes} {l l' r r' m : Flow}

variable (N) in
/-- What becomes of a point that can be reached and where names have the types `E`. -/
structure FlowBeside (E : LocalTypes) (f f' : Flow) : Prop where
  reachable : f.reachable = true
  reachable' : f'.reachable = true
  bindings : N.Beside E f.bindings f'.bindings

theorem FlowBeside.mono (h : N.FlowBeside E l l') (hE : E.Joins E') : N.FlowBeside E' l l' :=
  { h with bindings := h.bindings.mono hE }

theorem FlowBeside.merge (hl : N.FlowBeside E l l') (hr : N.FlowBeside E r r')
    (h : l.merge location r = .ok m) :
    ∃ m', l'.merge location r' = .ok m' ∧ N.FlowBeside E m m' := by
  obtain ⟨reachable, merged⟩ := Flow.mergedAt_of_merge h hl.reachable hr.reachable
  -- Where one of the new paths binds a name, one of the old ones did.
  have each : ∀ x, (l'.bindings.get? x).isSome ∨ (r'.bindings.get? x).isSome →
      ∃ a b b', E x = some a ∧ m.bindings.get? x = some b ∧ N.Narrows x a b b' ∧
        Binding.merge location x
          (.orUndefined (l'.bindings.get? x) (r'.bindings.get? x))
          (.orUndefined (r'.bindings.get? x) (l'.bindings.get? x)) = .ok b' := by
    intro x hx
    obtain ⟨hx, a, ha, hlr, hrl⟩ := hl.bindings.orUndefined hr.bindings hx
    obtain ⟨b, hb, hm⟩ := (merged x).found hx
    obtain ⟨b', hb', narrows⟩ := hlr.merge hrl hm
    exact ⟨a, b, b', ha, hb, narrows, hb'⟩
  obtain ⟨m', hm'⟩ : ∃ m', l'.merge location r' = .ok m' := by
    refine Flow.exists_merge hl.reachable' hr.reachable' fun x hx => ?_
    obtain ⟨a, b, b', -, -, -, h⟩ := each x hx
    exact ⟨b', h⟩
  obtain ⟨reachable', merged'⟩ := Flow.mergedAt_of_merge hm' hl.reachable' hr.reachable'
  refine ⟨m', hm', reachable, reachable', fun x => ?_⟩
  by_cases hx : (l'.bindings.get? x).isSome ∨ (r'.bindings.get? x).isSome
  · obtain ⟨a, b, b', ha, hb, narrows, h⟩ := each x hx
    obtain ⟨b₁, hb₁, h₁⟩ := (merged' x).found hx
    cases h.symm.trans h₁
    rw [ha, hb, hb₁]
    exact .bound narrows
  · simp only [not_or, Option.not_isSome_iff_eq_none] at hx
    have hlx := hl.bindings x
    have hrx := hr.bindings x
    have missing := (merged x).missing
    rw [(merged' x).missing hx.1 hx.2]
    rw [hx.1] at hlx
    rw [hx.2] at hrx
    generalize E x = o, l.bindings.get? x = p, r.bindings.get? x = q at hlx hrx missing
    cases hlx with
    | unbound hb =>
      cases hrx with
      | unbound =>
        rw [missing rfl rfl]
        exact .unbound hb

theorem FlowBeside.mergeAll {rs rs' : List Flow} (hl : N.FlowBeside E l l')
    (hrs : List.Forall₂ (N.FlowBeside E) rs rs') (h : l.mergeAll location rs = .ok m) :
    ∃ m', l'.mergeAll location rs' = .ok m' ∧ N.FlowBeside E m m' := by
  induction hrs generalizing l l' with
  | nil =>
    cases h
    exact ⟨l', rfl, hl⟩
  | cons hr _ ih =>
    obtain ⟨l₁, hl₁, h⟩ := except_bind_eq_ok.mp h
    obtain ⟨l₁', hl₁', beside⟩ := hl.merge hr hl₁
    obtain ⟨m', hm', hm⟩ := ih beside h
    exact ⟨m', except_bind_eq_ok.mpr ⟨l₁', hl₁', hm'⟩, hm⟩

end Narrowing

/-! ## Checks -/

theorem rejectIf_eq_ok {p : Prop} [Decidable p] {location : Location} {cause : Cause} :
    (if p then Failure.reject location cause else pure () : Except Failure Unit) = .ok () ↔
      ¬ p := by
  split
  · exact ⟨fun h => absurd h failure_ne_ok, fun h => absurd ‹p› h⟩
  · exact ⟨fun _ => ‹¬ p›, fun _ => rfl⟩

namespace LoopFrame

variable {frame : LoopFrame} {flow : Flow} {location : Location} {x : String}
  {entry edge : Option Binding}

theorem checkLoopVar_eq_ok : frame.checkLoopVar flow location = .ok () ↔
    ¬ frame.loopVar.isEmpty → ∀ b, flow.bindings.get? frame.loopVar = some b →
      ¬ (b.cls = .linear ∧ b.state = .defined) := by
  unfold checkLoopVar
  split
  · rename_i hv
    exact ⟨fun _ h => absurd hv h, fun _ => rfl⟩
  · rename_i hv
    cases hb : flow.bindings.get? frame.loopVar with
    | none => simp [pure, Except.pure]
    | some b =>
      simp only [rejectIf_eq_ok]
      exact ⟨fun h _ _ hb => Option.some.inj hb ▸ h, fun h => h hv b rfl⟩

theorem checkBalance_eq_ok : frame.checkBalance location (x, entry, edge) = .ok () ↔
    (x ≠ frame.loopVar → (Binding.orUndefined entry edge).holdsLinear ∨ (edge.getD {}).holdsLinear →
      ((Binding.orUndefined entry edge).state = .defined ↔ (edge.getD {}).state = .defined)) := by
  unfold checkBalance
  dsimp only
  by_cases hx : x = frame.loopVar
  · simp [hx, pure, Except.pure]
  · by_cases hl : (Binding.orUndefined entry edge).holdsLinear ∨ (edge.getD {}).holdsLinear
    · rw [if_pos ⟨hx, by simpa using hl⟩]
      by_cases hd : (Binding.orUndefined entry edge).state = .defined <;>
        by_cases he : (edge.getD {}).state = .defined <;>
        simp [hx, hl, hd, he, Failure.reject, pure, Except.pure]
    · rw [if_neg (by simpa [hx] using hl)]
      simp [hl, pure, Except.pure]

theorem checkBackEdge_eq_ok : frame.checkBackEdge flow location = .ok () ↔
    frame.checkLoopVar flow location = .ok () ∧
    ∀ x, (frame.entry.bindings.get? x).isSome ∨ (flow.bindings.get? x).isSome →
      frame.checkBalance location
        (x, frame.entry.bindings.get? x, flow.bindings.get? x) = .ok () := by
  unfold checkBackEdge
  rw [except_bind_eq_ok]
  constructor
  · rintro ⟨_, hv, h⟩
    exact ⟨hv, fun x hx => forM_eq_ok.mp h _ (Dict.mem_align.mpr ⟨rfl, rfl, hx⟩)⟩
  · rintro ⟨hv, h⟩
    refine ⟨(), hv, forM_eq_ok.mpr ?_⟩
    rintro ⟨x, p, q⟩ hm
    obtain ⟨rfl, rfl, hx⟩ := Dict.mem_align.mp hm
    exact h x hx

end LoopFrame

/-- A function may be left if every parameter that must be given back is defined and every linear
    binding that is defined is such a parameter. -/
theorem Flow.checkExit_eq_ok {flow : Flow} {location : Location} :
    flow.checkExit location = .ok () ↔ ∀ x b, flow.bindings.get? x = some b →
      (b.borrowedParam = true → b.state = .defined) ∧
      (b.cls = .linear → b.state = .defined → b.borrowedParam = true) := by
  have each : ∀ e : String × Binding, (if e.2.borrowedParam then
        unless e.2.state = .defined do Failure.reject location (.notRestored e.1)
      else if e.2.cls = .linear ∧ e.2.state = .defined then
        Failure.reject location (.neverConsumed e.1)
      else pure () : Except Failure Unit) = .ok () ↔
      (e.2.borrowedParam = true → e.2.state = .defined) ∧
      (e.2.cls = .linear → e.2.state = .defined → e.2.borrowedParam = true) := by
    rintro ⟨x, b⟩
    by_cases hb : b.borrowedParam = true
    · by_cases hs : b.state = .defined <;> simp [hb, hs, Failure.reject, pure, Except.pure]
    · simp [hb, rejectIf_eq_ok]
  unfold checkExit
  rw [forM_eq_ok]
  constructor
  · intro h x b hb
    exact (each (x, b)).mp (h (x, b) ((Dict.lookup_eq_some_iff flow.bindings.ordered).mp hb))
  · rintro h ⟨x, b⟩ he
    exact (each (x, b)).mpr (h x b ((Dict.lookup_eq_some_iff flow.bindings.ordered).mpr he))

namespace Narrowing

variable {N : Narrowing} {x : String} {a : Ty} {b b' : Binding} {location : Location}
  {E E' : LocalTypes} {l l' m flow flow' : Flow} {frame frame' : LoopFrame}

/-! ## Loops -/

variable (N) in
/-- The loops of two runs stand side by side. -/
structure FrameBeside (E : LocalTypes) (frame frame' : LoopFrame) : Prop where
  entry : N.FlowBeside E frame.entry frame'.entry
  loopVar : frame'.loopVar = frame.loopVar
  linearElements : frame'.linearElements = true → frame.linearElements = true
  breaks : List.Forall₂ (N.FlowBeside E) frame.breaks frame'.breaks
  continues : List.Forall₂ (N.FlowBeside E) frame.continues frame'.continues

theorem checkLoopVar (hv : frame'.loopVar = frame.loopVar) (hf : N.FlowBeside E flow flow')
    (h : frame.checkLoopVar flow location = .ok ()) :
    frame'.checkLoopVar flow' location = .ok () := by
  rw [LoopFrame.checkLoopVar_eq_ok] at h ⊢
  rw [hv]
  rintro hne b' hb' ⟨hc', hs'⟩
  obtain ⟨a, b, -, hb, narrows⟩ := hf.bindings.bound' hb'
  obtain ⟨hc, hs⟩ := narrows.linear hc'
  exact h hne b hb ⟨hc, hs ▸ hs'⟩

namespace FrameBeside

theorem checkBackEdge (hf : N.FrameBeside E frame frame') (he : N.FlowBeside E flow flow')
    (h : frame.checkBackEdge flow location = .ok ()) :
    frame'.checkBackEdge flow' location = .ok () := by
  rw [LoopFrame.checkBackEdge_eq_ok] at h ⊢
  obtain ⟨hv, balanced⟩ := h
  refine ⟨checkLoopVar hf.loopVar he hv, fun x hx => ?_⟩
  obtain ⟨hx, a, ha, atEntry, -⟩ := hf.entry.bindings.orUndefined he.bindings hx
  have balanced := LoopFrame.checkBalance_eq_ok.mp (balanced x hx)
  have atEdge := he.bindings x
  rw [LoopFrame.checkBalance_eq_ok, hf.loopVar]
  intro hne holds
  rw [ha] at atEdge
  generalize flow.bindings.get? x = q, flow'.bindings.get? x = q' at *
  cases atEdge with
  | bound atEdge =>
    obtain ⟨-, hc'⟩ := N.unique atEntry.classes atEdge.classes
    have linear := holds.elim (fun h => hc'.symm.trans (Binding.cls_of_holdsLinear h))
      Binding.cls_of_holdsLinear
    rw [(atEntry.linear (hc'.trans linear)).2]
    simp only [Option.getD_some, (atEdge.linear linear).2]
    exact balanced hne (holds.imp atEntry.holdsLinear atEdge.holdsLinear)
  | unbound =>
    have atEntry' := holds.resolve_right (by simp [Binding.holdsLinear])
    rw [(atEntry.linear (Binding.cls_of_holdsLinear atEntry')).2]
    exact balanced hne (.inl (atEntry.holdsLinear atEntry'))

theorem exitAfter (hf : N.FrameBeside E frame frame') {edges edges' : List Flow}
    (hl : N.FlowBeside E l l') (he : List.Forall₂ (N.FlowBeside E) edges edges')
    (h : frame.exitAfter location l edges = .ok m) :
    ∃ m', frame'.exitAfter location l' edges' = .ok m' ∧ N.FlowBeside E m m' := by
  induction he generalizing l l' with
  | nil =>
    cases h
    exact ⟨l', rfl, hl⟩
  | cons hedge _ ih =>
    obtain ⟨_, back, h⟩ := except_bind_eq_ok.mp h
    obtain ⟨l₁, hl₁, h⟩ := except_bind_eq_ok.mp h
    obtain ⟨l₁', hl₁', beside⟩ := hl.merge hedge hl₁
    obtain ⟨m', hm', hm⟩ := ih beside h
    exact ⟨m', except_bind_eq_ok.mpr ⟨(), hf.checkBackEdge hedge back,
      except_bind_eq_ok.mpr ⟨l₁', hl₁', hm'⟩⟩, hm⟩

/-- **A loop that may go round still may**, and is left with what the bindings have become. -/
theorem exit (hf : N.FrameBeside E frame frame') (hr : flow'.reachable = flow.reachable)
    (he : flow.reachable → N.FlowBeside E flow flow') (h : frame.exit flow location = .ok m) :
    ∃ m', frame'.exit flow' location = .ok m' ∧ N.FlowBeside E m m' := by
  have edges : List.Forall₂ (N.FlowBeside E) (frame.edges flow) (frame'.edges flow') := by
    unfold LoopFrame.edges
    rw [hr]
    split
    · rename_i reachable
      exact .cons (he reachable) hf.continues
    · exact hf.continues
  obtain ⟨l, hl, h⟩ := except_bind_eq_ok.mp h
  obtain ⟨l', hl', beside⟩ := hf.exitAfter hf.entry edges hl
  obtain ⟨m', hm', hm⟩ := beside.mergeAll hf.breaks h
  exact ⟨m', except_bind_eq_ok.mpr ⟨l', hl', hm'⟩, hm⟩

end FrameBeside

/-! ## Exits -/

variable (N) in
/-- The parameters that need not be given back any more hold nothing linear. -/
def Released (E : LocalTypes) : Prop :=
  ∀ x a c c', N.borrowed x → ¬ N.borrowed' x → E x = some a → N.classes a c c' → c' ≠ .linear

theorem FlowBeside.checkExit (hf : N.FlowBeside E flow flow') (hE : N.Released E)
    (h : flow.checkExit location = .ok ()) : flow'.checkExit location = .ok () := by
  rw [Flow.checkExit_eq_ok] at h ⊢
  intro x b' hb'
  obtain ⟨a, b, ha, hb, narrows⟩ := hf.bindings.bound' hb'
  obtain ⟨given, left⟩ := h x b hb
  refine ⟨fun mark => narrows.defined (given ?_), fun hc' hs' => ?_⟩
  · exact narrows.mark.mpr (N.kept (narrows.mark'.mp mark))
  · obtain ⟨hc, hs⟩ := narrows.linear hc'
    have borrowed := narrows.mark.mp (left hc (hs ▸ hs'))
    by_cases hx : N.borrowed' x
    · exact narrows.mark'.mpr hx
    · exact absurd hc' (hE x a _ _ borrowed hx ha narrows.classes)

end Narrowing

end QuantumStatics.Consumption
