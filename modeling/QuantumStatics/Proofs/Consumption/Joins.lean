/-
  Where paths join.

  Joining two paths keeps a binding defined if and only if both paths define it, and fails
  if only one of them holds a linear value.  `Covered agree l m` says what of this is left
  to a path with the bindings `l` that goes on with the joined bindings `m`.  If the joined
  paths agree on the classes of the names they both bind, a linear binding is defined in
  `m` if and only if it is defined in `l`.
-/
import QuantumStatics.Consumption.Analysis
import QuantumStatics.Proofs.Analysis

namespace QuantumStatics.Consumption

/-- The bindings of names. -/
abbrev Bindings := Dict String Binding

/-- A name is bound and defined. -/
def Defined (F : Bindings) (x : String) : Prop := ∃ b, F.get? x = some b ∧ b.state = .defined

/-! ## Joined paths -/

/-- A path with the bindings `l` may go on with `m`. -/
structure Covered (agree : Prop) (l m : Bindings) : Prop where
  present {x : String} : (l.get? x).isSome → (m.get? x).isSome
  defined {x : String} : Defined m x → Defined l x
  sameClass {x : String} {b b' : Binding} :
    agree → l.get? x = some b → m.get? x = some b' → b'.cls = b.cls
  held {x : String} {b : Binding} :
    agree → l.get? x = some b → b.state = .defined → b.cls = .linear → Defined m x

namespace Covered

variable {agree : Prop} {l m n : Bindings}

theorem refl (agree : Prop) (l : Bindings) : Covered agree l l where
  present h := h
  defined h := h
  sameClass _ h h' := by rw [Option.some.inj (h.symm.trans h')]
  held _ h hs _ := ⟨_, h, hs⟩

theorem trans (h : Covered agree l m) (h' : Covered agree m n) : Covered agree l n where
  present hx := h'.present (h.present hx)
  defined hx := h.defined (h'.defined hx)
  sameClass {x b b''} ha hl hn := by
    obtain ⟨b', hm⟩ := Option.isSome_iff_exists.mp (h.present (Option.isSome_of_eq_some hl))
    rw [h'.sameClass ha hm hn, h.sameClass ha hl hm]
  held ha hl hs hc := by
    obtain ⟨b', hm, hs'⟩ := h.held ha hl hs hc
    exact h'.held ha hm hs' ((h.sameClass ha hl hm).trans hc)

end Covered

/-- What joining two bindings says about the result. -/
structure Binding.Joins (l r b : Binding) : Prop where
  defined : b.state = .defined ↔ l.state = .defined ∧ r.state = .defined
  cls : b.cls = l.cls ∨ b.cls = r.cls
  borrowedParam : b.borrowedParam = l.borrowedParam ∨ b.borrowedParam = r.borrowedParam
  heldLeft : l.state = .defined → l.cls = .linear → r.state = .defined
  heldRight : r.state = .defined → r.cls = .linear → l.state = .defined

theorem Binding.joins_of_merge {location : Location} {name : String} {l r b : Binding}
    (h : Binding.merge location name l r = .ok b) : Binding.Joins l r b := by
  unfold Binding.merge at h
  by_cases hs : l.state = r.state
  · rw [if_pos hs] at h
    cases h
    exact ⟨by simp [hs], .inl rfl, .inl rfl, fun hl _ => hs ▸ hl, fun hr _ => hs ▸ hr⟩
  · rw [if_neg hs] at h
    dsimp only at h
    generalize hm : (if l.state = .undefined then r else l) = merged at h
    have hm : merged = l ∨ merged = r := by
      rw [← hm]
      split
      · exact .inr rfl
      · exact .inl rfl
    have hcls : merged.cls = l.cls ∨ merged.cls = r.cls := hm.imp (congrArg _) (congrArg _)
    have hparam : merged.borrowedParam = l.borrowedParam ∨
        merged.borrowedParam = r.borrowedParam := hm.imp (congrArg _) (congrArg _)
    have both : ¬ (l.state = .defined ∧ r.state = .defined) := fun ⟨hl, hr⟩ => hs (hl.trans hr.symm)
    split at h
    · split at h
      · split at h <;> exact absurd h failure_ne_ok
      · rename_i hd
        cases h
        exact ⟨by simp [both], hcls, hparam, fun hl => absurd (.inl hl) hd,
          fun hr => absurd (.inr hr) hd⟩
    · rename_i hlin
      have hl : l.state = .defined → l.cls ≠ .linear := fun hd hc =>
        hlin (by simp [holdsLinear, hd, hc])
      have hr : r.state = .defined → r.cls ≠ .linear := fun hd hc =>
        hlin (by simp [holdsLinear, hd, hc])
      cases h
      refine ⟨?_, hcls, hparam, fun h₁ h₂ => absurd h₂ (hl h₁), fun h₁ h₂ => absurd h₂ (hr h₁)⟩
      simp only [both, iff_false]
      split <;> nofun

namespace Flow

variable {location : Location} {x : String}

theorem lookup_mergeEach {ps : List (String × Option Binding × Option Binding)}
    {es : List (String × Binding)} (h : mergeEach location ps = .ok es)
    (hps : ps.Pairwise fun p q => p.1 < q.1) :
    (∀ a b, (x, a, b) ∈ ps → ∃ v, es.lookup x = some v ∧
      Binding.merge location x (.orUndefined a b) (.orUndefined b a) = .ok v) ∧
    ((∀ a b, (x, a, b) ∉ ps) → es.lookup x = none) := by
  induction ps generalizing es with
  | nil =>
    cases h
    simp
  | cons p ps ih =>
    obtain ⟨n, a₀, b₀⟩ := p
    obtain ⟨v, hv, h⟩ := except_bind_eq_ok.mp h
    obtain ⟨es', hes, h⟩ := except_bind_eq_ok.mp h
    cases h
    obtain ⟨hn, hps⟩ := List.pairwise_cons.mp hps
    obtain ⟨found, missing⟩ := ih hes hps
    rw [lookup_entry]
    refine ⟨fun a b hm => ?_, fun hm => ?_⟩
    · rcases List.mem_cons.mp hm with h | hm
      · cases h
        exact ⟨v, if_pos rfl, hv⟩
      · have hne : x ≠ n := fun hx => Std.lt_irrefl (hx ▸ hn _ hm)
        rw [if_neg hne]
        exact found a b hm
    · have hne : x ≠ n := fun hx => hm a₀ b₀ (hx ▸ List.mem_cons_self ..)
      rw [if_neg hne]
      exact missing fun a b h => hm a b (List.mem_cons_of_mem _ h)

end Flow

/-- `m` joins the bindings of two paths. -/
structure Joins (l r m : Bindings) : Prop where
  found {x : String} : (l.get? x).isSome ∨ (r.get? x).isSome → ∃ b, m.get? x = some b ∧
    Binding.Joins (.orUndefined (l.get? x) (r.get? x)) (.orUndefined (r.get? x) (l.get? x)) b
  missing {x : String} : l.get? x = none → r.get? x = none → m.get? x = none

/-- Two paths agree on the classes of the names that they both bind. -/
def sameClasses (l r : Bindings) : Bool :=
  (l.align r).all fun p =>
    match p.2 with
    | (some a, some b) => a.cls = b.cls
    | _ => true

/-- Exactly the borrowed parameters are marked as such, and they are always bound. -/
structure Marked (borrowed : String → Prop) (F : Bindings) : Prop where
  mark {x : String} {b : Binding} : F.get? x = some b → (b.borrowedParam = true ↔ borrowed x)
  present {x : String} : borrowed x → (F.get? x).isSome

theorem sameClasses_iff {l r : Bindings} : sameClasses l r ↔
    ∀ {x a b}, l.get? x = some a → r.get? x = some b → a.cls = b.cls := by
  refine List.all_eq_true.trans ⟨fun h x a b ha hb => ?_, fun h p hp => ?_⟩
  · simpa using h (x, some a, some b) (Dict.mem_align.mpr ⟨ha.symm, hb.symm, .inl rfl⟩)
  · obtain ⟨x, a, b⟩ := p
    obtain ⟨ha, hb, -⟩ := Dict.mem_align.mp hp
    match a, b with
    | some a, some b => simpa using h ha.symm hb.symm
    | none, _ | some _, none => rfl

theorem Binding.Joins.symm {l r b : Binding} (h : Binding.Joins l r b) : Binding.Joins r l b :=
  ⟨h.defined.trans and_comm, h.cls.symm, h.borrowedParam.symm, h.heldRight, h.heldLeft⟩

namespace Joins

variable {l r m : Bindings} {agree : Prop} {borrowed : String → Prop}

theorem symm (h : Joins l r m) : Joins r l m where
  found hx := by
    obtain ⟨b, hb, hj⟩ := h.found hx.symm
    exact ⟨b, hb, hj.symm⟩
  missing hr hl := h.missing hl hr

theorem covered (h : Joins l r m) (ha : agree → sameClasses l r) : Covered agree l m where
  present hx := by
    obtain ⟨b, hb, -⟩ := h.found (.inl hx)
    exact Option.isSome_of_eq_some hb
  defined {x} hx := by
    obtain ⟨b, hb, hs⟩ := hx
    cases hl : l.get? x with
    | some bl =>
      obtain ⟨b', hb', hj⟩ := h.found (.inl (Option.isSome_of_eq_some hl))
      cases hb.symm.trans hb'
      rw [hl] at hj
      exact ⟨bl, hl, (hj.defined.mp hs).1⟩
    | none =>
      cases hr : r.get? x with
      | none => cases hb.symm.trans (h.missing hl hr)
      | some br =>
        obtain ⟨b', hb', hj⟩ := h.found (.inr (Option.isSome_of_eq_some hr))
        cases hb.symm.trans hb'
        rw [hl] at hj
        cases (hj.defined.mp hs).1
  sameClass {x b b'} hagree hl hm := by
    obtain ⟨b'', hb'', hj⟩ := h.found (.inl (Option.isSome_of_eq_some hl))
    cases hm.symm.trans hb''
    rw [hl] at hj
    rcases hj.cls with hc | hc
    · exact hc
    · rw [hc]
      cases hr : r.get? x with
      | none => rfl
      | some br => exact (sameClasses_iff.mp (ha hagree) hl hr).symm
  held {x b} _ hl hs hc := by
    obtain ⟨b', hb', hj⟩ := h.found (.inl (Option.isSome_of_eq_some hl))
    rw [hl] at hj
    exact ⟨b', hb', hj.defined.mpr ⟨hs, hj.heldLeft hs hc⟩⟩

theorem marked (h : Joins l r m) (hl : Marked borrowed l) (hr : Marked borrowed r) :
    Marked borrowed m where
  mark {x b} hb := by
    -- Both sides carry the mark of the name, the side that does not bind it from the other.
    have side : ∀ {a a' : Option Binding}, (a.isSome ∨ a'.isSome) →
        (∀ b ∈ a, b.borrowedParam = true ↔ borrowed x) →
        (∀ b ∈ a', b.borrowedParam = true ↔ borrowed x) →
        ((Binding.orUndefined a a').borrowedParam = true ↔ borrowed x) := by
      rintro (_ | a) (_ | a') hs ha ha'
      · simp at hs
      · exact ha' a' rfl
      · exact ha a rfl
      · exact ha a rfl
    by_cases hx : (l.get? x).isSome ∨ (r.get? x).isSome
    · obtain ⟨b', hb', hj⟩ := h.found hx
      cases hb.symm.trans hb'
      rcases hj.borrowedParam with hp | hp
      · exact hp ▸ side hx (fun _ => hl.mark) fun _ => hr.mark
      · exact hp ▸ side hx.symm (fun _ => hr.mark) fun _ => hl.mark
    · simp only [not_or, Option.not_isSome_iff_eq_none] at hx
      cases hb.symm.trans (h.missing hx.1 hx.2)
  present hx := by
    obtain ⟨b, hb, -⟩ := h.found (.inl (hl.present hx))
    exact Option.isSome_of_eq_some hb

end Joins

/-- The bindings behind a join, name by name. -/
structure MergedAt (location : Location) (l r m : Bindings) (x : String) : Prop where
  found : (l.get? x).isSome ∨ (r.get? x).isSome → ∃ b, m.get? x = some b ∧
    Binding.merge location x (.orUndefined (l.get? x) (r.get? x))
      (.orUndefined (r.get? x) (l.get? x)) = .ok b
  missing : l.get? x = none → r.get? x = none → m.get? x = none

namespace Flow

variable {location : Location} {l r m : Flow}

theorem merge_of_reachable (hl : l.reachable) (hr : r.reachable) :
    l.merge location r = do
      return { bindings := .ofListFirst (← mergeEach location (l.bindings.align r.bindings)) } := by
  simp only [merge, hl, hr, Bool.not_true, Bool.false_eq_true, if_false]

theorem mergedAt_of_merge (h : l.merge location r = .ok m) (hl : l.reachable) (hr : r.reachable) :
    m.reachable ∧ ∀ x, MergedAt location l.bindings r.bindings m.bindings x := by
  rw [merge_of_reachable hl hr] at h
  obtain ⟨es, hes, h⟩ := except_bind_eq_ok.mp h
  cases h
  have look := fun x => lookup_mergeEach (x := x) hes (Dict.align_ordered ..)
  refine ⟨rfl, fun x => ⟨fun hx => ?_, fun hlx hrx => ?_⟩⟩
  · obtain ⟨b, hb, hm⟩ := (look x).1 _ _ (Dict.mem_align.mpr ⟨rfl, rfl, hx⟩)
    exact ⟨b, (Dict.get?_ofListFirst ..).trans hb, hm⟩
  · refine (Dict.get?_ofListFirst ..).trans ((look x).2 fun a b hab => ?_)
    obtain ⟨rfl, rfl, h⟩ := Dict.mem_align.mp hab
    simp [hlx, hrx] at h

theorem joins_of_merge (h : l.merge location r = .ok m) (hl : l.reachable) (hr : r.reachable) :
    m.reachable ∧ Joins l.bindings r.bindings m.bindings := by
  obtain ⟨reachable, merged⟩ := mergedAt_of_merge h hl hr
  refine ⟨reachable, fun {x} hx => ?_, fun {x} => (merged x).missing⟩
  obtain ⟨b, hb, hm⟩ := (merged x).found hx
  exact ⟨b, hb, Binding.joins_of_merge hm⟩

end Flow

/-! ## Paths joined one after another -/

/-- A point is reached, and knows which names are borrowed. -/
structure Flow.Sane (borrowed : String → Prop) (flow : Flow) : Prop where
  reachable : flow.reachable = true
  marked : Marked borrowed flow.bindings

/-- The pairs of paths that are joined when paths are joined to one, one after another. -/
def Flow.joins (location : Location) (l : Flow) : List Flow → List (Flow × Flow)
  | [] => []
  | r :: rs =>
    (l, r) :: match l.merge location r with
      | .ok m => m.joins location rs
      | .error _ => []

/-- Paths that can be reached agree on the classes of the names that they both bind. -/
def Agreeing (joins : List (Flow × Flow)) : Prop :=
  ∀ p ∈ joins, p.1.reachable → p.2.reachable → sameClasses p.1.bindings p.2.bindings

section

variable {location : Location} {agree : Prop} {borrowed : String → Prop} {l r m : Flow}
  {rs : List Flow}

theorem Flow.covered_of_merge (h : l.merge location r = .ok m) (hl : l.Sane borrowed)
    (hr : r.Sane borrowed) (ha : agree → sameClasses l.bindings r.bindings) :
    m.Sane borrowed ∧ Covered agree l.bindings m.bindings ∧
      Covered agree r.bindings m.bindings := by
  obtain ⟨hm, hj⟩ := joins_of_merge h hl.reachable hr.reachable
  refine ⟨⟨hm, hj.marked hl.marked hr.marked⟩, hj.covered ha, hj.symm.covered fun h => ?_⟩
  exact sameClasses_iff.mpr fun hr hl => (sameClasses_iff.mp (ha h) hl hr).symm

theorem Flow.covered_of_branches (h : l.merge location r = .ok m)
    (hl : l.reachable → l.Sane borrowed) (hr : r.reachable → r.Sane borrowed)
    (ha : agree → Agreeing [(l, r)]) :
    (m.reachable → m.Sane borrowed) ∧
    (l.reachable → m.reachable ∧ Covered agree l.bindings m.bindings) ∧
    (r.reachable → m.reachable ∧ Covered agree r.bindings m.bindings) := by
  by_cases hlr : l.reachable = true
  · by_cases hrr : r.reachable = true
    · obtain ⟨sane, hcl, hcr⟩ := covered_of_merge h (hl hlr) (hr hrr)
        fun h => ha h (l, r) (List.mem_singleton_self _) hlr hrr
      exact ⟨fun _ => sane, fun _ => ⟨sane.reachable, hcl⟩, fun _ => ⟨sane.reachable, hcr⟩⟩
    · simp only [merge, hlr, hrr, Bool.not_true, Bool.not_false, Bool.false_eq_true, if_true,
        if_false] at h
      cases h
      exact ⟨hl, fun hm => ⟨hm, .refl ..⟩, fun h => absurd h hrr⟩
  · simp only [merge, hlr, Bool.not_false, if_true] at h
    cases h
    exact ⟨hr, fun h => absurd h hlr, fun hm => ⟨hm, .refl ..⟩⟩

theorem Flow.reachable_of_merge (h : l.merge location r = .ok m) (hm : m.reachable) :
    l.reachable ∨ r.reachable := by
  by_cases hl : l.reachable = true
  · exact .inl hl
  · simp only [merge, hl, Bool.not_false, if_true] at h
    cases h
    exact .inr hm

theorem Flow.covered_of_mergeAll (h : l.mergeAll location rs = .ok m) (hl : l.Sane borrowed)
    (hrs : ∀ r ∈ rs, r.Sane borrowed) (ha : agree → Agreeing (l.joins location rs)) :
    m.Sane borrowed ∧ Covered agree l.bindings m.bindings ∧
      ∀ r ∈ rs, Covered agree r.bindings m.bindings := by
  induction rs generalizing l with
  | nil =>
    cases h
    exact ⟨hl, .refl .., nofun⟩
  | cons r rs ih =>
    obtain ⟨hr, hrs⟩ := List.forall_mem_cons.mp hrs
    obtain ⟨l', hl', h⟩ := except_bind_eq_ok.mp h
    rw [joins, hl'] at ha
    have agreeing := fun h => List.forall_mem_cons.mp (ha h)
    obtain ⟨sane, hcl, hcr⟩ := covered_of_merge hl' hl hr
      fun h => (agreeing h).1 hl.reachable hr.reachable
    obtain ⟨saneM, hcm, hcs⟩ := ih h sane hrs fun h => (agreeing h).2
    exact ⟨saneM, hcl.trans hcm, List.forall_mem_cons.mpr ⟨hcr.trans hcm, hcs⟩⟩

end

namespace LoopFrame

variable {frame : LoopFrame} {atEnd m : Flow} {location : Location}

/-- Where a loop goes round: at the end of its body, if that is reached, and at `continue`. -/
def edges (frame : LoopFrame) (atEnd : Flow) : List Flow :=
  if atEnd.reachable then atEnd :: frame.continues else frame.continues

theorem mergeAll_of_exit (h : frame.exit atEnd location = .ok m) :
    frame.entry.mergeAll location (frame.edges atEnd ++ frame.breaks) = .ok m := by
  obtain ⟨exit, he, h⟩ := except_bind_eq_ok.mp h
  change frame.exitAfter location frame.entry (frame.edges atEnd) = .ok exit at he
  generalize frame.entry = l at he ⊢
  generalize frame.edges atEnd = edges at he ⊢
  induction edges generalizing l with
  | nil =>
    cases he
    exact h
  | cons edge edges ih =>
    obtain ⟨_, -, he⟩ := except_bind_eq_ok.mp he
    obtain ⟨l', hl', he⟩ := except_bind_eq_ok.mp he
    exact except_bind_eq_ok.mpr ⟨l', hl', ih l' he⟩

end LoopFrame

/-! ## The joins of a function -/

/-- Goes on from the end of a computation, if it succeeds. -/
def onSuccess {α β : Type} (x : Follow α) (s : FlowState) (next : α → FlowState → List β) :
    List β :=
  match x s with
  | .ok a s' => next a s'
  | .error _ _ => []

/-- What happens before the body of a `for` loop. -/
def enterFor (location : Location) (loopVar : String) (varType : Ty) (iterable : Typed.Expr) :
    Follow LoopFrame := do
  evaluate iterable
  let entry := (← get).flow
  let linearElements ← Follow.runsOverLinear iterable varType
  Follow.bind loopVar varType location
  return { entry, loopVar, linearElements }

/-- The pairs of paths that are joined behind a loop with the given body. -/
def joinsExit (name : String) (location : Location) (body : List Typed.Stmt) (s : FlowState) :
    List (Flow × Flow) :=
  onSuccess (checkBlock name body) s fun _ s' =>
    match s'.loops with
    | frame :: _ => frame.entry.joins location (frame.edges s'.flow ++ frame.breaks)
    | [] => []

mutual

/-- The pairs of paths that are joined where the bindings are followed through a statement. -/
def joinsStmt (name : String) : Typed.Stmt → FlowState → List (Flow × Flow)
  | .branch _ condition thenBody elseBody, s =>
    onSuccess (evaluate condition) s fun _ s₁ =>
      joinsBlock name thenBody s₁ ++
      onSuccess (checkBlock name thenBody) s₁ fun _ s₂ =>
        joinsBlock name elseBody { s₂ with flow := s₁.flow } ++
        onSuccess (checkBlock name elseBody) { s₂ with flow := s₁.flow } fun _ s₃ =>
          [(s₂.flow, s₃.flow)]
  | .whileLoop location condition body, s =>
    onSuccess (evaluate condition) s fun _ s₁ =>
      let inside := { s₁ with loops := { entry := s₁.flow } :: s₁.loops }
      joinsBlock name body inside ++ joinsExit name location body inside
  | .forLoop location loopVar varType iterable body, s =>
    onSuccess (enterFor location loopVar varType iterable) s fun frame s₁ =>
      let inside := { s₁ with loops := frame :: s₁.loops }
      joinsBlock name body inside ++ joinsExit name location body inside
  | _, _ => []

/-- The pairs of paths that are joined where the bindings are followed through a block. -/
def joinsBlock (name : String) : List Typed.Stmt → FlowState → List (Flow × Flow)
  | [], _ => []
  | s :: ss, st =>
    if st.flow.reachable then
      joinsStmt name s st ++ onSuccess (checkStmt name s) st fun _ st' => joinsBlock name ss st'
    else []

end

/-- The pairs of paths that are joined where the bindings are followed through a function. -/
def joinsFunction (f : Typed.Function) (memo : ClassMemo) : List (Flow × Flow) :=
  onSuccess (bindParams f.params) { memo } fun _ s => joinsBlock f.qualifiedName f.body s

end QuantumStatics.Consumption
