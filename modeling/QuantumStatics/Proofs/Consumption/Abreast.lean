/-
  Two runs of the checker side by side.

  A function and another one of the same shape whose types are less restrictive are followed
  together.  `Answers R x x' Q` says that from related states, whenever the first computation
  succeeds, the second one does, with related results in related states.
-/
import QuantumStatics.Proofs.Classification.Plain
import QuantumStatics.Proofs.Consumption.Narrowing
import QuantumStatics.Proofs.Typed.Alike

namespace QuantumStatics.Consumption

open Elaboration (LocalTypes)
open Typed

/-! ## Computations -/

/-- A relation between the states of two runs. -/
abbrev Pairing := FlowState → FlowState → Prop

/-- From related states, whenever the first computation succeeds, the second one does, with related
    results and states. -/
def Answers {α : Type} (R : Pairing) (x x' : Follow α) (Q : α → α → Pairing) : Prop :=
  ∀ σ σ' a τ, R σ σ' → x σ = .ok a τ → ∃ a' τ', x' σ' = .ok a' τ' ∧ Q a a' τ τ'

/-- The results satisfy `V` and the states are related by `R`. -/
def With {α : Type} (V : α → α → Prop) (R : Pairing) : α → α → Pairing :=
  fun a a' σ σ' => V a a' ∧ R σ σ'

namespace Answers

variable {α β : Type} {R R' : Pairing} {x x' : Follow α} {f f' : α → Follow β}
  {Q : α → α → Pairing} {W : β → β → Pairing}

theorem pure {a a' : α} (h : ∀ σ σ', R σ σ' → Q a a' σ σ') :
    Answers R (pure a) (pure a') Q := by
  intro σ σ' b τ hR hx
  obtain ⟨rfl, rfl⟩ := pure_eq_ok.mp hx
  exact ⟨a', σ', rfl, h _ _ hR⟩

theorem bind (hx : Answers R x x' Q) (hf : ∀ a a', Answers (Q a a') (f a) (f' a') W) :
    Answers R (x >>= f) (x' >>= f') W := by
  intro σ σ' b τ hR h
  obtain ⟨a, σ₁, ha, h⟩ := bind_eq_ok.mp h
  obtain ⟨a', σ₁', ha', hQ⟩ := hx _ _ _ _ hR ha
  obtain ⟨b', τ', hb', hW⟩ := hf a a' _ _ _ _ hQ h
  exact ⟨b', τ', bind_eq_ok.mpr ⟨a', σ₁', ha', hb'⟩, hW⟩

theorem bindWith {V : α → α → Prop} (hx : Answers R x x' (With V R'))
    (hf : ∀ a a', V a a' → Answers R' (f a) (f' a') W) : Answers R (x >>= f) (x' >>= f') W :=
  hx.bind fun a a' _ _ _ _ h => hf a a' h.1 _ _ _ _ h.2

theorem mono {Q' : α → α → Pairing} (h : Answers R x x' Q)
    (hQ : ∀ a a' σ σ', Q a a' σ σ' → Q' a a' σ σ') : Answers R x x' Q' := by
  intro σ σ' a τ hR hx
  obtain ⟨a', τ', hx', h⟩ := h _ _ _ _ hR hx
  exact ⟨a', τ', hx', hQ _ _ _ _ h⟩

theorem of_imp (h : Answers R' x x' Q) (hR : ∀ σ σ', R σ σ' → R' σ σ') : Answers R x x' Q :=
  fun _ _ _ _ hσ => h _ _ _ _ (hR _ _ hσ)

theorem ofExcept {x x' : Except Failure α} {V : α → α → Prop}
    (h : ∀ a, x = .ok a → ∃ a', x' = .ok a' ∧ V a a') :
    Answers R (Analysis.ofExcept x) (Analysis.ofExcept x') (With V R) := by
  intro σ σ' a τ hσ hx
  obtain ⟨ha, rfl⟩ := ofExcept_eq_ok.mp hx
  obtain ⟨a', ha', hV⟩ := h a ha
  exact ⟨a', σ', ofExcept_eq_ok.mpr ⟨ha', rfl⟩, hV, hσ⟩

theorem of_fails (h : ∀ σ a τ, x σ ≠ .ok a τ) : Answers R x x' Q :=
  fun _ _ _ _ _ hx => absurd hx (h _ _ _)

theorem reject {location : Location} {cause : Cause} :
    Answers R (Analysis.reject location cause) x' Q :=
  of_fails fun _ _ _ => reject_ne_ok

theorem defect {d : Defect} : Answers R (Analysis.defect d) x' Q :=
  of_fails fun _ _ _ => defect_ne_ok

theorem bind_of_fails {x : Follow α} {x' : Follow β} {Q : β → β → Pairing} {f : α → Follow β}
    (h : ∀ σ a τ, x σ ≠ .ok a τ) : Answers R (x >>= f) x' Q :=
  of_fails fun σ b τ hx => by
    obtain ⟨a, σ₁, ha, -⟩ := bind_eq_ok.mp hx
    exact h σ a σ₁ ha

end Answers

/-! ## Types -/

/-- A type becomes one that is no more restrictive, and both are among some types. -/
structure Lesser (P : Ty → Prop) (t t' : Ty) : Prop where
  left : P t
  right : P t'
  atMost : t'.AtMost t

/-- What becomes of the types of a program.  Among the types that satisfy `P`, the text of a type
    tells its class. -/
structure TypesNarrow (N : Narrowing) (P : Ty → Prop) (T : Ty → Ty → Prop) : Prop where
  tells : TextTells P
  lesser {t t' : Ty} : T t t' → Lesser P t t'
  classes {t t' : Ty} {c c' : OwnershipClass} : T t t' → t.classify = .ok c → t'.classify = .ok c' →
    N.classes t c c'
  tuple {ts : List Ty} {t' : Ty} : T (.tuple ts) t' → ∃ ts', t' = .tuple ts' ∧ List.Forall₂ T ts ts'
  array {elem t' : Ty} {n : NatTerm} : T (.array elem n) t' → ∃ elem' n', t' = .array elem' n' ∧
    T elem elem' ∧ (n = .const 1 → n' = .const 1)
  struct {d : StructDecl} {ts : List Ty} {ns : List NatTerm} {t' : Ty} {fs : List Field} :
    T (.struct d ts ns) t' → d.instantiateFields ts ns = .ok fs → ∃ ts' ns' fs',
      t' = .struct d ts' ns' ∧ d.instantiateFields ts' ns' = .ok fs' ∧
      List.Forall₂ (fun f f' => Lesser P f.type f'.type) fs fs'

/-! ## States -/

section

variable (N : Narrowing) (P : Ty → Prop)

/-- What becomes of the loops around a statement, which are left with the given types. -/
def FramesBeside : List LocalTypes → List LoopFrame → List LoopFrame → Prop
  | [], [], [] => True
  | E :: Es, frame :: frames, frame' :: frames' =>
    N.FrameBeside E frame frame' ∧ FramesBeside Es frames frames'
  | _, _, _ => False

/-- The states of two runs, wherever they are. -/
structure Abreast (Es : List LocalTypes) (σ σ' : FlowState) : Prop where
  memo : σ.memo.Plain P
  memo' : σ'.memo.Plain P
  warnings : σ'.warnings = σ.warnings
  loops : FramesBeside N Es σ.loops σ'.loops

/-- Two runs stand at one point, where names have the types `E`. -/
structure Together (E : LocalTypes) (Es : List LocalTypes) (σ σ' : FlowState) : Prop
    extends Abreast N P Es σ σ' where
  flow : N.FlowBeside E σ.flow σ'.flow

end

section

variable {N : Narrowing} {P : Ty → Prop} {T : Ty → Ty → Prop} {E E' : LocalTypes}
  {Es : List LocalTypes} {t t' a : Ty} {n : String} {location : Location} {σ : FlowState}
  {b : Binding} {use : UseKind}

/-! ## Classes and bindings -/

theorem classify_of_memo {c : OwnershipClass} {m : ClassMemo}
    (h : ClassMemo.classify t σ.memo = .ok c m) :
    Follow.classify t σ = .ok c { σ with memo := m } := by
  unfold Follow.classify
  rw [h]

theorem classify_answers (hP : TextTells P) (ht : Lesser P t t') :
    Answers (Together N P E Es) (Follow.classify t) (Follow.classify t')
      (With (fun c c' => t.classify = .ok c ∧ t'.classify = .ok c' ∧ c' ≤ c)
        (Together N P E Es)) := by
  intro σ σ' c τ hσ h
  obtain ⟨m, hm, rfl⟩ := classify_eq_ok h
  obtain ⟨hc, plain⟩ := hσ.memo.classify_eq_ok hP.closed ht.left hm
  obtain ⟨c', hc', le⟩ := ht.atMost c hc
  obtain ⟨m', hm', plain'⟩ := hσ.memo'.exists_classify hP.closed ht.right hc'
  exact ⟨c', _, classify_of_memo hm', ⟨hc, hc', le⟩, { hσ with memo := plain, memo' := plain' }⟩

theorem classify_alone_answers {α : Type} (hP : TextTells P) (ht : P t)
    {f : OwnershipClass → Follow α} {x' : Follow α} {Q : α → α → Pairing}
    (hf : ∀ c, Answers (Together N P E Es) (f c) x' Q) :
    Answers (Together N P E Es) (Follow.classify t >>= f) x' Q := by
  intro σ σ' a τ hσ h
  obtain ⟨c, σ₁, hc, h⟩ := bind_eq_ok.mp h
  obtain ⟨m, hm, rfl⟩ := classify_eq_ok hc
  have hσ₁ : Together N P E Es { σ with memo := m } σ' :=
    { hσ with memo := (hσ.memo.classify_eq_ok hP.closed ht hm).2 }
  exact hf c _ _ _ _ hσ₁ h

theorem binding?_answers :
    Answers (Together N P E Es) (Follow.binding? n) (Follow.binding? n)
      (With (N.NarrowsAt n (E n)) (Together N P E Es)) := by
  intro σ σ' b τ hσ h
  obtain ⟨rfl, rfl⟩ := binding?_eq_ok h
  exact ⟨σ'.flow.bindings.get? n, σ', rfl, hσ.flow.bindings n, hσ⟩

theorem definedBinding_of_get? (hb : σ.flow.bindings.get? n = some b) (hs : b.state = .defined) :
    Follow.definedBinding n location σ = .ok b σ := by
  refine bind_eq_ok.mpr ⟨some b, σ, by rw [← hb]; rfl, ?_⟩
  simp only [hs]
  rfl

theorem Together.definedBinding {σ' τ : FlowState} (hσ : Together N P E Es σ σ')
    (h : Follow.definedBinding n location σ = .ok b τ) :
    τ = σ ∧ ∃ a b', E n = some a ∧ N.Narrows n a b b' ∧ σ'.flow.bindings.get? n = some b' ∧
      Follow.definedBinding n location σ' = .ok b' σ' := by
  obtain ⟨hb, hs, rfl⟩ := definedBinding_eq_ok h
  obtain ⟨a, b', ha, hb', narrows⟩ := hσ.flow.bindings.bound hb
  exact ⟨rfl, a, b', ha, narrows, hb', definedBinding_of_get? hb' (narrows.defined hs)⟩

theorem definedBinding_answers :
    Answers (Together N P E Es) (Follow.definedBinding n location)
      (Follow.definedBinding n location) fun _ _ => Together N P E Es := by
  intro σ σ' b τ hσ h
  obtain ⟨rfl, a, b', -, -, -, h'⟩ := hσ.definedBinding h
  exact ⟨b', σ', h', hσ⟩

theorem setBinding_answers {b' : Binding} (hE : ∀ x, x ≠ n → E' x = E x) (hn : E' n = some a)
    (hb : N.Narrows n a b b') :
    Answers (Together N P E Es) (Follow.setBinding n b) (Follow.setBinding n b')
      fun _ _ => Together N P E' Es := by
  intro σ σ' _ τ hσ h
  cases modify_eq_ok.mp h
  refine ⟨(), _, rfl, { hσ with flow := ?_ }⟩
  exact ⟨hσ.flow.reachable, hσ.flow.reachable', hσ.flow.bindings.insert hE hn hb⟩

theorem useName_answers :
    Answers (Together N P E Es) (Follow.useName n use location) (Follow.useName n use location)
      fun _ _ => Together N P E Es := by
  intro σ σ' _ τ hσ run
  obtain ⟨b, σ₁, hdef, h⟩ := bind_eq_ok.mp run
  obtain ⟨rfl, a, b', ha, narrows, hb', hdef'⟩ := hσ.definedBinding hdef
  have run' : ∀ {τ'}, (if use = .consume ∧ b'.cls ≠ .copyable then
      Follow.setBinding n { b' with state := .consumed } else pure ()) σ' = .ok () τ' →
      Follow.useName n use location σ' = .ok () τ' :=
    fun h' => bind_eq_ok.mpr ⟨b', σ', hdef', h'⟩
  by_cases hu : use = .consume ∧ b.cls ≠ .copyable
  · rw [if_pos hu] at h
    by_cases hc' : b'.cls = .copyable
    · cases modify_eq_ok.mp h
      have consumed : N.Narrows n a { b with state := .consumed } b' :=
        ⟨narrows.classes, ⟨.inr ⟨rfl, hc'⟩, nofun⟩, narrows.mark, narrows.mark'⟩
      refine ⟨(), σ', run' (by rw [if_neg fun h => h.2 hc']; rfl), { hσ with flow := ?_ }⟩
      exact { hσ.flow with bindings := hσ.flow.bindings.insertLeft ha hb' consumed }
    · have consumed : N.Narrows n a { b with state := .consumed } { b' with state := .consumed } :=
        ⟨narrows.classes, ⟨.inl rfl, nofun⟩, narrows.mark, narrows.mark'⟩
      obtain ⟨_, τ', h', hτ⟩ := setBinding_answers (fun _ _ => rfl) ha consumed _ _ _ _ hσ h
      exact ⟨(), τ', run' (by rw [if_pos ⟨hu.1, hc'⟩]; exact h'), hτ⟩
  · rw [if_neg hu] at h
    obtain ⟨-, rfl⟩ := pure_eq_ok.mp h
    have hu' : ¬ (use = .consume ∧ b'.cls ≠ .copyable) := fun ⟨huse, hc'⟩ =>
      hc' (OwnershipClass.le_copyable_iff.mp
        (Classical.not_not.mp (fun h => hu ⟨huse, h⟩) ▸ N.le narrows.classes))
    exact ⟨(), σ', run' (by rw [if_neg hu']; rfl), hσ⟩

theorem bind_answers (hT : TypesNarrow N P T) (ht : T t t') (ha : t.equal a) :
    Answers (Together N P E Es) (Follow.bind n t location) (Follow.bind n t' location)
      fun _ _ => Together N P (E.bind n a) Es := by
  unfold Follow.bind
  refine binding?_answers.bindWith fun o o' hn => ?_
  have set : Answers (Together N P E Es)
      (do Follow.setBinding n { o.getD {} with state := .defined, cls := ← Follow.classify t })
      (do Follow.setBinding n { o'.getD {} with state := .defined, cls := ← Follow.classify t' })
      fun _ _ => Together N P (E.bind n a) Es := by
    refine (classify_answers hT.tells (hT.lesser ht)).bindWith fun c c' ⟨hc, hc', _⟩ => ?_
    refine setBinding_answers (a := a) (fun x hx => if_neg hx) (if_pos rfl) ?_
    exact ⟨N.equal ha (hT.classes ht hc hc'), ⟨.inl rfl, nofun⟩, hn.mark, hn.mark'⟩
  dsimp only
  split
  · exact .bind_of_fails fun _ _ _ => reject_ne_ok
  · rename_i held
    rw [if_neg fun h => held (hn.held h.1 h.2)]
    exact set

/-! ## Projections -/

theorem checkOtherFields_answers (hP : TextTells P) {struct label : String} {index : Nat}
    {fs fs' : List Field} (hfs : List.Forall₂ (fun f f' => Lesser P f.type f'.type) fs fs')
    (position : Nat) :
    Answers (Together N P E Es)
      (Follow.checkOtherFields location struct label index position fs)
      (Follow.checkOtherFields location struct label index position fs')
      fun _ _ => Together N P E Es := by
  induction hfs generalizing position with
  | nil => exact .pure fun _ _ => id
  | cons hf _ ih =>
    simp only [Follow.checkOtherFields]
    split
    · refine (classify_answers hP hf).bindWith fun c c' h => ?_
      obtain ⟨_, _, le⟩ := h
      split
      · exact .bind_of_fails fun _ _ _ => reject_ne_ok
      · rename_i hc
        have hc' : c' ≠ .linear := fun h => hc (OwnershipClass.linear_le_iff.mp (h ▸ le))
        rw [if_neg hc']
        exact ih _
    · exact ih _

theorem checkMoveOut_answers (hT : TypesNarrow N P T) : ∀ (e : Expr) {e' : Expr}, e.Alike T e' →
    Answers (Together N P E Es) (Follow.checkMoveOut e) (Follow.checkMoveOut e')
      fun _ _ => Together N P E Es
  | .field location t object label index use, _, .field _ ho => by
    have rest := checkMoveOut_answers hT object ho
    have type := ho.type
    rw [Follow.checkMoveOut.eq_1, Follow.checkMoveOut.eq_1]
    split
    · rename_i d ts ns htype
      rw [htype] at type
      cases hfs : d.instantiateFields ts ns with
      | error => exact .bind_of_fails fun _ _ _ h => by cases h
      | ok fs =>
        obtain ⟨ts', ns', fs', htype', hfs', lesser⟩ := hT.struct type hfs
        rw [htype']
        simp only [hfs']
        exact (checkOtherFields_answers hT.tells lesser 0).bind fun _ _ => rest
    · exact .bind_of_fails fun _ _ _ h => by cases h
  | .subscript location t indexed index use, _, .subscript _ hi _ => by
    have rest := checkMoveOut_answers hT indexed hi
    have type := hi.type
    rw [Follow.checkMoveOut.eq_2, Follow.checkMoveOut.eq_2]
    split
    · rename_i elem length htype
      rw [htype] at type
      obtain ⟨elem', length', htype', helem, hlength⟩ := hT.array type
      simp only [htype']
      refine (classify_answers hT.tells (hT.lesser helem)).bindWith fun c c' h => ?_
      obtain ⟨_, _, le⟩ := h
      split
      · by_cases hl : length = .const 1
        · rw [if_pos hl, if_pos (hlength hl), ite_self]
          exact rest
        · rw [if_neg hl]
          exact .bind_of_fails fun _ _ _ => reject_ne_ok
      · rename_i hc
        have hc' : c' ≠ .linear := fun h => hc (OwnershipClass.linear_le_iff.mp (h ▸ le))
        rw [if_neg hc']
        exact rest
    · exact .bind_of_fails fun _ _ _ h => by cases h
  | .int _ _ _, _, .int _ | .float _ _, _, .float _ | .bool _ _, _, .bool _
  | .name _ _ _ _, _, .name _ | .natParam _ _, _, .natParam _ | .natParam _ _, _, .natValue _
  | .fnRef _ _ _, _, .fnRef _ | .tuple _ _ _, _, .tuple _ _ | .array _ _ _, _, .array _ _
  | .call _ _ _ _, _, .call _ _ _ => .pure fun _ _ => id
termination_by structural e => e

theorem usePlace_answers (hT : TypesNarrow N P T) {e e' : Expr} (he : e.Alike T e')
    {base base' : Follow Unit}
    (hbase : Answers (Together N P E Es) base base' fun _ _ => Together N P E Es) :
    Answers (Together N P E Es) (Follow.usePlace e use base) (Follow.usePlace e' use base')
      fun _ _ => Together N P E Es := by
  -- Moving out of the place is checked first.
  have afterCheck : ∀ {x x' : Follow Unit},
      Answers (Together N P E Es) x x' (fun _ _ => Together N P E Es) →
      Answers (Together N P E Es) (do
        if use = .consume then
          Follow.checkMoveOut e
        x) (do
        if use = .consume then
          Follow.checkMoveOut e'
        x') fun _ _ => Together N P E Es := by
    intro x x' hx
    dsimp only
    split
    · exact (checkMoveOut_answers hT e he).bind fun _ _ => hx
    · exact hx
  unfold Follow.usePlace
  rw [he.root?, he.location]
  split
  · exact afterCheck useName_answers
  · refine afterCheck (hbase.bind fun _ _ => ?_)
    split
    · exact .pure fun _ _ => id
    · refine (classify_answers hT.tells (hT.lesser he.base.type)).bindWith fun c c' ⟨_, _, le⟩ => ?_
      split
      · exact .reject
      · rename_i hc
        have hc' : c' ≠ .linear := fun h => hc (OwnershipClass.linear_le_iff.mp (h ▸ le))
        rw [if_neg hc']
        exact .pure fun _ _ => id

/-! ## Arguments -/

theorem checkArg_answers (hT : TypesNarrow N P T) {callee : String} {roots roots' : List String}
    (hroots : roots' ⊆ roots) {ownership : Ownership} {arg arg' : Expr} (harg : arg.Alike T arg') :
    Answers (Together N P E Es) (Follow.checkArg callee roots ownership arg)
      (Follow.checkArg callee roots' ownership arg')
      (With (fun rs rs' => rs' ⊆ rs) (Together N P E Es)) := by
  have keep : Answers (Together N P E Es) (pure roots) (pure roots')
      (With (fun rs rs' => rs' ⊆ rs) (Together N P E Es)) := .pure fun _ _ hσ => ⟨hroots, hσ⟩
  have classes : Answers (Together N P E Es) _ _ _ :=
    classify_answers hT.tells (hT.lesser harg.type)
  unfold Follow.checkArg
  rw [harg.root?, harg.location]
  split
  · rename_i root hroot
    refine binding?_answers.bindWith fun o o' hn => ?_
    generalize E root = a at hn
    cases hn with
    | unbound => exact keep
    | @bound a b b' narrows =>
      dsimp only
      by_cases hb : b.cls = .linear
      · rw [if_neg (not_not_intro hb)]
        by_cases hb' : b'.cls = .linear
        · rw [if_neg (not_not_intro hb')]
          refine classes.bindWith fun c c' ⟨_, _, le⟩ => ?_
          by_cases hc : c = .copyable
          · have hc' : c' = .copyable := OwnershipClass.le_copyable_iff.mp (hc ▸ le)
            rw [if_pos hc, if_pos hc']
            exact keep
          · rw [if_neg hc]
            by_cases hr : roots.contains root
            · rw [if_pos hr]
              exact .bind_of_fails fun _ _ _ => reject_ne_ok
            · rw [if_neg hr]
              have hr' : ¬ roots'.contains root := fun h => hr (by
                simpa using hroots (by simpa using h))
              rw [if_neg hr']
              split
              · exact .pure fun _ _ hσ => ⟨List.subset_cons_of_subset _ hroots, hσ⟩
              · exact .pure fun _ _ hσ => ⟨List.cons_subset_cons _ hroots, hσ⟩
        · rw [if_pos hb']
          refine classify_alone_answers hT.tells (hT.lesser harg.type).left fun c => ?_
          split
          · exact keep
          · split
            · exact .bind_of_fails fun _ _ _ => reject_ne_ok
            · exact .pure fun _ _ hσ => ⟨List.subset_cons_of_subset _ hroots, hσ⟩
      · have hb' : b'.cls ≠ .linear := fun h => hb (narrows.linear h).1
        rw [if_pos hb, if_pos hb']
        exact keep
  · split
    · refine classes.bindWith fun c c' ⟨_, _, le⟩ => ?_
      split
      · exact .bind_of_fails fun _ _ _ => reject_ne_ok
      · rename_i hc
        have hc' : c' ≠ .linear := fun h => hc (OwnershipClass.linear_le_iff.mp (h ▸ le))
        rw [if_neg hc']
        exact keep
    · exact keep

/-! ## Expressions -/

theorem callee_answers {c c' : CallTarget} (hc : c.Alike c') {args args' : Follow Unit}
    (hargs : Answers (Together N P E Es) args args' fun _ _ => Together N P E Es) :
    Answers (Together N P E Es) (do
      if c.kind = .localValue then
        let _ ← Follow.definedBinding c.callee location
      args) (do
      if c'.kind = .localValue then
        let _ ← Follow.definedBinding c'.callee location
      args') fun _ _ => Together N P E Es := by
  rw [hc.kind, hc.callee]
  dsimp only
  split
  · exact definedBinding_answers.bind fun _ _ => hargs
  · exact hargs

mutual

theorem evaluate_answers (hT : TypesNarrow N P T) : ∀ (e : Expr) {e' : Expr}, e.Alike T e' →
    Answers (Together N P E Es) (evaluate e) (evaluate e') fun _ _ => Together N P E Es
  | .int _ _ _, _, .int _ | .float _ _, _, .float _ | .bool _ _, _, .bool _
  | .natParam _ _, _, .natParam _ | .natParam _ _, _, .natValue _ | .fnRef _ _ _, _, .fnRef _ =>
    .pure fun _ _ => id
  | .name _ _ _ _, _, .name _ => useName_answers
  | .tuple _ _ elems, _, .tuple _ hs | .array _ _ elems, _, .array _ hs =>
    evaluateAll_answers hT elems hs
  | .call _ _ c args, _, .call _ hc hs => by
    rw [evaluate, evaluate]
    refine callee_answers hc ?_
    rw [hc.callee, hc.ownership]
    exact evaluateArgs_answers hT args (List.Subset.refl _) hs
  | .field _ _ object _ _ _, _, .field ht ho => by
    rw [evaluate, evaluate]
    exact (evaluateIndices_answers hT object ho).bind fun _ _ =>
      usePlace_answers hT (.field ht ho) (evaluateBase_answers hT object ho)
  | .subscript _ _ indexed index _, _, .subscript ht hi hx => by
    rw [evaluate, evaluate]
    exact (evaluateIndices_answers hT indexed hi).bind fun _ _ =>
      (evaluate_answers hT index hx).bind fun _ _ =>
        usePlace_answers hT (.subscript ht hi hx) (evaluateBase_answers hT indexed hi)

theorem evaluateIndices_answers (hT : TypesNarrow N P T) : ∀ (e : Expr) {e' : Expr},
    e.Alike T e' → Answers (Together N P E Es) (evaluateIndices e) (evaluateIndices e')
      fun _ _ => Together N P E Es
  | .field _ _ object _ _ _, _, .field _ ho => by
    rw [evaluateIndices, evaluateIndices]
    exact evaluateIndices_answers hT object ho
  | .subscript _ _ indexed index _, _, .subscript _ hi hx => by
    rw [evaluateIndices, evaluateIndices]
    exact (evaluateIndices_answers hT indexed hi).bind fun _ _ => evaluate_answers hT index hx
  | .int _ _ _, _, .int _ | .float _ _, _, .float _ | .bool _ _, _, .bool _
  | .name _ _ _ _, _, .name _ | .natParam _ _, _, .natParam _ | .natParam _ _, _, .natValue _
  | .fnRef _ _ _, _, .fnRef _ | .tuple _ _ _, _, .tuple _ _ | .array _ _ _, _, .array _ _
  | .call _ _ _ _, _, .call _ _ _ => .pure fun _ _ => id

theorem evaluateBase_answers (hT : TypesNarrow N P T) : ∀ (e : Expr) {e' : Expr},
    e.Alike T e' → Answers (Together N P E Es) (evaluateBase e) (evaluateBase e')
      fun _ _ => Together N P E Es
  | .field _ _ object _ _ _, _, .field _ ho => by
    rw [evaluateBase, evaluateBase]
    exact evaluateBase_answers hT object ho
  | .subscript _ _ indexed _ _, _, .subscript _ hi _ => by
    rw [evaluateBase, evaluateBase]
    exact evaluateBase_answers hT indexed hi
  | .name _ _ _ _, _, .name _ => useName_answers
  | .tuple _ _ elems, _, .tuple _ hs | .array _ _ elems, _, .array _ hs =>
    evaluateAll_answers hT elems hs
  | .call _ _ c args, _, .call _ hc hs => by
    rw [evaluateBase, evaluateBase]
    refine callee_answers hc ?_
    rw [hc.callee, hc.ownership]
    exact evaluateArgs_answers hT args (List.Subset.refl _) hs
  | .int _ _ _, _, .int _ | .float _ _, _, .float _ | .bool _ _, _, .bool _
  | .natParam _ _, _, .natParam _ | .natParam _ _, _, .natValue _ | .fnRef _ _ _, _, .fnRef _ =>
    .pure fun _ _ => id

theorem evaluateAll_answers (hT : TypesNarrow N P T) : ∀ (es : List Expr) {es' : List Expr},
    List.Forall₂ (Expr.Alike T) es es' →
    Answers (Together N P E Es) (evaluateAll es) (evaluateAll es') fun _ _ => Together N P E Es
  | [], _, .nil => .pure fun _ _ => id
  | e :: es, _, .cons he hes => by
    rw [evaluateAll, evaluateAll]
    exact (evaluate_answers hT e he).bind fun _ _ => evaluateAll_answers hT es hes

theorem evaluateArgs_answers (hT : TypesNarrow N P T) {callee : String} :
    ∀ (es : List Expr) {es' : List Expr} {roots roots' : List String} {ownership : List Ownership},
    roots' ⊆ roots → List.Forall₂ (Expr.Alike T) es es' →
    Answers (Together N P E Es) (evaluateArgs callee roots ownership es)
      (evaluateArgs callee roots' ownership es') fun _ _ => Together N P E Es
  | [], _, _, _, _, _, .nil => .pure fun _ _ => id
  | e :: es, _, _, _, _, hroots, .cons he hes => by
    rw [evaluateArgs, evaluateArgs]
    exact (checkArg_answers hT hroots he).bindWith fun _ _ hroots =>
      (evaluate_answers hT e he).bind fun _ _ => evaluateArgs_answers hT es hroots hes

end

end

end QuantumStatics.Consumption
