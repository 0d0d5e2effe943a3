/-
  The context of a failure is the way to the clash.

  Each level of the unifier notes the pair that it was unifying, as the substitution stood when the
  level was entered.  Deeper levels have been entered later, under substitutions that go further.

  * `unify_context_leads_to_clash`: the context leads from the clash to the two types.

  Nats are compared as they stand under the substitution that the failure leaves behind.  In the
  context they stand as they stood before the components at their side were unified:
  `array_lengths_not_yet_apart`.
-/
import Mathlib.Data.List.Chain
import QuantumStatics.Proofs.Unification.Calls
import QuantumStatics.Proofs.Unification.Termination

namespace QuantumStatics

open Substitution

/-! ## Clashes of pairs -/

/-- What a type is built by. -/
inductive Former where
  | leaf | typeVariable | undetermined | tuple | array | struct | function | option
  deriving DecidableEq

/-- The outermost constructor of a type. -/
def Ty.former : Ty → Former
  | .prim _ _ => .leaf
  | .var _ => .typeVariable
  | .undet _ => .undetermined
  | .tuple _ => .tuple
  | .array _ _ => .array
  | .struct _ _ _ => .struct
  | .fn _ _ _ => .function
  | .option _ => .option

/-- Two nats are different and neither is undetermined. -/
def NatTerm.Apart (n m : NatTerm) : Prop := n ≠ m ∧ ∀ k, n ≠ .undet k ∧ m ≠ .undet k

/-- **A pair of types clashes by itself**, with the nats directly below it as they stand under a
    substitution. -/
inductive Clash.At (S : Substitution) : Clash → Ty → Ty → Prop
  | recursiveLeft {k : Stamp} {t : Ty} (occurs : .undetType k ∈ t.vars) (proper : t ≠ .undet k) :
      At S (.recursive k t) (.undet k) t
  | recursiveRight {k : Stamp} {t : Ty} (occurs : .undetType k ∈ t.vars) (proper : t ≠ .undet k) :
      At S (.recursive k t) t (.undet k)
  | shapes {l r : Ty} (left : l.former ≠ .undetermined) (right : r.former ≠ .undetermined)
      (differ : l.former ≠ r.former) : At S (.shapes l r) l r
  | leaves {l r : String} {c c' : OwnershipClass} (differ : l ≠ r) :
      At S (.leaves l r) (.prim l c) (.prim r c')
  | typeVariables {p q : TypeParam} (differ : p.name ≠ q.name) :
      At S (.typeVariables p.name q.name) (.var p) (.var q)
  | tupleLengths {ls rs : List Ty} (differ : ls.length ≠ rs.length) :
      At S .tupleLengths (.tuple ls) (.tuple rs)
  | structs {ld rd : StructDecl} {ls rs : List Ty} {ns ms : List NatTerm}
      (differ : ld.name ≠ rd.name) :
      At S (.structs ld.name rd.name) (.struct ld ls ns) (.struct rd rs ms)
  | typeArgumentCounts {ld rd : StructDecl} {ls rs : List Ty} {ns ms : List NatTerm}
      (differ : ls.length ≠ rs.length) :
      At S (.typeArgumentCounts ls.length rs.length) (.struct ld ls ns) (.struct rd rs ms)
  | natArgumentCounts {ld rd : StructDecl} {ls rs : List Ty} {ns ms : List NatTerm}
      (differ : ns.length ≠ ms.length) :
      At S (.natArgumentCounts ns.length ms.length) (.struct ld ls ns) (.struct rd rs ms)
  | parameterCounts {ls rs : List ParamType} {l r : Ty} {lg rg : Generics}
      (differ : ls.length ≠ rs.length) :
      At S (.parameterCounts ls.length rs.length) (.fn ls l lg) (.fn rs r rg)
  | generics {ls rs : List ParamType} {l r : Ty} {lg rg : Generics} (differ : lg ≠ rg) :
      At S .generics (.fn ls l lg) (.fn rs r rg)
  | ownership {ls rs : List ParamType} {l r : Ty} {lg rg : Generics} {position : Nat}
      {p q : ParamType} (left : ls[position]? = some p) (right : rs[position]? = some q)
      (differ : p.ownership ≠ q.ownership) :
      At S (.ownership position p.ownership q.ownership) (.fn ls l lg) (.fn rs r rg)
  | lengths {l r : Ty} {n m : NatTerm} (apart : (n.subst S).Apart (m.subst S)) :
      At S (.nats (n.subst S) (m.subst S)) (.array l n) (.array r m)
  | natArguments {ld rd : StructDecl} {ls rs : List Ty} {ns ms : List NatTerm} {n m : NatTerm}
      (position : (n, m) ∈ ns.zip ms) (apart : (n.subst S).Apart (m.subst S)) :
      At S (.nats (n.subst S) (m.subst S)) (.struct ld ls ns) (.struct rd rs ms)

/-! ## Steps of a run -/

namespace Substitution

variable {S S' S'' : Substitution}

theorem Extends.refines (h : S.Extends S') : S.Refines S' where
  type hk := by rw [Ty.subst_undet, h.type hk, apply_eq]; rfl
  nat hk := by rw [NatTerm.subst_undet, h.nat hk, applyNat_eq]; rfl

theorem Extends.trans (h : S.Extends S') (h' : S'.Extends S'') : S.Extends S'' where
  type hk := by
    have := h'.type (h.type hk)
    rwa [apply_eq, apply_eq, h'.refines.subst, ← apply_eq] at this
  nat hk := by
    have := h'.nat (h.nat hk)
    rwa [applyNat_eq, applyNat_eq, h'.refines.subst_nat, ← applyNat_eq] at this

/-- A later substitution of the same run: it is in solved form, and nothing is taken back. -/
structure Onward (S S' : Substitution) : Prop where
  solved : S'.Solved
  kept : S.Extends S'

namespace Onward

theorem refl (hS : S.Solved) : S.Onward S := ⟨hS, .refl hS⟩

theorem trans (h : S.Onward S') (h' : S'.Onward S'') : S.Onward S'' :=
  ⟨h'.solved, h.kept.trans h'.kept⟩

theorem of_keeps (hS : S.Solved) (h : S.extending.pairs.Keeps S S') : S.Onward S' := by
  have start : S.extending.pairs.types 0 S .int .int := ⟨.refl hS, .refl hS⟩
  exact ⟨h.solved, (h.types start).1⟩

end Onward

end Substitution

namespace Unifier

variable {α β : Type}

/-- However a computation ends, nothing is taken back; and if it fails, `R` says why. -/
structure Fails (R : UnificationError → Substitution → Prop) (x : Unifier α) (S : Substitution) :
    Prop where
  ok {a S'} : x S = .ok a S' → S.Onward S'
  error {e S'} : x S = .error e S' → S.Onward S' ∧ R e S'

variable {R : UnificationError → Substitution → Prop} {S T S' : Substitution}
  {e : UnificationError}

namespace Fails

theorem of_ends {x : Unifier α} (hS : S.Solved) (ends : S.extending.pairs.Ends x S)
    (why : ∀ {e S'}, x S = .error e S' → S.Onward S' → R e S') : Fails R x S where
  ok h := .of_keeps hS (ends.ok h)
  error h := by
    have onward := Onward.of_keeps hS (ends.error h).1
    exact ⟨onward, why h onward⟩

theorem pure (hS : S.Solved) (a : α) : Fails R (pure a) S where
  ok h := by
    obtain ⟨-, rfl⟩ := pure_eq_ok.mp h
    exact .refl hS
  error h := by cases h

theorem bind {x : Unifier α} {f : α → Unifier β} (hx : Fails R x S)
    (hf : ∀ a S', S.Onward S' → Fails R (f a) S') : Fails R (x >>= f) S where
  ok h := by
    obtain ⟨a, S₁, ha, h⟩ := bind_eq_ok.mp h
    have onward := hx.ok ha
    exact onward.trans ((hf a S₁ onward).ok h)
  error {e S'} h := by
    cases ha : x S with
    | ok a S₁ =>
      rw [bind_of_ok ha] at h
      have onward := hx.ok ha
      obtain ⟨onward', why⟩ := (hf a S₁ onward).error h
      exact ⟨onward.trans onward', why⟩
    | error e' S₁ =>
      rw [bind_of_error ha] at h
      cases h
      exact hx.error ha

theorem forM {f : α → Unifier PUnit} {as : List α} (hT : S.Onward T)
    (h : ∀ a ∈ as, ∀ {T}, S.Onward T → Fails R (f a) T) : Fails R (as.forM f) T := by
  induction as generalizing T with
  | nil => exact .pure hT.solved ()
  | cons a as ih =>
    rw [List.forall_mem_cons] at h
    exact (h.1 hT).bind fun _ T' onward => ih (hT.trans onward) h.2

theorem clash {c : Clash} (hS : S.Solved) (why : R ⟨c, []⟩ S) :
    Fails R (Unifier.clash c : Unifier α) S where
  ok h := by cases h
  error h := by
    cases h
    exact ⟨.refl hS, why⟩

section

variable {p : Prop} [Decidable p] {c : Clash}

theorem check (hS : S.Solved) (why : ¬ p → R ⟨c, []⟩ S) :
    Fails R (if p then Pure.pure () else Unifier.clash c) S := by
  split
  · exact .pure hS ()
  · rename_i hp
    exact .clash hS (why hp)

theorem guard {f : PUnit → Unifier α} (hS : S.Solved) (why : ¬ p → R ⟨c, []⟩ S)
    (hf : p → Fails R (f ⟨⟩) S) : Fails R (if p then f ⟨⟩ else Unifier.clash c >>= f) S := by
  split
  · rename_i hp
    exact hf hp
  · rename_i hp
    exact clash hS (why hp)

end

end Fails

/-! ## Failures of a pair -/

theorem bindType_fails {k : Stamp} {t : Ty} (hS : S.Solved) (hk : ¬ S.Binds (.undetType k))
    (hv : ∀ v ∈ t.vars, ¬ S.Binds v) (ht : t ≠ .undet k)
    (why : .undetType k ∈ t.vars → R ⟨.recursive k t, []⟩ S) : Fails R (bindType k t) S := by
  have start : S.extending.pairs.types 0 S (.undet k) t := ⟨.refl hS, .refl hS⟩
  refine .of_ends hS (PairInvariant.bindType_ends hS hk hv ht start) fun h _ => ?_
  rw [bindType, bind_of_ok (get_eq_ok.mpr ⟨rfl, rfl⟩), apply_eq, Ty.subst_eq_self hv] at h
  split at h
  · rename_i occurs
    cases h
    exact why (Ty.mentionsType_iff.mp occurs)
  · cases h

theorem nats_fails {l r : NatTerm} (hS : S.Solved)
    (why : (l.subst S).Apart (r.subst S) → R ⟨.nats (l.subst S) (r.subst S), []⟩ S) :
    Fails R (nats l r) S := by
  have binds : ∀ {k n m} {e : UnificationError} {S'},
      (do bindNat k n; return m : Unifier NatTerm) S ≠ .error e S' := by
    intro k n m e S' h
    rw [bindNat, bind_assoc, bind_of_ok (get_eq_ok.mpr ⟨rfl, rfl⟩)] at h
    dsimp only at h
    split at h <;> cases h
  refine .of_ends hS (PairInvariant.nats_ends hS trivial) fun h _ => ?_
  rw [nats, bind_of_ok (get_eq_ok.mpr ⟨rfl, rfl⟩), applyNat_eq, applyNat_eq] at h
  generalize l.subst S = l at why h
  generalize r.subst S = r at why h
  split at h
  · cases h
  · rename_i differ
    cases l with
    | undet => exact absurd h binds
    | const | var =>
      cases r with
      | undet => exact absurd h binds
      | const | var =>
        cases h
        exact why ⟨differ, fun _ => by simp⟩

theorem natPairs_fails {ls rs : List NatTerm} (hT : S.Onward T)
    (h : ∀ c ∈ ls.zip rs, ∀ {T}, S.Onward T → Fails R (nats c.1 c.2) T) :
    Fails R (natPairs ls rs) T := by
  rw [natPairs_eq_forM]
  exact .forM hT fun c hc {T'} onward =>
    (h c hc onward).bind fun _ _ onward' => .pure onward'.solved ()

variable {go : Ty → Ty → Unifier Unit}

theorem pairs_fails {ls rs : List Ty} (hT : S.Onward T)
    (h : ∀ c ∈ ls.zip rs, ∀ {T}, S.Onward T → Fails R (go c.1 c.2) T) :
    Fails R (pairs go ls rs) T := by
  rw [pairs_eq_forM]
  exact .forM hT h

theorem params_fails {ls rs : List ParamType} {position : Nat} (hT : S.Onward T)
    (h : ∀ i p q, ls[i]? = some p → rs[i]? = some q →
      (p.ownership ≠ q.ownership →
        ∀ T, R ⟨.ownership (position + i) p.ownership q.ownership, []⟩ T) ∧
        ∀ {T}, S.Onward T → Fails R (go p.type q.type) T) :
    Fails R (params go position ls rs) T := by
  induction ls generalizing rs T position with
  | nil => exact .pure hT.solved ()
  | cons l ls ih =>
    cases rs with
    | nil => exact .pure hT.solved ()
    | cons r rs =>
      obtain ⟨ownership, first⟩ := h 0 l r rfl rfl
      refine .guard hT.solved (fun differ => ownership differ T) fun _ => ?_
      refine (first hT).bind fun _ T' onward => ih (hT.trans onward) fun i p q hp hq => ?_
      rw [Nat.add_right_comm]
      exact h (i + 1) p q hp hq

/-- Why unifying a pair fails that the substitution `S` has been applied to: the pair clashes by
    itself, or unifying a pair of its components fails. -/
def Blames (go : Ty → Ty → Unifier Unit) (S : Substitution) (l r : Ty) (e : UnificationError)
    (S' : Substitution) : Prop :=
  e.context = [] ∧ e.clash.At S' l r ∨ l.former = r.former ∧ ∃ T, S.Onward T ∧ T.Onward S' ∧
    ∃ c ∈ l.components.zip r.components, go c.1 c.2 T = .error e S'

/-- **Unifying a pair fails where the pair clashes**, or at a pair of components. -/
theorem shapes_fails
    (hgo : ∀ l r, ∀ {S : Substitution}, S.Solved → S.extending.pairs.Ends (go l r) S) {l r : Ty}
    (hS : S.Solved) (hl : ∀ v ∈ l.vars, ¬ S.Binds v) (hr : ∀ v ∈ r.vars, ¬ S.Binds v) :
    Fails (Blames go S l r) (shapes go l r) S := by
  have start := Onward.refl hS
  have here : ∀ {c T}, c.At T l r → Blames go S l r ⟨c, []⟩ T := fun h => .inl ⟨rfl, h⟩
  have component : l.former = r.former → ∀ c ∈ l.components.zip r.components, ∀ {T}, S.Onward T →
      Fails (Blames go S l r) (go c.1 c.2) T := fun same c hc T hT =>
    .of_ends hT.solved (hgo _ _ hT.solved) fun h onward => .inr ⟨same, T, hT, onward, c, hc, h⟩
  have undetRight : ∀ {k : Stamp}, r = .undet k → l ≠ .undet k →
      Fails (Blames go S l r) (bindType k l) S := by
    rintro k rfl proper
    exact bindType_fails hS (hr _ (List.mem_singleton_self _)) hl proper fun occurs =>
      here (.recursiveRight occurs proper)
  have differ : l.former ≠ .undetermined ∧ r.former ≠ .undetermined ∧ l.former ≠ r.former →
      Fails (Blames go S l r) (clash (.shapes l r) : Unifier Unit) S := fun differ =>
    .clash hS (here (.shapes differ.1 differ.2.1 differ.2.2))
  cases l with
  | undet k =>
    have bind : r ≠ .undet k → Fails (Blames go S (.undet k) r) (bindType k r) S := fun proper =>
      bindType_fails hS (hl _ (List.mem_singleton_self _)) hr proper fun occurs =>
        here (.recursiveLeft occurs proper)
    cases r with
    | undet k' =>
      rw [shapes]
      split
      · exact .pure hS ()
      · rename_i hk
        exact bind (by simpa using Ne.symm hk)
    | _ => exact bind (by simp)
  | prim name cls =>
    cases r with
    | prim => exact .check hS fun differ => here (.leaves differ)
    | undet => exact undetRight rfl (by simp)
    | _ => exact differ (by simp [Ty.former])
  | var p =>
    cases r with
    | var => exact .check hS fun differ => here (.typeVariables differ)
    | undet => exact undetRight rfl (by simp)
    | _ => exact differ (by simp [Ty.former])
  | tuple ls =>
    cases r with
    | tuple rs =>
      exact .guard hS (fun differ => here (.tupleLengths differ)) fun _ =>
        pairs_fails start (component rfl)
    | undet => exact undetRight rfl (by simp)
    | _ => exact differ (by simp [Ty.former])
  | array l n =>
    cases r with
    | array r m =>
      refine (component rfl (l, r) (List.mem_singleton_self _) start).bind fun _ T onward => ?_
      have lengths := nats_fails onward.solved fun apart => here (.lengths apart)
      exact lengths.bind fun _ T' onward => .pure onward.solved ()
    | undet => exact undetRight rfl (by simp)
    | _ => exact differ (by simp [Ty.former])
  | struct ld ls ns =>
    cases r with
    | struct rd rs ms =>
      refine .guard hS (fun differ => here (.structs differ)) fun _ => ?_
      refine .guard hS (fun differ => here (.typeArgumentCounts differ)) fun _ => ?_
      refine (pairs_fails start (component rfl)).bind fun _ T onward => ?_
      refine .guard onward.solved (fun differ => here (.natArgumentCounts differ)) fun _ => ?_
      exact natPairs_fails onward fun c hc T hT =>
        nats_fails hT.solved fun apart => here (.natArguments hc apart)
    | undet => exact undetRight rfl (by simp)
    | _ => exact differ (by simp [Ty.former])
  | fn ls l lg =>
    cases r with
    | fn rs r rg =>
      refine .guard hS (fun differ => here (.parameterCounts differ)) fun count => ?_
      refine .guard hS (fun differ => here (.generics differ)) fun _ => ?_
      have zipped : (ls.map (·.type) ++ [l]).zip (rs.map (·.type) ++ [r]) =
          (ls.zip rs).map (Prod.map (·.type) (·.type)) ++ [(l, r)] := by
        rw [List.zip_append (by simpa using count), List.zip_map]
        rfl
      have parts := component rfl
      rw [Ty.components, Ty.components, zipped, List.forall_mem_append, List.forall_mem_map,
        List.forall_mem_singleton] at parts
      refine (params_fails start fun i p q hp hq => ⟨fun differ T => ?_, ?_⟩).bind
        fun _ T onward => parts.2 onward
      · rw [Nat.zero_add]
        exact here (.ownership hp hq differ)
      · exact parts.1 (p, q) (List.mem_of_getElem? (List.getElem?_zip_eq_some.mpr ⟨hp, hq⟩))
    | undet => exact undetRight rfl (by simp)
    | _ => exact differ (by simp [Ty.former])
  | option l =>
    cases r with
    | option r => exact component rfl (l, r) (List.mem_singleton_self _) start
    | undet => exact undetRight rfl (by simp)
    | _ => exact differ (by simp [Ty.former])

end Unifier

/-! ## Contexts -/

open Unifier

/-- A pair of types is reached from another one, in a run that starts from `S` and ends with `S'`:
    it is a pair of components that stand at one position, with the substitution of that moment
    applied to them. -/
def ReachedFrom (S S' : Substitution) (p q : Ty × Ty) : Prop :=
  ∃ T, S.Onward T ∧ T.Onward S' ∧
    ∃ c ∈ q.1.components.zip q.2.components, p = (T.apply c.1, T.apply c.2)

theorem ReachedFrom.earlier {S T S' : Substitution} (h : S.Onward T) {p q : Ty × Ty}
    (reached : ReachedFrom T S' p q) : ReachedFrom S S' p q := by
  obtain ⟨T', onward, rest⟩ := reached
  exact ⟨T', h.trans onward, rest⟩

/-- The context of a failure leads from a clash to the two types, in a run that starts from `S` and
    ends with `S'`. -/
structure LeadsToClash (S S' : Substitution) (l r : Ty) (e : UnificationError) : Prop where
  outermost : e.context.getLast? = some (S.apply l, S.apply r)
  innermost : ∃ p ∈ e.context.head?, e.clash.At S' p.1 p.2
  alike : ∀ p ∈ e.context.tail, p.1.former = p.2.former
  chain : e.context.IsChain (ReachedFrom S S')

variable {S T S' : Substitution} {e : UnificationError} {l r : Ty}

theorem LeadsToClash.of_clash (h : e.clash.At S' (S.apply l) (S.apply r)) (none : e.context = []) :
    LeadsToClash S S' l r (e.within (S.apply l) (S.apply r)) := by
  rw [UnificationError.within, none, List.nil_append]
  exact ⟨rfl, ⟨_, rfl, h⟩, List.forall_mem_nil _, List.isChain_singleton _⟩

/-- **One level more**: a failure at a pair of components is a failure at the pair. -/
theorem LeadsToClash.within {c : Ty × Ty} (h : LeadsToClash T S' c.1 c.2 e) (hT : S.Onward T)
    (hS' : T.Onward S') (hc : c ∈ (S.apply l).components.zip (S.apply r).components)
    (same : (S.apply l).former = (S.apply r).former) :
    LeadsToClash S S' l r (e.within (S.apply l) (S.apply r)) := by
  obtain ⟨p, first, clash⟩ := h.innermost
  have nonempty : e.context ≠ [] := by
    rintro empty
    simp [empty] at first
  constructor
  · exact List.getLast?_concat
  · refine ⟨p, ?_, clash⟩
    rw [UnificationError.within, List.head?_append, Option.mem_def.mp first]
    rfl
  · rw [UnificationError.within, List.tail_append_of_ne_nil nonempty]
    exact List.forall_mem_append.mpr ⟨h.alike, List.forall_mem_singleton.mpr same⟩
  · refine List.isChain_append.mpr
      ⟨h.chain.imp fun _ _ => .earlier hT, List.isChain_singleton _, ?_⟩
    rw [h.outermost]
    rintro _ ⟨⟩ _ ⟨⟩
    exact ⟨T, hT, hS', c, hc, rfl⟩

/-- **What a failure says**, unless it is for want of depth. -/
theorem types_eq_error {depth : Nat} (hS : S.Solved)
    (h : types depth l r S = .error e S') (inTime : e.clash ≠ .endless) :
    S.Onward S' ∧ LeadsToClash S S' l r e := by
  induction depth generalizing l r S e with
  | zero =>
    cases h
    exact absurd rfl inTime
  | succ depth ih =>
    have ends : ∀ l r, ∀ {S : Substitution}, S.Solved →
        S.extending.pairs.Ends (types depth l r) S := fun l r S hS =>
      PairInvariant.types_ends hS ⟨.refl hS, .refl hS⟩
    have free : ∀ t : Ty, ∀ v ∈ (S.apply t).vars, ¬ S.Binds v := by
      intro t v hv
      rw [apply_eq] at hv
      exact hS.not_binds hv
    have step := shapes_fails ends hS (free l) (free r)
    rw [Unifier.types] at h
    dsimp only at h
    split at h
    · cases h
    · rename_i failed
      cases h
      obtain ⟨onward, ⟨none, clash⟩ | ⟨same, T, hT, hS', c, hc, deeper⟩⟩ := step.error failed
      · exact ⟨onward, .of_clash clash none⟩
      · exact ⟨onward, (ih hT.solved deeper inTime).2.within hT hS' hc same⟩

/-- **The context of a failure leads to the clash.**  It ends with the two types under the
    substitution that the call started from.  It starts with a pair that clashes by itself, with the
    nats directly below it as they stand under the substitution that the call leaves behind.  All
    other pairs are built by one constructor, and each pair but the last comes from two components
    at one position of the next pair, under a substitution that extends the first one. -/
theorem unify_context_leads_to_clash (hS : S.Solved) (h : unify l r S = .error e S') :
    S.Onward S' ∧ LeadsToClash S S' l r e := by
  have inTime := unify_ne_endless hS h
  rw [unify_eq_returning] at h
  cases run : within (depthBound (S.apply l) (S.apply r)) ⟨l, r, S⟩ with
  | ok _ T =>
    rw [run] at h
    cases h
  | error e' T =>
    rw [run] at h
    cases h
    exact types_eq_error hS run inTime

/-- A depth that a failing run does not exhaust is as good as the bound. -/
theorem unify_eq_error (depth : Nat) (hS : S.Solved) (h : types depth l r S = .error e S')
    (inTime : e.clash ≠ .endless) : unify l r S = .error e S' := by
  have run : within depth ⟨l, r, S⟩ = .error e S' := h
  have ends : Recursion.Ends step ⟨l, r, S⟩ (within depth ⟨l, r, S⟩) := by
    refine ends_of_inTime fun e' T failed => ?_
    rw [run] at failed
    cases failed
    exact inTime
  rw [unify_eq_returning, (ends_of_inTime (within_inTime hS l r)).unique ends, run]
  rfl

/-- The second components clash under what the first ones have been bound to. -/
theorem context_of_second_component :
    let l : Ty := .option (.tuple [.undet 0, .option (.undet 0)])
    let r : Ty := .option (.tuple [.int, .option (.option .int)])
    let e : UnificationError := ⟨.shapes .int (.option .int),
      [(.int, .option .int), (.option .int, .option (.option .int)),
        (.tuple [.undet 0, .option (.undet 0)], .tuple [.int, .option (.option .int)]), (l, r)]⟩
    Solved {} ∧ unify l r {} = .error e (.ofType 0 .int) ∧
      Onward {} (.ofType 0 .int) ∧ LeadsToClash {} (.ofType 0 .int) l r e := by
  intro l r e
  have failed : unify l r {} = .error e (.ofType 0 .int) :=
    unify_eq_error 4 solved_empty (by rfl) (by simp [e])
  exact ⟨solved_empty, failed, unify_context_leads_to_clash solved_empty failed⟩

/-- The inner lengths determine what the outer ones are compared with, after the pair has been
    noted. -/
theorem array_lengths_not_yet_apart :
    let l : Ty := .array (.array .int (.undet 1)) (.undet 1)
    let r : Ty := .array (.array .int (.const 2)) (.const 3)
    ∃ e S', unify (.option l) (.option r) {} = .error e S' ∧ e.context.head? = some (l, r) ∧
      ¬ ∃ c, Clash.At {} c l r := by
  intro l r
  refine ⟨⟨.nats (.const 2) (.const 3), [(l, r), (.option l, .option r)]⟩, .ofNat 1 (.const 2),
    unify_eq_error 4 solved_empty (by rfl) (by simp), rfl, ?_⟩
  rintro ⟨c, clash⟩
  simp only [l, r] at clash
  cases clash with
  | shapes _ _ differ => exact differ rfl
  | lengths apart => exact (apart.2 1).1 rfl

end QuantumStatics
