/-
  Canonical texts tell types up to their stamps.

  The canonical text of a type is the text of the type with its stamps numbered in order of first
  appearance.  A renaming of the stamps that keeps different ones apart does not change the order,
  and so not the text.  The other way round, a number ends where no further digit follows, so the
  numbers can be read off the texts of two types that differ in their stamps only; and sequences of
  stamps that are numbered alike are renamings of each other.

  * `exists_renaming`: what sequences of stamps have in common if they are numbered alike;
  * `Ty.told_text`: the texts of types that differ in their stamps only tell the stamps;
  * `Ty.canonicalText_eq_iff_renamed`: two such types have one canonical text exactly if one is
    obtained from the other by renaming.
-/
import Mathlib.Data.Fintype.EquivFin
import Mathlib.Data.Set.Function
import Mathlib.Logic.Function.Basic
import QuantumStatics.Proofs.Ty.Numbering

namespace QuantumStatics

open Scanning

/-! ## Numbered stamps -/

section Numbers

variable {f : Stamp → Stamp} {k : Stamp} {ks ls : List Stamp}

theorem eraseDups_map (ks : List Stamp) (hf : Set.InjOn f {k | k ∈ ks}) :
    (ks.map f).eraseDups = ks.eraseDups.map f := by
  match ks with
  | [] => rfl
  | k :: ks =>
    have others : (ks.map f).filter (fun b => !b == f k) = (ks.filter fun b => !b == k).map f := by
      rw [List.filter_map]
      refine congrArg (List.map f) (List.filter_congr fun l hl => ?_)
      have : f l = f k ↔ l = k := hf.eq_iff (List.mem_cons_of_mem k hl) List.mem_cons_self
      simp [this, Bool.beq_eq_decide_eq]
    rw [List.map_cons, List.eraseDups_cons, List.eraseDups_cons, others, List.map_cons,
      eraseDups_map _ (hf.mono fun l hl => List.mem_cons_of_mem k (List.mem_filter.mp hl).1)]
termination_by ks.length
decreasing_by exact Nat.lt_succ_of_le (List.length_filter_le _ ks)

theorem nodup_eraseDups (ks : List Stamp) : ks.eraseDups.Nodup := by
  match ks with
  | [] => exact List.nodup_nil
  | k :: ks =>
    rw [List.eraseDups_cons]
    exact List.nodup_cons.mpr ⟨by simp [List.mem_eraseDups], nodup_eraseDups _⟩
termination_by ks.length
decreasing_by exact Nat.lt_succ_of_le (List.length_filter_le _ ks)

theorem idxOf_map (hf : Set.InjOn f {k | k ∈ ks}) (hk : k ∈ ks) :
    (ks.map f).idxOf (f k) = ks.idxOf k := by
  induction ks with
  | nil => cases hk
  | cons l ks ih =>
    have first : f l = f k ↔ l = k := hf.eq_iff List.mem_cons_self hk
    rw [List.map_cons, List.idxOf_cons, List.idxOf_cons]
    by_cases h : l = k
    · simp [h]
    · have hk : k ∈ ks := (List.mem_cons.mp hk).resolve_left (Ne.symm h)
      rw [beq_false_of_ne h, beq_false_of_ne (mt first.mp h),
        ih (hf.mono fun l hl => List.mem_cons_of_mem _ hl) hk]

/-- The number of a stamp does not depend on how the stamps are chosen. -/
theorem numberIn_map (hf : Set.InjOn f {k | k ∈ ks}) (hk : k ∈ ks) :
    numberIn (ks.map f) (f k) = numberIn ks k := by
  rw [numberIn, eraseDups_map ks hf,
    idxOf_map (hf.mono fun l hl => List.mem_eraseDups.mp hl) (List.mem_eraseDups.mpr hk), numberIn]

theorem injOn_numberIn (ks : List Stamp) : Set.InjOn (numberIn ks) {k | k ∈ ks} := by
  -- There are no more different stamps than there are numbers.
  have small : ∀ {k}, k ∈ ks → ks.eraseDups.idxOf k < UInt64.size := by
    intro k hk
    have index := List.idxOf_lt_length_of_mem (List.mem_eraseDups.mpr hk)
    have bound := ((nodup_eraseDups ks).map fun _ _ => UInt64.toFin_inj.mp).length_le_card
    rw [List.length_map, Fintype.card_fin] at bound
    exact index.trans_le bound
  intro k hk l hl h
  have index : ks.eraseDups.idxOf k = ks.eraseDups.idxOf l := calc
    _ = (numberIn ks k).toNat := (UInt64.toNat_ofNat_of_lt' (small hk)).symm
    _ = (numberIn ks l).toNat := congrArg UInt64.toNat h
    _ = _ := UInt64.toNat_ofNat_of_lt' (small hl)
  exact (List.idxOf_inj (List.mem_eraseDups.mpr hk)).mp index

theorem exists_renaming (h : ks.map (numberIn ks) = ls.map (numberIn ls)) :
    ∃ back : Stamp → Stamp, (∀ l ∈ ls, back (numberIn ls l) = l) ∧
      Set.InjOn (back ∘ numberIn ks) {k | k ∈ ks} := by
  let back := Function.invFunOn (numberIn ls) {l | l ∈ ls}
  have inverse : ∀ l ∈ ls, back (numberIn ls l) = l :=
    fun l hl => (injOn_numberIn ls).leftInvOn_invFunOn hl
  refine ⟨back, inverse, fun k hk k' hk' same => injOn_numberIn ks hk hk' ?_⟩
  have number : ∀ {k}, k ∈ ks → ∃ l ∈ ls, numberIn ls l = numberIn ks k :=
    fun hk => List.mem_map.mp (h ▸ List.mem_map_of_mem hk)
  obtain ⟨l, hl, first⟩ := number hk
  obtain ⟨l', hl', second⟩ := number hk'
  rw [Function.comp, Function.comp, ← first, ← second, inverse l hl, inverse l' hl'] at same
  rw [← first, ← second, same]

end Numbers

/-! ## Renamed types -/

/-- Renames the stamp of an undetermined type or nat. -/
def Var.restamp (f g : Stamp → Stamp) : Var → Var
  | undetType k => undetType (f k)
  | undetNat k => undetNat (g k)
  | v => v

namespace Ty

variable {f f' g g' : Stamp → Stamp} {t u : Ty}

/-- The stamps of the undetermined types in a type, in the order in which they are printed. -/
def typeStamps (t : Ty) : List Stamp := t.vars.filterMap Var.typeStamp?

/-- The stamps of the undetermined nats in a type, in the order in which they are printed. -/
def natStamps (t : Ty) : List Stamp := t.vars.filterMap Var.natStamp?

theorem vars_restamp (t : Ty) : (t.restamp f g).vars = t.vars.map (Var.restamp f g) := by
  have nat : ∀ n : NatTerm, (n.restamp g).vars = n.vars.map (Var.restamp f g) := by
    intro n
    cases n <;> rfl
  have bound : ∀ {generics : Generics} {v : Var},
      (v.restamp f g).boundBy generics = v.boundBy generics := by
    intro generics v
    cases v <;> rfl
  induction t with
  | prim | var | undet => rfl
  | tuple elems ih =>
    simp only [restamp, restampAll_eq, vars, varsAll_eq, List.flatMap_map, List.map_flatMap]
    exact List.flatMap_congr ih
  | array elem length ih => simp [restamp, vars, ih, nat]
  | struct decl typeArgs natArgs ih =>
    simp only [restamp, restampAll_eq, vars, varsAll_eq, List.flatMap_map, List.map_flatMap,
      List.map_append, nat]
    rw [List.flatMap_congr ih]
  | fn params result generics ihp ihr =>
    simp only [restamp, restampParams_eq, vars, varsParams_eq, List.flatMap_map, ihr]
    rw [List.flatMap_congr ihp, ← List.map_flatMap, ← List.map_append, List.filter_map]
    simp only [Function.comp_def, bound]
  | option inner ih => simpa [restamp, vars] using ih

theorem typeStamps_restamp (t : Ty) : (t.restamp f g).typeStamps = t.typeStamps.map f := by
  rw [typeStamps, vars_restamp, List.filterMap_map, typeStamps, List.map_filterMap]
  refine List.filterMap_congr fun v _ => ?_
  cases v <;> rfl

theorem natStamps_restamp (t : Ty) : (t.restamp f g).natStamps = t.natStamps.map g := by
  rw [natStamps, vars_restamp, List.filterMap_map, natStamps, List.map_filterMap]
  refine List.filterMap_congr fun v _ => ?_
  cases v <;> rfl

/-- Renaming twice is renaming once, as far as the stamps of the type are concerned. -/
theorem restamp_restamp {f'' g'' : Stamp → Stamp}
    (h : ∀ v ∈ t.vars, (v.restamp f g).restamp f' g' = v.restamp f'' g'') :
    (t.restamp f g).restamp f' g' = t.restamp f'' g'' := by
  have nat : ∀ {n : NatTerm}, (∀ v ∈ n.vars, (v.restamp f g).restamp f' g' = v.restamp f'' g'') →
      (n.restamp g).restamp g' = n.restamp g'' := by
    intro n hn
    cases n with
    | undet k => exact congrArg NatTerm.undet (Var.undetNat.inj (hn _ List.mem_cons_self))
    | _ => rfl
  induction t with
  | prim | var => rfl
  | undet k => exact congrArg undet (Var.undetType.inj (h _ List.mem_cons_self))
  | tuple elems ih =>
    rw [vars, varsAll_eq, List.forall_mem_flatMap] at h
    simpa [restamp] using fun t ht => ih t ht (h t ht)
  | array elem length ih =>
    rw [vars, List.forall_mem_append] at h
    simp [restamp, ih h.1, nat h.2]
  | struct decl typeArgs natArgs ih =>
    rw [vars, varsAll_eq, List.forall_mem_append, List.forall_mem_flatMap,
      List.forall_mem_flatMap] at h
    simpa [restamp] using ⟨fun t ht => ih t ht (h.1 t ht), fun n hn => nat (h.2 n hn)⟩
  | fn params result generics ihp ihr =>
    -- Stamps are not bound by the type.
    have h : ∀ v ∈ varsParams params ++ result.vars,
        (v.restamp f g).restamp f' g' = v.restamp f'' g'' := by
      intro v hv
      cases v with
      | type | nat => rfl
      | undetType | undetNat => exact h _ (List.mem_filter.mpr ⟨hv, rfl⟩)
    rw [varsParams_eq, List.forall_mem_append, List.forall_mem_flatMap] at h
    simpa [restamp, ihr h.2] using fun p hp => ihp p hp (h.1 p hp)
  | option inner ih => simp [restamp, ih h]

theorem restamp_id (t : Ty) : t.restamp id id = t := by
  have nat : ∀ n : NatTerm, n.restamp id = n := by
    intro n
    cases n <;> rfl
  induction t with
  | prim | var | undet => rfl
  | tuple elems ih => simp [restamp, List.map_congr_left ih]
  | array elem length ih => simp [restamp, ih, nat]
  | struct decl typeArgs natArgs ih =>
    simp [restamp, List.map_congr_left ih, List.map_congr_left fun n _ => nat n]
  | fn params result generics ihp ihr =>
    have same : params.map (fun p => ParamType.mk (p.type.restamp id id) p.ownership) =
        params.map id := List.map_congr_left fun p hp => by rw [ihp p hp]; cases p; rfl
    simp [restamp, ihr, same]
  | option inner ih => simp [restamp, ih]

end Ty

/-! ## Erased stamps -/

/-- A nat without its stamp. -/
def NatTerm.erased : NatTerm → NatTerm
  | .undet _ => .undet 0
  | n => n

namespace Ty

mutual

/-- A type without its stamps: what types have in common that differ in their stamps only. -/
def erased : Ty → Ty
  | .prim name cls => .prim name cls
  | .var p => .var p
  | .undet _ => .undet 0
  | .tuple elems => .tuple (erasedAll elems)
  | .array elem length => .array elem.erased length.erased
  | .struct decl typeArgs natArgs =>
    .struct decl (erasedAll typeArgs) (natArgs.map NatTerm.erased)
  | .fn params result generics => .fn (erasedParams params) result.erased generics
  | .option inner => .option inner.erased

/-- Some types without their stamps. -/
def erasedAll : List Ty → List Ty
  | [] => []
  | t :: ts => t.erased :: erasedAll ts

/-- The parameters of a function type without their stamps. -/
def erasedParams : List ParamType → List ParamType
  | [] => []
  | ⟨t, ownership⟩ :: ps => ⟨t.erased, ownership⟩ :: erasedParams ps

end

@[simp] theorem erasedAll_eq (ts : List Ty) : erasedAll ts = ts.map erased :=
  companion_eq_map rfl (fun _ _ => rfl) ts

@[simp] theorem erasedParams_eq (ps : List ParamType) :
    erasedParams ps = ps.map fun p => ⟨p.type.erased, p.ownership⟩ := by
  refine companion_eq_map rfl ?_ ps
  rintro ⟨t, ownership⟩ ps
  rfl

theorem erased_restamp {f g : Stamp → Stamp} (t : Ty) : (t.restamp f g).erased = t.erased := by
  have nat : ∀ n : NatTerm, (n.restamp g).erased = n.erased := by
    intro n
    cases n <;> rfl
  induction t with
  | prim | var | undet => rfl
  | tuple elems ih => simpa [restamp, erased] using ih
  | array elem length ih => simp [restamp, erased, ih, nat]
  | struct decl typeArgs natArgs ih => simpa [restamp, erased, nat] using ih
  | fn params result generics ihp ihr => simpa [restamp, erased, ihr] using ihp
  | option inner ih => simp [restamp, erased, ih]

end Ty

/-! ## Reading the stamps -/

/-- A text that no number goes on with. -/
def Quiet (r : List Char) : Prop := ∀ c ∈ r.head?, c.isDigit = false

/-- Two texts tell a fact: whatever may follow them, they are the same only if it holds. -/
def Told (w v : List Char) (fact : Prop) : Prop :=
  ∀ r r', Quiet r → Quiet r' → w ++ r = v ++ r' → fact ∧ r = r'

theorem quiet_nil : Quiet [] := fun _ h => by cases h

theorem quiet_cons {c : Char} (h : c.isDigit = false) (r : List Char) : Quiet (c :: r) := by
  rintro _ ⟨⟩
  exact h

namespace Told

variable {w v w' v' : List Char} {P Q : Prop}

theorem mono (h : Told w v P) (hPQ : P → Q) : Told w v Q := fun r r' hr hr' e =>
  (h r r' hr hr' e).imp_left hPQ

theorem same (w : List Char) (h : P) : Told w w P := fun _ _ _ _ e => ⟨h, List.append_cancel_left e⟩

theorem behind (z : List Char) (h : Told w v P) : Told (z ++ w) (z ++ v) P := by
  intro r r' hr hr' e
  rw [List.append_assoc, List.append_assoc] at e
  exact h r r' hr hr' (List.append_cancel_left e)

/-- One text behind the other, with something in between that ends numbers. -/
theorem append {c : Char} (h : Told w v P) (hc : c.isDigit = false) (h' : Told w' v' Q) :
    Told (w ++ c :: w') (v ++ c :: v') (P ∧ Q) := by
  intro r r' hr hr' e
  rw [List.append_assoc, List.append_assoc] at e
  obtain ⟨hP, e⟩ := h _ _ (quiet_cons hc _) (quiet_cons hc _) e
  obtain ⟨hQ, rfl⟩ := h' r r' hr hr' (List.cons.inj e).2
  exact ⟨⟨hP, hQ⟩, rfl⟩

theorem ended {c : Char} (h : Told w v P) (hc : c.isDigit = false) (z : List Char) :
    Told (w ++ c :: z) (v ++ c :: z) P :=
  (h.append hc (.same z trivial)).mono And.left

/-- **A number tells itself**, unless there is another digit behind it. -/
theorem number (k k' : UInt64) : Told (toString k).toList (toString k').toList (k = k') := by
  have digits : ∀ (k : UInt64) r, Quiet r →
      ((toString k).toList ++ r).takeWhile (·.isDigit) = (toString k).toList := by
    intro k r hr
    have all : ∀ c ∈ (toString k).toList, c.isDigit := fun c hc =>
      Nat.isDigit_of_mem_toDigits (by decide) (by decide) (Nat.toList_repr ▸ hc)
    rw [List.takeWhile_append_of_pos all]
    cases r with
    | nil => simp
    | cons c r => simp [hr c rfl]
  intro r r' hr hr' e
  have number : (toString k).toList = (toString k').toList := by
    rw [← digits k r hr, e, digits k' r' hr']
  rw [number] at e
  exact ⟨toString_inj (String.toList_inj.mp number), List.append_cancel_left e⟩

section Items

variable {α β : Type} {τ : α → List Char} {as bs : List α}

/-- The items of two lists, if each item tells itself among those that look like it. -/
theorem items {ε : α → β} (h : ∀ a ∈ as, ∀ b, ε a = ε b → Told (τ a) (τ b) (a = b))
    (alike : as.map ε = bs.map ε) :
    Told ([',', ' '].intercalate (as.map τ)) ([',', ' '].intercalate (bs.map τ)) (as = bs) := by
  induction as generalizing bs with
  | nil =>
    cases List.map_eq_nil_iff.mp alike.symm
    exact .same [] rfl
  | cons a as ih =>
    obtain ⟨b, bs, rfl, first, others⟩ := List.map_eq_cons_iff.mp alike.symm
    obtain ⟨ha, has⟩ := List.forall_mem_cons.mp h
    cases as with
    | nil =>
      cases List.map_eq_nil_iff.mp others
      simpa using ha b first.symm
    | cons a' as =>
      obtain ⟨b', bs, rfl, -, -⟩ := List.map_eq_cons_iff.mp others
      have rest := (ih has others.symm).behind [' ']
      simpa [List.intercalate_cons_cons] using
        (ha b first.symm).append (by decide : ','.isDigit = false) rest

theorem bracketed {τ : α → String} {σ : β → String} {as as' : List α} {bs bs' : List β}
    (ha : Told ([',', ' '].intercalate (as.map fun a => (τ a).toList))
      ([',', ' '].intercalate (as'.map fun a => (τ a).toList)) P)
    (hb : Told ([',', ' '].intercalate (bs.map fun b => (σ b).toList))
      ([',', ' '].intercalate (bs'.map fun b => (σ b).toList)) Q)
    (same : as.length = as'.length) (same' : bs.length = bs'.length) :
    Told (QuantumStatics.bracketed (as.map τ) (bs.map σ)).toList
      (QuantumStatics.bracketed (as'.map τ) (bs'.map σ)).toList (P ∧ Q) := by
  have closing : ']'.isDigit = false := by decide
  have types : as = [] ↔ as' = [] := by
    rw [← List.length_eq_zero_iff, same, List.length_eq_zero_iff]
  have nats : bs = [] ↔ bs' = [] := by
    rw [← List.length_eq_zero_iff, same', List.length_eq_zero_iff]
  simp only [toList_bracketed, behindTypes, List.map_eq_nil_iff, types, nats, List.map_map]
  split
  · have hP := (ha [] [] quiet_nil quiet_nil (by simp_all)).1
    split
    · exact .same [] ⟨hP, (hb [] [] quiet_nil quiet_nil (by simp_all)).1⟩
    · exact ((hb.ended closing []).behind ['[']).mono fun hQ => ⟨hP, hQ⟩
  · split
    · exact ((ha.ended closing []).behind ['[']).mono fun hP =>
        ⟨hP, (hb [] [] quiet_nil quiet_nil (by simp_all)).1⟩
    · exact (ha.append (c := ';') (by decide) ((hb.ended closing []).behind [' '])).behind ['[']

end Items

end Told

namespace Ty

variable {f g : Stamp → Stamp} {t u : Ty}

theorem told_nat {n n' : NatTerm} (h : n.erased = n'.erased) :
    Told n.text.toList n'.text.toList (n = n') := by
  cases n with
  | undet k =>
    cases n' with
    | undet k' =>
      rw [NatTerm.text, NatTerm.text, String.toList_append, String.toList_append]
      exact ((Told.number k k').behind _).mono (congrArg NatTerm.undet)
    | _ => cases h
  | const | var => cases n' <;> cases h; exact .same _ rfl

theorem told_text {t u : Ty} (h : t.erased = u.erased) :
    Told t.text.toList u.text.toList (t = u) := by
  induction t generalizing u with
  | prim | var => cases u <;> cases h; exact .same _ rfl
  | undet k =>
    cases u with
    | undet k' =>
      rw [text, text, String.toList_append, String.toList_append]
      exact ((Told.number k k').behind _).mono (congrArg undet)
    | _ => simp [erased] at h
  | tuple elems ih =>
    cases u with
    | tuple elems' =>
      simp only [erased, erasedAll_eq, tuple.injEq] at h
      have length : elems.length = elems'.length := by simpa using congrArg List.length h
      have elems := (Told.items (τ := fun t => t.text.toList) (fun t ht _ => ih t ht) h).mono
        (congrArg tuple)
      rw [toList_text_tuple, toList_text_tuple, length]
      split
      · exact (elems.ended (by decide) _).behind ['(']
      · exact (elems.ended (by decide) _).behind ['(']
    | _ => simp [erased] at h
  | array elem length ih =>
    cases u with
    | array elem' length' =>
      simp only [erased, array.injEq] at h
      have args := (ih h.1).append (c := ',') (by decide) ((told_nat h.2).behind [' '])
      have brackets := ((args.ended (c := ']') (by decide) []).behind ['[']).behind "array".toList
      rw [toList_text_array, toList_text_array, array.injEq]
      simpa using brackets
    | _ => simp [erased] at h
  | struct decl typeArgs natArgs ih =>
    cases u with
    | struct decl' typeArgs' natArgs' =>
      simp only [erased, erasedAll_eq, struct.injEq] at h
      obtain ⟨rfl, types, nats⟩ := h
      have args := Told.bracketed (τ := text) (σ := NatTerm.text)
        (.items (fun t ht _ => ih t ht) types) (.items (fun _ _ _ => told_nat) nats)
        (by simpa using congrArg List.length types) (by simpa using congrArg List.length nats)
      rw [toList_text_struct, toList_text_struct]
      exact (args.behind _).mono fun h => by rw [h.1, h.2]
    | _ => simp [erased] at h
  | fn params result generics ihp ihr =>
    cases u with
    | fn params' result' generics' =>
      simp only [erased, erasedParams_eq, fn.injEq] at h
      obtain ⟨types, result, rfl⟩ := h
      have param : ∀ p ∈ params, ∀ p' : ParamType,
          ParamType.mk p.type.erased p.ownership = ⟨p'.type.erased, p'.ownership⟩ →
          Told (paramText p).toList (paramText p').toList (p = p') := by
        intro p hp p' h
        obtain ⟨type, same⟩ := ParamType.mk.inj h
        obtain ⟨t, o⟩ := p
        obtain ⟨t', o'⟩ := p'
        cases same
        have text := (ihp _ hp type).mono fun h => congrArg (ParamType.mk · o) h
        cases o with
        | owned => simpa [paramText] using text.ended (c := ' ') (by decide) "@owned".toList
        | borrowed => simpa [paramText] using text
      rw [toList_text_fn, toList_text_fn]
      have arrow := (ihr result).behind " -> ".toList
      have texts := (Told.items param types).append (c := ')') (by decide) arrow
      exact ((texts.behind ['(']).behind _).mono fun h => by rw [h.1, h.2]
    | _ => simp [erased] at h
  | option inner ih =>
    cases u with
    | option inner' =>
      simp only [erased, option.injEq] at h
      have brackets := ((ih h).ended (c := ']') (by decide) []).behind ['[']
      rw [toList_text_option, toList_text_option]
      exact (brackets.behind _).mono (congrArg option)
    | _ => simp [erased] at h

/-- Renamings that keep the different stamps of a type apart. -/
structure Renames (f g : Stamp → Stamp) (t : Ty) : Prop where
  types : Set.InjOn f {k | k ∈ t.typeStamps}
  nats : Set.InjOn g {k | k ∈ t.natStamps}

theorem mem_typeStamps {k : Stamp} : k ∈ t.typeStamps ↔ .undetType k ∈ t.vars := by
  refine List.mem_filterMap.trans ⟨?_, fun h => ⟨_, h, rfl⟩⟩
  rintro ⟨v, hv, h⟩
  cases v <;> cases h
  exact hv

theorem mem_natStamps {k : Stamp} : k ∈ t.natStamps ↔ .undetNat k ∈ t.vars := by
  refine List.mem_filterMap.trans ⟨?_, fun h => ⟨_, h, rfl⟩⟩
  rintro ⟨v, hv, h⟩
  cases v <;> cases h
  exact hv

theorem Renames.numbered (h : t.Renames f g) : (t.restamp f g).numbered = t.numbered := by
  refine restamp_restamp fun v hv => ?_
  cases v with
  | type | nat => rfl
  | undetType k =>
    have number := numberIn_map h.types (mem_typeStamps.mpr hv)
    rw [← typeStamps_restamp] at number
    exact congrArg Var.undetType number
  | undetNat k =>
    have number := numberIn_map h.nats (mem_natStamps.mpr hv)
    rw [← natStamps_restamp] at number
    exact congrArg Var.undetNat number

theorem exists_renames (h : t.numbered = u.numbered) :
    ∃ f g, t.Renames f g ∧ u = t.restamp f g := by
  have types := congrArg typeStamps h
  have nats := congrArg natStamps h
  rw [numbered, numbered, typeStamps_restamp, typeStamps_restamp] at types
  rw [numbered, numbered, natStamps_restamp, natStamps_restamp] at nats
  obtain ⟨f, hf, injf⟩ := exists_renaming types
  obtain ⟨g, hg, injg⟩ := exists_renaming nats
  refine ⟨_, _, ⟨injf, injg⟩, ?_⟩
  calc
    u = u.restamp id id := (restamp_id u).symm
    _ = u.numbered.restamp f g := by
      refine (restamp_restamp fun v hv => ?_).symm
      cases v with
      | type | nat => rfl
      | undetType k => exact congrArg Var.undetType (hf k (mem_typeStamps.mpr hv))
      | undetNat k => exact congrArg Var.undetNat (hg k (mem_natStamps.mpr hv))
    _ = t.numbered.restamp f g := by rw [h]
    _ = _ := restamp_restamp fun v _ => by cases v <;> rfl

/-- **The canonical text tells a type up to the choice of stamps.**  Writing a type in one pass that
    hands out numbers gives the text of the type with its stamps numbered from zero in order of
    first appearance.  So two types that differ in their stamps only have one canonical text exactly
    if one is obtained from the other by a renaming of the stamps of undetermined types and one of
    the stamps of undetermined nats, which both keep different stamps apart. -/
theorem canonicalText_eq_iff_renamed (t u : Ty) :
    t.canonicalText = t.numbered.text ∧
      ((t.erased = u.erased ∧ t.canonicalText = u.canonicalText) ↔
        ∃ f g, t.Renames f g ∧ u = t.restamp f g) := by
  refine ⟨canonicalText_eq t, ?_, ?_⟩
  · rintro ⟨alike, texts⟩
    have erased : t.numbered.erased = u.numbered.erased := by
      rw [numbered, numbered, erased_restamp, erased_restamp, alike]
    refine exists_renames (told_text erased [] [] quiet_nil quiet_nil ?_).1
    rw [canonicalText_eq, canonicalText_eq] at texts
    rw [texts]
  · rintro ⟨f, g, renames, rfl⟩
    rw [canonicalText_eq, canonicalText_eq, renames.numbered]
    exact ⟨(erased_restamp t).symm, rfl⟩

example :
    let t := tuple [undet 4, undet 3, array (undet 4) (.undet 5)]
    t.text = "('~4, '~3, array['~4, '#5])" ∧ t.canonicalText = "('~0, '~1, array['~0, '#0])" :=
  ⟨rfl, rfl⟩

end Ty

end QuantumStatics
