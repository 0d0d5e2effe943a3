/-
  The canonical text is the text of a renamed type.

  The canonical text is written in one pass, which gives a number to each stamp that it has not come
  across before.  At every point of the pass the numbers are those of the stamps met so far in order
  of first appearance (`Numbering.Counts`), and what is written stays right when later stamps are
  numbered (`Writes`).  So the text is that of the type with each stamp renamed to its number.

  * `Ty.canonicalText_eq`: the canonical text of a type is the text of the type with its stamps
    numbered.
-/
import Mathlib.Data.List.Basic
import QuantumStatics.Proofs.Ty.Text

namespace QuantumStatics

/-! ## Renamed types -/

/-- Renames the stamp of an undetermined nat. -/
def NatTerm.restamp (g : Stamp → Stamp) : NatTerm → NatTerm
  | .undet stamp => .undet (g stamp)
  | n => n

namespace Ty

mutual

/-- Renames the stamps of undetermined types by `f` and those of undetermined nats by `g`. -/
def restamp (f g : Stamp → Stamp) : Ty → Ty
  | .prim name cls => .prim name cls
  | .var p => .var p
  | .undet stamp => .undet (f stamp)
  | .tuple elems => .tuple (restampAll f g elems)
  | .array elem length => .array (elem.restamp f g) (length.restamp g)
  | .struct decl typeArgs natArgs =>
    .struct decl (restampAll f g typeArgs) (natArgs.map (NatTerm.restamp g))
  | .fn params result generics => .fn (restampParams f g params) (result.restamp f g) generics
  | .option inner => .option (inner.restamp f g)

/-- Renames the stamps in some types. -/
def restampAll (f g : Stamp → Stamp) : List Ty → List Ty
  | [] => []
  | t :: ts => t.restamp f g :: restampAll f g ts

/-- Renames the stamps in the parameters of a function type. -/
def restampParams (f g : Stamp → Stamp) : List ParamType → List ParamType
  | [] => []
  | ⟨t, ownership⟩ :: ps => ⟨t.restamp f g, ownership⟩ :: restampParams f g ps

end

@[simp] theorem restampAll_eq {f g : Stamp → Stamp} (ts : List Ty) :
    restampAll f g ts = ts.map (restamp f g) :=
  companion_eq_map rfl (fun _ _ => rfl) ts

@[simp] theorem restampParams_eq {f g : Stamp → Stamp} (ps : List ParamType) :
    restampParams f g ps = ps.map fun p => ⟨p.type.restamp f g, p.ownership⟩ := by
  refine companion_eq_map rfl ?_ ps
  rintro ⟨t, ownership⟩ ps
  rfl

end Ty

/-! ## Numbers in order of first appearance -/

/-- The number of a stamp among the different stamps of a list, counted from zero in order of first
    appearance. -/
def numberIn (ks : List Stamp) (k : Stamp) : Stamp := (ks.eraseDups.idxOf k).toUInt64

/-- The number of the stamp of an undetermined type among some variables. -/
def typeNumber (vs : List Var) : Stamp → Stamp := numberIn (vs.filterMap Var.typeStamp?)

/-- The number of the stamp of an undetermined nat among some variables. -/
def natNumber (vs : List Var) : Stamp → Stamp := numberIn (vs.filterMap Var.natStamp?)

/-- The type with its stamps numbered in order of first appearance. -/
def Ty.numbered (t : Ty) : Ty := t.restamp (typeNumber t.vars) (natNumber t.vars)

/-- The numbers in the dictionary are those of the stamps `ks`. -/
structure Counted (d : Dict Stamp Stamp) (ks : List Stamp) : Prop where
  size : d.size = ks.eraseDups.length
  get? : ∀ k, d.get? k = if k ∈ ks then some (numberIn ks k) else none

section Numbers

variable {k : Stamp} {ks : List Stamp}

/-- A number once given stays. -/
theorem numberIn_append (hk : k ∈ ks) (ls : List Stamp) :
    numberIn (ks ++ ls) k = numberIn ks k := by
  have mem : k ∈ ks.eraseDups := List.mem_eraseDups.mpr hk
  rw [numberIn, List.eraseDups_append, List.idxOf_append_of_mem mem, numberIn]

theorem eraseDups_append_of_mem (hk : k ∈ ks) : (ks ++ [k]).eraseDups = ks.eraseDups := by
  simp [List.eraseDups_append, List.removeAll, hk]

theorem eraseDups_append_of_not_mem (hk : k ∉ ks) :
    (ks ++ [k]).eraseDups = ks.eraseDups ++ [k] := by
  simp [List.eraseDups_append, List.removeAll, hk, List.eraseDups_cons]

theorem numberIn_new (hk : k ∉ ks) : numberIn (ks ++ [k]) k = ks.eraseDups.length.toUInt64 := by
  rw [numberIn, eraseDups_append_of_not_mem hk, List.idxOf_append,
    if_neg (mt List.mem_eraseDups.mp hk), List.idxOf_cons_self, Nat.zero_add]

theorem Counted.numberStamp {d : Dict Stamp Stamp} (h : Counted d ks) (k : Stamp) :
    (numberStamp d k).1 = numberIn (ks ++ [k]) k ∧ Counted (numberStamp d k).2 (ks ++ [k]) := by
  have look := h.get? k
  by_cases hk : k ∈ ks
  · rw [if_pos hk] at look
    simp only [QuantumStatics.numberStamp, look]
    refine ⟨(numberIn_append hk [k]).symm, ?_, fun l => ?_⟩
    · rw [h.size, eraseDups_append_of_mem hk]
    · have mem : l ∈ ks ++ [k] ↔ l ∈ ks := by grind
      simp only [h.get? l, mem, numberIn, eraseDups_append_of_mem hk]
  · rw [if_neg hk] at look
    simp only [QuantumStatics.numberStamp, look]
    rw [numberIn_new hk, h.size]
    refine ⟨rfl, ?_, fun l => ?_⟩
    · rw [Dict.size_insert look, h.size, eraseDups_append_of_not_mem hk, List.length_append,
        List.length_singleton]
    · rw [Dict.get?_insert, h.get? l]
      by_cases hl : l = k
      · simp [hl, numberIn_new hk]
      · by_cases mem : l ∈ ks
        · simp [hl, mem, numberIn_append mem]
        · simp [hl, mem]

end Numbers

/-! ## The pass -/

/-- The numbers given so far are those of the stamps among the variables `us`. -/
structure Numbering.Counts (s : Numbering) (us : List Var) : Prop where
  types : Counted s.types (us.filterMap Var.typeStamp?)
  nats : Counted s.nats (us.filterMap Var.natStamp?)

/-- Writing `x` comes across the variables `vs` and gives what `value` says, for the numbers that
    the stamps have at its end or at any later point. -/
def Writes {α : Type} (x : StateM Numbering α) (vs : List Var)
    (value : (Stamp → Stamp) → (Stamp → Stamp) → α) : Prop :=
  ∀ s us, s.Counts us → (x s).2.Counts (us ++ vs) ∧
    ∀ ws, (x s).1 = value (typeNumber (us ++ vs ++ ws)) (natNumber (us ++ vs ++ ws))

namespace Writes

variable {α β : Type} {x : StateM Numbering α} {vs ws : List Var}
  {value : (Stamp → Stamp) → (Stamp → Stamp) → α}

theorem ret (a : α) : Writes (pure a) [] fun _ _ => a := by
  intro s us hs
  rw [List.append_nil]
  exact ⟨hs, fun _ => rfl⟩

theorem bind {y : α → StateM Numbering β} {value' : α → (Stamp → Stamp) → (Stamp → Stamp) → β}
    (hx : Writes x vs value) (hy : ∀ a, Writes (y a) ws (value' a)) :
    Writes (x >>= y) (vs ++ ws) fun f g => value' (value f g) f g := by
  intro s us hs
  obtain ⟨hs, first⟩ := hx s us hs
  obtain ⟨hs, second⟩ := hy (x s).1 (x s).2 _ hs
  rw [← List.append_assoc]
  refine ⟨hs, fun zs => ?_⟩
  have first := first (ws ++ zs)
  rw [← List.append_assoc] at first
  exact (second zs).trans (by rw [first])

theorem map (hx : Writes x vs value) (F : α → β) :
    Writes (x >>= fun a => pure (F a)) vs fun f g => F (value f g) := by
  simpa using hx.bind fun a => ret (F a)

/-- Only the stamps among the variables matter. -/
theorem congr (hx : Writes x vs value)
    (types : vs.filterMap Var.typeStamp? = ws.filterMap Var.typeStamp?)
    (nats : vs.filterMap Var.natStamp? = ws.filterMap Var.natStamp?) : Writes x ws value := by
  intro s us hs
  obtain ⟨⟨hts, hns⟩, eq⟩ := hx s us hs
  refine ⟨⟨?_, ?_⟩, fun zs => (eq zs).trans ?_⟩
  · simpa [types] using hts
  · simpa [nats] using hns
  · simp [typeNumber, natNumber, types, nats]

/-- Stamps are not bound by generic parameters. -/
theorem free (hx : Writes x vs value) (generics : Generics) :
    Writes x (vs.filter fun v => !v.boundBy generics) value := by
  refine hx.congr ?_ ?_
  all_goals
    rw [List.filterMap_filter]
    refine List.filterMap_congr fun v _ => ?_
    cases v <;> simp [Var.boundBy, Var.typeStamp?, Var.natStamp?]

theorem list {as : List β} {x : β → StateM Numbering α} {vs : β → List Var}
    {value : β → (Stamp → Stamp) → (Stamp → Stamp) → α}
    (h : ∀ a ∈ as, Writes (x a) (vs a) (value a)) :
    Writes (as.mapM x) (as.flatMap vs) fun f g => as.map fun a => value a f g := by
  induction as with
  | nil => exact ret []
  | cons a as ih =>
    obtain ⟨ha, has⟩ := List.forall_mem_cons.mp h
    rw [List.mapM_cons]
    exact ha.bind fun b => (ih has).map (b :: ·)

theorem type (k : Stamp) : Writes (numberType k) [.undetType k] fun f _ => f k := by
  intro s us hs
  obtain ⟨number, counted⟩ := hs.types.numberStamp k
  have types : (us ++ [Var.undetType k]).filterMap Var.typeStamp? =
      us.filterMap Var.typeStamp? ++ [k] := List.filterMap_append
  have nats : (us ++ [Var.undetType k]).filterMap Var.natStamp? = us.filterMap Var.natStamp? := by
    simp [Var.natStamp?]
  refine ⟨⟨types ▸ counted, nats ▸ hs.nats⟩, fun zs => number.trans ?_⟩
  rw [typeNumber, List.filterMap_append, types]
  exact (numberIn_append (by simp) _).symm

theorem nat (k : Stamp) : Writes (numberNat k) [.undetNat k] fun _ g => g k := by
  intro s us hs
  obtain ⟨number, counted⟩ := hs.nats.numberStamp k
  have types : (us ++ [Var.undetNat k]).filterMap Var.typeStamp? = us.filterMap Var.typeStamp? := by
    simp [Var.typeStamp?]
  have nats : (us ++ [Var.undetNat k]).filterMap Var.natStamp? =
      us.filterMap Var.natStamp? ++ [k] := List.filterMap_append
  refine ⟨⟨types ▸ hs.types, nats ▸ counted⟩, fun zs => number.trans ?_⟩
  rw [natNumber, List.filterMap_append, nats]
  exact (numberIn_append (by simp) _).symm

end Writes

theorem NatTerm.writes_print (n : NatTerm) :
    Writes n.print n.vars fun _ g => (n.restamp g).text := by
  cases n with
  | const | var => exact (Writes.ret _).congr rfl rfl
  | undet k => exact (Writes.nat k).map fun number => "'#" ++ toString number

namespace Ty

theorem printAll_eq (ts : List Ty) : printAll ts = ts.mapM print := by
  induction ts with
  | nil => rfl
  | cons t ts ih => rw [printAll, ih, List.mapM_cons]

theorem printParams_eq (ps : List ParamType) : printParams ps = ps.mapM fun p => do
    return (← p.type.print) ++ (if p.ownership = .owned then " @owned" else "") := by
  induction ps with
  | nil => rfl
  | cons p ps ih =>
    obtain ⟨t, ownership⟩ := p
    rw [printParams, ih, List.mapM_cons]
    simp

theorem writes_print (t : Ty) : Writes t.print t.vars fun f g => (t.restamp f g).text := by
  induction t with
  | prim | var => exact (Writes.ret _).congr rfl rfl
  | undet k => exact (Writes.type k).map fun number => "'~" ++ toString number
  | tuple elems ih =>
    have texts := (Writes.list ih).map fun texts =>
      "(" ++ ", ".intercalate texts ++ (if elems.length = 1 then ",)" else ")")
    simpa [print, printAll_eq, vars, varsAll_eq, restamp, text, texts_eq_map, Function.comp_def]
      using texts
  | array elem length ih =>
    exact ih.bind fun elem => length.writes_print.map fun length =>
      "array[" ++ elem ++ ", " ++ length ++ "]"
  | struct decl typeArgs natArgs ih =>
    have texts := (Writes.list ih).bind fun types =>
      (Writes.list fun n (_ : n ∈ natArgs) => n.writes_print).map fun nats =>
        decl.name ++ bracketed types nats
    simpa [print, printAll_eq, vars, varsAll_eq, restamp, text, texts_eq_map, Function.comp_def]
      using texts
  | fn params result generics ihp ihr =>
    have texts := (Writes.list fun p hp => (ihp p hp).map fun text =>
        text ++ (if p.ownership = .owned then " @owned" else "")).bind fun params =>
      ihr.map fun result => bracketed generics.typeNames generics.nats ++
        "(" ++ ", ".intercalate params ++ ") -> " ++ result
    rw [print, printParams_eq, vars, varsParams_eq]
    simpa [restamp, text, paramTexts_eq_map, Function.comp_def] using texts.free generics
  | option inner ih => exact ih.map fun inner => "Option[" ++ inner ++ "]"

theorem canonicalText_eq (t : Ty) : t.canonicalText = t.numbered.text := by
  have start : ({} : Numbering).Counts [] := ⟨⟨rfl, fun _ => rfl⟩, ⟨rfl, fun _ => rfl⟩⟩
  have text := (writes_print t {} [] start).2 []
  rwa [List.append_nil] at text

end Ty

end QuantumStatics
