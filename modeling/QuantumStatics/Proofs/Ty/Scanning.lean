/-
  Where a text in brackets ends.

  A text is scanned up to the first of some separators outside of brackets, or up to a bracket that
  closes what it did not open (`rest`).  A text is skipped if scanning passes over all of it; two
  texts that are skipped, with something behind each where scanning stops, can be told from what is
  behind them.
-/
import QuantumStatics.Ty.Print

namespace QuantumStatics.Scanning

/-- A bracket that opens. -/
def opens (c : Char) : Bool := c = '(' || c = '['

/-- A bracket that closes. -/
def closes (c : Char) : Bool := c = ')' || c = ']'

/-- What is left of a text, `depth` brackets deep, from the first of the characters `stop` outside
    of brackets on, or from a bracket that closes nothing. -/
def rest (stop : List Char) : Nat → List Char → List Char
  | _, [] => []
  | 0, c :: r =>
    if stop.contains c || closes c then c :: r else rest stop (if opens c then 1 else 0) r
  | depth + 1, c :: r =>
    rest stop (if opens c then depth + 2 else if closes c then depth else depth + 1) r

/-- A scan passes over `w`. -/
def Skipped (stop w : List Char) : Prop :=
  ∀ depth r, rest stop depth (w ++ r) = rest stop depth r

/-- A scan inside of brackets passes over `w`. -/
def Enclosed (stop w : List Char) : Prop :=
  ∀ depth r, rest stop (depth + 1) (w ++ r) = rest stop (depth + 1) r

/-- A scan stops at once. -/
def Halts (stop r : List Char) : Prop := rest stop 0 r = r

attribute [local simp] rest

variable {stop w v r r' z z' : List Char} {ws vs : List (List Char)}
  {as types nats nats' : List String}

/-! ## What is passed over -/

theorem Skipped.enclosed (h : Skipped stop w) : Enclosed stop w := fun depth => h (depth + 1)

theorem Skipped.append (hw : Skipped stop w) (hv : Skipped stop v) : Skipped stop (w ++ v) := by
  intro depth r
  rw [List.append_assoc, hw, hv]

theorem Enclosed.append (hw : Enclosed stop w) (hv : Enclosed stop v) :
    Enclosed stop (w ++ v) := by
  intro depth r
  rw [List.append_assoc, hw, hv]

theorem skipped_nil : Skipped stop [] := fun _ _ => rfl

theorem skipped_of_forall
    (h : ∀ c ∈ w, c ∉ stop ∧ opens c = false ∧ closes c = false) : Skipped stop w := by
  induction w with
  | nil => exact skipped_nil
  | cons c w ih =>
    obtain ⟨⟨hs, ho, hc⟩, h⟩ := List.forall_mem_cons.mp h
    intro depth r
    cases depth <;> simp [hs, ho, hc, ih h _ r]

theorem enclosed_of_forall (h : ∀ c ∈ w, opens c = false ∧ closes c = false) :
    Enclosed stop w := by
  induction w with
  | nil => exact skipped_nil.enclosed
  | cons c w ih =>
    obtain ⟨⟨ho, hc⟩, h⟩ := List.forall_mem_cons.mp h
    intro depth r
    simp [ho, hc, ih h _ r]

theorem Enclosed.skipped {a b : Char} (ha : opens a) (hb : closes b) (hs : a ∉ stop)
    (h : Enclosed stop w) : Skipped stop (a :: (w ++ [b])) := by
  have ha' : closes a = false := by
    simp only [opens, Bool.or_eq_true, decide_eq_true_eq] at ha
    rcases ha with rfl | rfl <;> rfl
  have hb' : opens b = false := by
    simp only [closes, Bool.or_eq_true, decide_eq_true_eq] at hb
    rcases hb with rfl | rfl <;> rfl
  intro depth r
  have inside : ∀ d, rest stop (d + 1) (w ++ b :: r) = rest stop d r := by
    intro d
    rw [h, rest, hb', hb]
    rfl
  cases depth <;> simp [ha, ha', hs, inside]

theorem enclosed_intercalate (h : ∀ w ∈ ws, Enclosed stop w) :
    Enclosed stop ([',', ' '].intercalate ws) := by
  have sep : Enclosed stop [',', ' '] := enclosed_of_forall (by simp [opens, closes])
  induction ws with
  | nil => exact skipped_nil.enclosed
  | cons w ws ih =>
    obtain ⟨hw, hws⟩ := List.forall_mem_cons.mp h
    cases ws with
    | nil => rwa [List.intercalate_singleton]
    | cons v ws =>
      rw [List.intercalate_cons_cons]
      exact (hw.append sep).append (ih hws)

/-! ## Where scanning stops -/

theorem length_rest_le (stop : List Char) (depth : Nat) (r : List Char) :
    (rest stop depth r).length ≤ r.length := by
  fun_induction rest stop depth r with
  | case1 => exact Nat.le_refl _
  | case2 => exact Nat.le_refl _
  | case3 c r _ ih => exact Nat.le_succ_of_le ih
  | case4 depth c r ih => exact Nat.le_succ_of_le ih

theorem halts_nil : Halts stop [] := rfl

theorem halts_cons {c : Char} (h : c ∈ stop ∨ closes c) : Halts stop (c :: r) := by
  rw [Halts, rest, if_pos (by simpa using h)]

theorem Skipped.not_halts (hw : Skipped stop w) (ne : w ≠ []) : ¬ Halts stop (w ++ r) := by
  intro h
  have shorter := length_rest_le stop 0 r
  rw [← hw 0 r, h, List.length_append] at shorter
  have := List.length_pos_iff.mpr ne
  omega

theorem Skipped.append_inj (hw : Skipped stop w) (hv : Skipped stop v) (hr : Halts stop r)
    (hr' : Halts stop r') (h : w ++ r = v ++ r') : w = v ∧ r = r' := by
  have same : r = r' := by rw [← hr, ← hw 0 r, h, hv, hr']
  subst same
  exact ⟨List.append_cancel_right h, rfl⟩

/-! ## Lists -/

/-- A text that may stand in a list: it is skipped, and there is something of it. -/
structure Item (stop w : List Char) : Prop where
  skipped : Skipped stop w
  nonempty : w ≠ []

/-- A scan stops, and the list does not go on. -/
structure EndsList (stop z : List Char) : Prop where
  halts : Halts stop z
  ended (r : List Char) : z ≠ ',' :: ' ' :: r

theorem intercalate_cons_eq (sep w : List Char) (ws : List (List Char)) :
    sep.intercalate (w :: ws) = w ++ ws.flatMap (sep ++ ·) := by
  induction ws generalizing w with
  | nil => simp
  | cons v ws ih => rw [List.intercalate_cons_cons, ih, List.flatMap_cons]; simp

theorem flatMap_append_inj (comma : ',' ∈ stop) (hw : ∀ w ∈ ws, Skipped stop w)
    (hv : ∀ v ∈ vs, Skipped stop v) (hz : EndsList stop z) (hz' : EndsList stop z')
    (h : ws.flatMap ([',', ' '] ++ ·) ++ z = vs.flatMap ([',', ' '] ++ ·) ++ z') :
    ws = vs ∧ z = z' := by
  have halts : ∀ {us : List (List Char)} {z : List Char}, EndsList stop z →
      Halts stop (us.flatMap ([',', ' '] ++ ·) ++ z) := by
    intro us z hz
    cases us with
    | nil => exact hz.halts
    | cons u us => exact halts_cons (.inl comma)
  induction ws generalizing vs with
  | nil =>
    cases vs with
    | nil => exact ⟨rfl, h⟩
    | cons v vs => exact absurd h (hz.ended _)
  | cons w ws ih =>
    cases vs with
    | nil => exact absurd h.symm (hz'.ended _)
    | cons v vs =>
      rw [List.forall_mem_cons] at hw hv
      simp only [List.flatMap_cons, List.append_assoc, List.append_cancel_left_eq] at h
      obtain ⟨rfl, h'⟩ := hw.1.append_inj hv.1 (halts hz) (halts hz') h
      obtain ⟨rfl, rfl⟩ := ih hw.2 hv.2 h'
      exact ⟨rfl, rfl⟩

/-- **A list can be read off its items with commas in between**, whatever ends it. -/
theorem intercalate_append_inj (comma : ',' ∈ stop) (hw : ∀ w ∈ ws, Item stop w)
    (hv : ∀ v ∈ vs, Item stop v) (hz : EndsList stop z) (hz' : EndsList stop z')
    (h : [',', ' '].intercalate ws ++ z = [',', ' '].intercalate vs ++ z') : ws = vs ∧ z = z' := by
  cases ws with
  | nil =>
    cases vs with
    | nil => exact ⟨rfl, h⟩
    | cons v vs =>
      have item := hv v List.mem_cons_self
      rw [List.intercalate_nil, List.nil_append, intercalate_cons_eq, List.append_assoc] at h
      exact absurd (h ▸ hz.halts) (item.skipped.not_halts item.nonempty)
  | cons w ws =>
    cases vs with
    | nil =>
      have item := hw w List.mem_cons_self
      rw [List.intercalate_nil, List.nil_append, intercalate_cons_eq, List.append_assoc] at h
      exact absurd (h ▸ hz'.halts) (item.skipped.not_halts item.nonempty)
    | cons v vs =>
      rw [intercalate_cons_eq, intercalate_cons_eq] at h
      refine flatMap_append_inj comma (fun u hu => (hw u hu).skipped)
        (fun u hu => (hv u hu).skipped) hz hz' ?_
      simpa [List.flatMap_cons] using h

/-! ## Arguments in brackets -/

/-- The separators of the arguments in brackets. -/
def separators : List Char := [',', ';']

/-- A type argument: it does not begin like a number. -/
structure TypeItem (a : String) : Prop where
  item : Item separators a.toList
  initial : ∀ c ∈ a.toList.head?, c.isDigit = false

/-- A nat argument: it begins like a number. -/
structure NatItem (a : String) : Prop where
  item : Item separators a.toList
  initial : ∀ c ∈ a.toList.head?, c.isDigit

theorem TypeItem.not_natItem {a : String} (h : TypeItem a) : ¬ NatItem a := by
  intro h'
  have head := List.head?_eq_some_head h.item.nonempty
  have := h.initial _ head
  rw [h'.initial _ head] at this
  cases this

/-- The text of arguments behind the types. -/
def behindTypes (nats : List String) : List Char :=
  if nats = [] then [']']
  else ';' :: ' ' :: ([',', ' '].intercalate (nats.map String.toList) ++ [']'])

theorem endsList_behindTypes (nats : List String) : EndsList separators (behindTypes nats) := by
  rw [behindTypes]
  split
  · exact ⟨halts_cons (.inr rfl), by simp⟩
  · exact ⟨halts_cons (.inl (by decide)), by simp⟩

theorem endsList_bracket : EndsList separators [']'] := ⟨halts_cons (.inr rfl), by simp⟩

theorem toList_bracketed (types nats : List String) : (bracketed types nats).toList =
    if types = [] then
      if nats = [] then []
      else '[' :: ([',', ' '].intercalate (nats.map String.toList) ++ [']'])
    else '[' :: ([',', ' '].intercalate (types.map String.toList) ++ behindTypes nats) := by
  cases types <;> cases nats <;>
    simp [bracketed, behindTypes, String.toList_intercalate]

theorem initial_bracketed (types nats : List String) :
    (bracketed types nats).toList = [] ∨ ∃ r, (bracketed types nats).toList = '[' :: r := by
  rw [toList_bracketed]
  split
  · split
    · exact .inl rfl
    · exact .inr ⟨_, rfl⟩
  · exact .inr ⟨_, rfl⟩

theorem map_toList_inj {bs : List String} (h : as.map String.toList = bs.map String.toList) :
    as = bs :=
  List.map_inj_right (fun _ _ => String.toList_inj.mp) |>.mp h

theorem forall_item_toList {P : String → Prop} (h : ∀ a ∈ as, P a)
    (item : ∀ {a}, P a → Item separators a.toList) :
    ∀ w ∈ as.map String.toList, Item separators w :=
  List.forall_mem_map.mpr fun a ha => item (h a ha)

theorem types_ne_nats (ht : ∀ a ∈ types, TypeItem a) (hn : ∀ a ∈ nats, NatItem a)
    (some : types ≠ []) :
    [',', ' '].intercalate (types.map String.toList) ++ behindTypes nats' ≠
      [',', ' '].intercalate (nats.map String.toList) ++ [']'] := by
  intro h
  have same := map_toList_inj (intercalate_append_inj (by decide)
    (forall_item_toList ht TypeItem.item) (forall_item_toList hn NatItem.item)
    (endsList_behindTypes nats') endsList_bracket h).1
  obtain ⟨a, ha⟩ := List.exists_mem_of_ne_nil types some
  exact (ht a ha).not_natItem (hn a (same ▸ ha))

theorem bracketed_inj {types' : List String} (ht : ∀ a ∈ types, TypeItem a)
    (ht' : ∀ a ∈ types', TypeItem a) (hn : ∀ a ∈ nats, NatItem a) (hn' : ∀ a ∈ nats', NatItem a)
    (h : bracketed types nats = bracketed types' nats') : types = types' ∧ nats = nats' := by
  have comma : ',' ∈ separators := by decide
  have itemsT := forall_item_toList ht TypeItem.item
  have itemsT' := forall_item_toList ht' TypeItem.item
  have itemsN := forall_item_toList hn NatItem.item
  have itemsN' := forall_item_toList hn' NatItem.item
  have numbers : [',', ' '].intercalate (nats.map String.toList) ++ [']'] =
      [',', ' '].intercalate (nats'.map String.toList) ++ [']'] → nats = nats' := fun h =>
    map_toList_inj
      (intercalate_append_inj comma itemsN itemsN' endsList_bracket endsList_bracket h).1
  replace h := congrArg String.toList h
  rw [toList_bracketed, toList_bracketed] at h
  by_cases empty : types = [] <;> by_cases empty' : types' = []
  · subst empty empty'
    simp only [if_true] at h
    refine ⟨rfl, ?_⟩
    split at h <;> split at h
    · simp [*]
    · cases h
    · cases h
    · exact numbers (List.cons.inj h).2
  · rw [if_pos empty, if_neg empty'] at h
    split at h
    · cases h
    · exact absurd (List.cons.inj h).2.symm (types_ne_nats ht' hn empty')
  · rw [if_neg empty, if_pos empty'] at h
    split at h
    · cases h
    · exact absurd (List.cons.inj h).2 (types_ne_nats ht hn' empty)
  · rw [if_neg empty, if_neg empty'] at h
    obtain ⟨same, behind⟩ := intercalate_append_inj comma itemsT itemsT'
      (endsList_behindTypes nats) (endsList_behindTypes nats') (List.cons.inj h).2
    refine ⟨map_toList_inj same, ?_⟩
    rw [behindTypes, behindTypes] at behind
    split at behind <;> split at behind
    · simp [*]
    · cases behind
    · cases behind
    · exact numbers (by simpa using behind)

end QuantumStatics.Scanning
