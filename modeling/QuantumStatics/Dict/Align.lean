/-
  Two dictionaries side by side.

  `Dict.align` walks through two dictionaries at once and lists the keys that
  either of them binds, in increasing order, with what each binds them to.

  * `mem_align`: a key is listed with its two look-ups, if one of them succeeds;
  * `align_ordered`: the keys increase strictly;
  * `get?_union`: the union of two dictionaries looks a key up in one after the other.
-/
import QuantumStatics.Dict

namespace QuantumStatics.Dict

variable {κ α β : Type} [LT κ] [DecidableEq κ] [DecidableLT κ]

/-- Sets an entry beside ordered entries, and goes on with `rest` behind it. -/
def alignEntry (k : κ) (v : α) (rest : List (κ × β) → List (κ × Option α × Option β)) :
    List (κ × β) → List (κ × Option α × Option β)
  | [] => (k, some v, none) :: rest []
  | e :: es =>
    if k < e.1 then (k, some v, none) :: rest (e :: es)
    else if k = e.1 then (k, some v, some e.2) :: rest es
    else (e.1, none, some e.2) :: alignEntry k v rest es

/-- Sets ordered entries beside each other. -/
def alignEntries : List (κ × α) → List (κ × β) → List (κ × Option α × Option β)
  | [], es => es.map fun e => (e.1, none, some e.2)
  | (k, v) :: ds, es => alignEntry k v (alignEntries ds) es

/-- The keys bound in either of two dictionaries, with what each binds them to. -/
def align (d : Dict κ α) (e : Dict κ β) : List (κ × Option α × Option β) :=
  alignEntries d.entries e.entries

section Union

variable [LE κ] [Std.IsLinearOrder κ] [Std.LawfulOrderLT κ]

/-- The bindings of both dictionaries, those of the first winning. -/
def union (d e : Dict κ α) : Dict κ α :=
  .ofListFirst ((d.align e).filterMap fun p => (p.2.1.or p.2.2).map fun v => (p.1, v))

end Union

/-! ## What is listed -/

section Order

variable [LE κ] [Std.IsLinearOrder κ] [Std.LawfulOrderLT κ]

omit [DecidableLT κ] [Std.IsLinearOrder κ] in
theorem lookup_eq_none_of_lt {es : List (κ × α)} {k : κ} (h : ∀ e ∈ es, k < e.1) :
    es.lookup k = none := by
  induction es with
  | nil => rfl
  | cons e es ih =>
    obtain ⟨k', v⟩ := e
    have hk : k < k' := h _ (List.mem_cons_self ..)
    rw [lookup_entry, if_neg (fun hk' => Std.lt_irrefl (hk' ▸ hk)),
      ih fun e he => h e (List.mem_cons_of_mem _ he)]

omit [DecidableLT κ] [Std.IsLinearOrder κ] in
theorem lookup_eq_some_iff {es : List (κ × α)} (h : es.Pairwise fun p q => p.1 < q.1) {k : κ}
    {v : α} : es.lookup k = some v ↔ (k, v) ∈ es := by
  induction es with
  | nil => simp
  | cons e es ih =>
    obtain ⟨k', v'⟩ := e
    obtain ⟨he, hes⟩ := List.pairwise_cons.mp h
    rw [lookup_entry, List.mem_cons, Prod.mk.injEq]
    by_cases hk : k = k'
    · subst hk
      have hm : (k, v) ∉ es := fun hm =>
        have hlt : k < k := he _ hm
        Std.lt_irrefl hlt
      simp [hm, eq_comm]
    · simp [hk, ih hes]

theorem mem_alignEntries {ds : List (κ × α)} {es : List (κ × β)}
    (hd : ds.Pairwise fun p q => p.1 < q.1) (he : es.Pairwise fun p q => p.1 < q.1)
    {k : κ} {a : Option α} {b : Option β} :
    (k, a, b) ∈ alignEntries ds es ↔
      a = ds.lookup k ∧ b = es.lookup k ∧ (a.isSome ∨ b.isSome) := by
  induction ds generalizing es with
  | nil =>
    simp only [alignEntries, List.mem_map, Prod.mk.injEq, List.lookup_nil]
    constructor
    · rintro ⟨⟨k', v⟩, hm, rfl, rfl, rfl⟩
      exact ⟨rfl, ((lookup_eq_some_iff he).mpr hm).symm, .inr rfl⟩
    · rintro ⟨rfl, rfl, h | h⟩
      · cases h
      · obtain ⟨v, hv⟩ := Option.isSome_iff_exists.mp h
        exact ⟨(k, v), (lookup_eq_some_iff he).mp hv, rfl, rfl, hv.symm⟩
  | cons d ds ih =>
    obtain ⟨k', v⟩ := d
    obtain ⟨hk', hd⟩ := List.pairwise_cons.mp hd
    have hnone : ds.lookup k' = none := lookup_eq_none_of_lt hk'
    have ih : ∀ es : List (κ × β), es.Pairwise (fun p q => p.1 < q.1) → _ := fun _ => ih hd
    simp only [alignEntries, lookup_entry]
    induction es with
    | nil =>
      simp only [alignEntry, List.mem_cons, ih _ .nil, Prod.mk.injEq, List.lookup_nil]
      grind
    | cons e es ihe =>
      obtain ⟨k₁, v₁⟩ := e
      obtain ⟨hk₁, hes⟩ := List.pairwise_cons.mp he
      have hnone₁ : es.lookup k₁ = none := lookup_eq_none_of_lt hk₁
      unfold alignEntry
      simp only
      split
      · rename_i hlt
        have : es.lookup k' = none :=
          lookup_eq_none_of_lt fun e he => Std.lt_trans hlt (hk₁ e he)
        have hne : k' ≠ k₁ := fun h => Std.lt_irrefl (h ▸ hlt)
        simp only [List.mem_cons, ih _ he, Prod.mk.injEq, lookup_entry]
        grind
      · split
        · rename_i heq
          subst heq
          simp only [List.mem_cons, ih _ hes, Prod.mk.injEq, lookup_entry]
          grind
        · rename_i hnlt hne
          have : ds.lookup k₁ = none := lookup_eq_none_of_lt fun d hd =>
            Std.lt_trans (Std.lt_of_le_of_ne (Std.not_lt.mp hnlt) (Ne.symm hne)) (hk' d hd)
          simp only [List.mem_cons, ihe hes, Prod.mk.injEq, lookup_entry]
          grind

theorem lt_of_mem_alignEntries {ds : List (κ × α)} {es : List (κ × β)}
    (hd : ds.Pairwise fun p q => p.1 < q.1) (he : es.Pairwise fun p q => p.1 < q.1) {k : κ}
    (hkd : ∀ d ∈ ds, k < d.1) (hke : ∀ e ∈ es, k < e.1) {p : κ × Option α × Option β}
    (hp : p ∈ alignEntries ds es) : k < p.1 := by
  obtain ⟨k', a, b⟩ := p
  obtain ⟨rfl, rfl, h | h⟩ := (mem_alignEntries hd he).mp hp
  · obtain ⟨v, hv⟩ := Option.isSome_iff_exists.mp h
    exact hkd _ ((lookup_eq_some_iff hd).mp hv)
  · obtain ⟨v, hv⟩ := Option.isSome_iff_exists.mp h
    exact hke _ ((lookup_eq_some_iff he).mp hv)

theorem alignEntries_ordered {ds : List (κ × α)} {es : List (κ × β)}
    (hd : ds.Pairwise fun p q => p.1 < q.1) (he : es.Pairwise fun p q => p.1 < q.1) :
    (alignEntries ds es).Pairwise fun p q => p.1 < q.1 := by
  induction ds generalizing es with
  | nil => simpa [alignEntries, List.pairwise_map] using he
  | cons d ds ih =>
    obtain ⟨k, v⟩ := d
    have hkd := hd
    obtain ⟨hk, hd⟩ := List.pairwise_cons.mp hd
    simp only [alignEntries]
    induction es with
    | nil =>
      exact List.pairwise_cons.mpr
        ⟨fun p hp => lt_of_mem_alignEntries hd .nil hk (by simp) hp, ih hd .nil⟩
    | cons e es ihe =>
      obtain ⟨hk₁, hes⟩ := List.pairwise_cons.mp he
      unfold alignEntry
      split
      · rename_i hlt
        refine List.pairwise_cons.mpr ⟨fun p hp => ?_, ih hd he⟩
        refine lt_of_mem_alignEntries hd he hk (fun e' he' => ?_) hp
        rcases List.mem_cons.mp he' with rfl | he'
        · exact hlt
        · exact Std.lt_trans hlt (hk₁ e' he')
      · split
        · rename_i heq
          refine List.pairwise_cons.mpr ⟨fun p hp => ?_, ih hd hes⟩
          exact lt_of_mem_alignEntries hd hes hk (fun e' he' => heq ▸ hk₁ e' he') hp
        · rename_i hnlt hne
          have hlt : e.1 < k := Std.lt_of_le_of_ne (Std.not_lt.mp hnlt) (Ne.symm hne)
          refine List.pairwise_cons.mpr ⟨fun p hp => ?_, ihe hes⟩
          have hp : p ∈ alignEntries ((k, v) :: ds) es := hp
          refine lt_of_mem_alignEntries hkd hes (fun d' hd' => ?_) hk₁ hp
          rcases List.mem_cons.mp hd' with rfl | hd'
          · exact hlt
          · exact Std.lt_trans hlt (hk d' hd')

/-- **A key is listed with its look-ups, if one of them succeeds.** -/
theorem mem_align {d : Dict κ α} {e : Dict κ β} {k : κ} {a : Option α} {b : Option β} :
    (k, a, b) ∈ d.align e ↔ a = d.get? k ∧ b = e.get? k ∧ (a.isSome ∨ b.isSome) :=
  mem_alignEntries d.ordered e.ordered

/-- The listed keys increase strictly. -/
theorem align_ordered (d : Dict κ α) (e : Dict κ β) :
    (d.align e).Pairwise fun p q => p.1 < q.1 :=
  alignEntries_ordered d.ordered e.ordered

/-- **A union looks a key up in the first dictionary, and then in the second.** -/
theorem get?_union (d e : Dict κ α) (k : κ) : (d.union e).get? k = (d.get? k).or (e.get? k) := by
  have ordered : ((d.align e).filterMap fun p => (p.2.1.or p.2.2).map fun v => (p.1, v)).Pairwise
      fun p q => p.1 < q.1 := by
    refine (align_ordered d e).filterMap _ fun p q less a ha b hb => ?_
    obtain ⟨v, -, rfl⟩ := Option.map_eq_some_iff.mp ha
    obtain ⟨w, -, rfl⟩ := Option.map_eq_some_iff.mp hb
    exact less
  rw [union, get?_ofListFirst]
  refine Option.ext fun v => ?_
  rw [lookup_eq_some_iff ordered, List.mem_filterMap]
  constructor
  · rintro ⟨⟨k', a, b⟩, mem, found⟩
    obtain ⟨w, value, same⟩ := Option.map_eq_some_iff.mp found
    obtain ⟨rfl, rfl⟩ := Prod.mk.inj same
    obtain ⟨rfl, rfl, -⟩ := mem_align.mp mem
    exact value
  · intro value
    refine ⟨(k, d.get? k, e.get? k), mem_align.mpr ⟨rfl, rfl, ?_⟩, ?_⟩
    · rcases Option.or_eq_some_iff.mp value with known | ⟨-, known⟩
      · exact .inl (Option.isSome_of_eq_some known)
      · exact .inr (Option.isSome_of_eq_some known)
    · rw [value]
      rfl

end Order

end QuantumStatics.Dict
