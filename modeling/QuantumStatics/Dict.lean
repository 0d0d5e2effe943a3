/-
  Finite maps with ordered keys.

  A `Dict κ α` holds its entries in increasing order of their keys, so that
  walking over the entries visits the keys in order.  Names are ordered by code point and
  stamps by value.

  * `get?` looks a key up, `insert` binds it (replacing an earlier value),
    `insertNew` binds it unless it is bound already, `erase` unbinds it, and
    `map` changes all values;
  * the `get?_…` lemmas say what each operation does to look-ups.
-/

namespace QuantumStatics

theorem lookup_entry {κ α : Type} [DecidableEq κ] (k k' : κ) (v : α) (es : List (κ × α)) :
    ((k, v) :: es).lookup k' = if k' = k then some v else es.lookup k' := by
  rw [List.lookup_cons]
  by_cases h : k' = k
  · simp [h]
  · rw [beq_false_of_ne h, if_neg h]

/-- A finite map, as the list of its entries in increasing order of keys. -/
structure Dict (κ α : Type) [LT κ] where
  /-- The entries, smallest key first. -/
  entries : List (κ × α)
  /-- Keys increase strictly along the entries. -/
  ordered : entries.Pairwise fun p q => p.1 < q.1

namespace Dict

variable {κ α β : Type} [LT κ]

/-- The dictionary without entries. -/
def empty : Dict κ α := ⟨[], .nil⟩

instance : EmptyCollection (Dict κ α) := ⟨empty⟩

instance : Inhabited (Dict κ α) := ⟨empty⟩

/-- Whether no key is bound. -/
def isEmpty (d : Dict κ α) : Bool := d.entries.isEmpty

/-- The number of bound keys. -/
def size (d : Dict κ α) : Nat := d.entries.length

/-- The bound keys, in increasing order. -/
def keys (d : Dict κ α) : List κ := d.entries.map (·.1)

/-- Applies a function to every value. -/
def map (f : α → β) (d : Dict κ α) : Dict κ β :=
  ⟨d.entries.map fun e => (e.1, f e.2), List.pairwise_map.mpr d.ordered⟩

variable [DecidableEq κ]

/-- The value bound to a key. -/
def get? (d : Dict κ α) (k : κ) : Option α := d.entries.lookup k

/-- Whether a key is bound. -/
def contains (d : Dict κ α) (k : κ) : Bool := (d.get? k).isSome

/-- Unbinds a key. -/
def erase (d : Dict κ α) (k : κ) : Dict κ α :=
  ⟨d.entries.filter (·.1 ≠ k), d.ordered.filter _⟩

/-! ## Look-ups -/

@[simp] theorem get?_empty (k : κ) : (∅ : Dict κ α).get? k = none := rfl

theorem get?_of_isEmpty {d : Dict κ α} (h : d.isEmpty) (k : κ) : d.get? k = none := by
  simp [get?, List.isEmpty_iff.mp h]

@[simp] theorem get?_map (f : α → β) (d : Dict κ α) (k : κ) :
    (d.map f).get? k = (d.get? k).map f := by
  obtain ⟨es, h⟩ := d
  simp only [get?, map]
  induction es with
  | nil => rfl
  | cons e es ih =>
    obtain ⟨k₁, v₁⟩ := e
    simp only [List.map_cons, lookup_entry, ih (List.pairwise_cons.mp h).2]
    split <;> rfl

theorem get?_erase (d : Dict κ α) (k k' : κ) :
    (d.erase k).get? k' = if k' = k then none else d.get? k' := by
  obtain ⟨es, h⟩ := d
  simp only [get?, erase]
  induction es with
  | nil => simp
  | cons e es ih =>
    have ih := ih (List.pairwise_cons.mp h).2
    obtain ⟨k₁, v₁⟩ := e
    by_cases h₁ : k₁ = k
    · subst h₁
      rw [List.filter_cons_of_neg (by simp), ih, lookup_entry]
      split <;> rfl
    · rw [List.filter_cons_of_pos (by simpa using h₁), lookup_entry, lookup_entry, ih]
      by_cases h : k' = k₁
      · subst h; simp [h₁]
      · simp [h]

/-! ## Insertion -/

variable [DecidableLT κ]

/-- Puts a binding at its place among ordered entries, replacing an entry with
    the same key. -/
def place (k : κ) (v : α) : List (κ × α) → List (κ × α)
  | [] => [(k, v)]
  | e :: es =>
    if k < e.1 then (k, v) :: e :: es
    else if k = e.1 then (k, v) :: es
    else e :: place k v es

theorem mem_place {k : κ} {v : α} {es : List (κ × α)} {e : κ × α} (h : e ∈ place k v es) :
    e = (k, v) ∨ e ∈ es := by
  induction es with
  | nil => simpa [place] using h
  | cons e' es ih =>
    unfold place at h
    split at h
    · simpa using h
    · split at h
      · rcases List.mem_cons.mp h with h | h
        · exact Or.inl h
        · exact Or.inr (List.mem_cons_of_mem _ h)
      · rcases List.mem_cons.mp h with rfl | h
        · exact Or.inr (List.mem_cons_self ..)
        · exact (ih h).imp_right (List.mem_cons_of_mem _)

theorem lookup_place (k k' : κ) (v : α) (es : List (κ × α)) :
    (place k v es).lookup k' = if k' = k then some v else es.lookup k' := by
  induction es with
  | nil => simp [place, lookup_entry]
  | cons e es ih =>
    obtain ⟨k₁, v₁⟩ := e
    unfold place
    split
    · rw [lookup_entry]
    · split
      · rename_i h
        simp only at h
        subst h
        simp only [lookup_entry]
        split <;> rfl
      · rename_i hne
        rw [lookup_entry, lookup_entry, ih]
        by_cases h : k' = k₁
        · subst h
          simp [Ne.symm hne]
        · simp [h]

theorem length_place {k : κ} {es : List (κ × α)} (h : es.lookup k = none) (v : α) :
    (place k v es).length = es.length + 1 := by
  induction es with
  | nil => rfl
  | cons e es ih =>
    obtain ⟨k₁, v₁⟩ := e
    rw [lookup_entry] at h
    split at h
    · cases h
    · rename_i hne
      unfold place
      split
      · rfl
      · rw [List.length_cons, ih h, List.length_cons]

section Order

variable [LE κ] [Std.IsLinearOrder κ] [Std.LawfulOrderLT κ]

theorem place_ordered {es : List (κ × α)} (h : es.Pairwise fun p q => p.1 < q.1) (k : κ) (v : α) :
    (place k v es).Pairwise fun p q => p.1 < q.1 := by
  induction es with
  | nil => simp [place]
  | cons e es ih =>
    obtain ⟨he, hes⟩ := List.pairwise_cons.mp h
    unfold place
    split
    · rename_i hlt
      refine List.pairwise_cons.mpr ⟨fun e' he' => ?_, h⟩
      rcases List.mem_cons.mp he' with rfl | he'
      · exact hlt
      · exact Std.lt_trans hlt (he e' he')
    · split
      · rename_i heq
        exact List.pairwise_cons.mpr ⟨fun e' he' => by simpa [heq] using he e' he', hes⟩
      · rename_i hnlt hne
        refine List.pairwise_cons.mpr ⟨fun e' he' => ?_, ih hes⟩
        rcases mem_place he' with rfl | he'
        · exact Std.lt_of_le_of_ne (Std.not_lt.mp hnlt) (Ne.symm hne)
        · exact he e' he'

/-- Binds a key, replacing the value it was bound to. -/
def insert (d : Dict κ α) (k : κ) (v : α) : Dict κ α :=
  ⟨place k v d.entries, place_ordered d.ordered k v⟩

/-- Binds a key unless it is bound already. -/
def insertNew (d : Dict κ α) (k : κ) (v : α) : Dict κ α :=
  if d.contains k then d else d.insert k v

/-- The dictionary of some bindings, the last binding of a key winning. -/
def ofList (es : List (κ × α)) : Dict κ α :=
  es.foldl (fun d e => d.insert e.1 e.2) ∅

/-- The dictionary of some bindings, the first binding of a key winning. -/
def ofListFirst (es : List (κ × α)) : Dict κ α :=
  es.foldr (fun e d => d.insert e.1 e.2) ∅

/-- The distinct members of a list, in increasing order. -/
def distinct (ks : List κ) : List κ := (ofList (ks.map fun k => (k, ()))).keys

theorem get?_insert (d : Dict κ α) (k k' : κ) (v : α) :
    (d.insert k v).get? k' = if k' = k then some v else d.get? k' :=
  lookup_place k k' v d.entries

theorem size_insert {d : Dict κ α} {k : κ} (h : d.get? k = none) (v : α) :
    (d.insert k v).size = d.size + 1 :=
  length_place h v

theorem get?_insertNew (d : Dict κ α) (k k' : κ) (v : α) :
    (d.insertNew k v).get? k' = if k' = k then some ((d.get? k).getD v) else d.get? k' := by
  unfold insertNew contains
  split
  · rename_i h
    obtain ⟨w, hw⟩ := Option.isSome_iff_exists.mp h
    by_cases h : k' = k
    · subst h; simp [hw]
    · simp [h]
  · rename_i h
    have hk : d.get? k = none := by simpa using h
    rw [get?_insert]
    simp [hk]

theorem get?_ofListFirst (es : List (κ × α)) (k : κ) :
    (ofListFirst es).get? k = es.lookup k := by
  induction es with
  | nil => rfl
  | cons e es ih =>
    rw [lookup_entry, ← ih]
    exact get?_insert ..

end Order

end Dict

end QuantumStatics
