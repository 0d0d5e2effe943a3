/-
  The table of the prelude.

  Registering a signature means putting it at its place among the names that are registered already.
  This need not be run to know the table of the prelude: all its names are different, so the table
  has the signatures of the prelude in the order of their names, whatever the order of registration.
  Programs are evaluated against the table in this form.
-/
import Mathlib.Data.List.Chain
import QuantumStatics.Proofs.Program.Headers

namespace QuantumStatics

namespace Dict

variable {κ α : Type} [LT κ] [DecidableEq κ] [LE κ] [Std.IsLinearOrder κ] [Std.LawfulOrderLT κ]

theorem ext_get? {d d' : Dict κ α} (h : ∀ k v, d.get? k = some v ↔ d'.get? k = some v) :
    d = d' := by
  have distinct : ∀ d : Dict κ α, d.entries.Nodup := fun d => d.ordered.imp <| by
    rintro e _ lt rfl
    exact Std.lt_irrefl lt
  have perm : d.entries.Perm d'.entries := by
    refine (List.perm_ext_iff_of_nodup (distinct d) (distinct d')).mpr fun e => ?_
    rw [← lookup_eq_some_iff d.ordered, ← lookup_eq_some_iff d'.ordered]
    exact h e.1 e.2
  have same := perm.eq_of_pairwise
    (fun e e' _ _ lt gt => (Std.lt_irrefl (Std.lt_trans lt gt)).elim) d.ordered d'.ordered
  cases d
  cases d'
  congr

variable [DecidableLT κ] {f : α → κ} {l l' : List α}

theorem get?_foldl_insert (distinct : (l.map f).Nodup) {d : Dict κ α} {k : κ} {v : α} :
    (l.foldl (fun d a => d.insert (f a) a) d).get? k = some v ↔
      v ∈ l ∧ f v = k ∨ k ∉ l.map f ∧ d.get? k = some v := by
  induction l generalizing d with
  | nil => simp
  | cons a l ih =>
    obtain ⟨apart, distinct⟩ := List.nodup_cons.mp distinct
    rw [List.foldl_cons, ih distinct, get?_insert, List.mem_cons, List.map_cons, List.mem_cons]
    by_cases same : k = f a
    · subst same
      have other : ¬(v ∈ l ∧ f v = f a) := fun h => apart (List.mem_map.mpr ⟨v, h⟩)
      grind
    · grind

theorem foldl_insert_perm (perm : l.Perm l') (distinct : (l.map f).Nodup) (d : Dict κ α) :
    l.foldl (fun d a => d.insert (f a) a) d = l'.foldl (fun d a => d.insert (f a) a) d := by
  have distinct' : (l'.map f).Nodup := (perm.map f).nodup_iff.mp distinct
  refine ext_get? fun k v => ?_
  rw [get?_foldl_insert distinct, get?_foldl_insert distinct', perm.mem_iff, (perm.map f).mem_iff]

end Dict

namespace SignatureTable

variable {T : SignatureTable} {ss : List Signature}

theorem forM_add (new : ∀ s ∈ ss, T.Accepts s.name) (distinct : (ss.map (·.name)).Nodup) :
    ss.forM add T = .ok () (ss.foldl withSignature T) := by
  induction ss generalizing T with
  | nil => rfl
  | cons s ss ih =>
    obtain ⟨first, others⟩ := List.forall_mem_cons.mp new
    obtain ⟨apart, distinct⟩ := List.nodup_cons.mp distinct
    refine (bind_of_ok (add_of_accepts first)).trans (ih (fun s' hs' => ?_) distinct)
    exact (others s' hs').withSignature fun same => apart (List.mem_map.mpr ⟨s', hs', same⟩)

theorem foldl_withSignature (ss : List Signature) (T : SignatureTable) :
    ss.foldl withSignature T =
      { T with signatures := ss.foldl (fun D s => D.insert s.name s) T.signatures } := by
  induction ss generalizing T with
  | nil => rfl
  | cons s ss ih => exact ih (T.withSignature s)

end SignatureTable

namespace Prelude

/-- The places of the signatures, in increasing order of their names. -/
def places : List Nat :=
  [57, 59, 60, 61, 58, 7, 9, 18, 22, 46, 49, 50, 55, 54, 53, 52, 48, 51, 56, 47, 1, 20, 23, 26, 28,
    33, 32, 31, 30, 27, 25, 29, 34, 24, 17, 12, 8, 19, 21, 35, 38, 40, 45, 44, 43, 42, 39, 37, 41,
    36, 14, 0, 13, 6, 10, 11, 4, 15, 5, 16, 2, 3]

/-- The signatures of the prelude, sorted by name. -/
def sorted : List Signature := places.filterMap (signatures[·]?)

theorem filterMap_range_getElem? {α : Type} (l : List α) :
    (List.range l.length).filterMap (l[·]?) = l := by
  induction l with
  | nil => rfl
  | cons a l ih => simp [List.range_succ_eq_map, List.filterMap_map, ih]

theorem sorted_perm : sorted.Perm signatures := by
  have all : places.Perm (List.range signatures.length) := by decide +kernel
  exact filterMap_range_getElem? signatures ▸ all.filterMap (signatures[·]?)

theorem sorted_ordered :
    (sorted.map fun s => (s.name, s)).Pairwise fun p q => p.1 < q.1 := by
  have chain : (sorted.map (·.name)).IsChain (· < ·) := by decide +kernel
  have trans : IsTrans String (· < ·) := ⟨fun _ _ _ => Std.lt_trans⟩
  exact List.pairwise_map.mpr (List.pairwise_map.mp (List.isChain_iff_pairwise.mp chain))

theorem distinct_names : (signatures.map (·.name)).Nodup := by
  have names : (sorted.map (·.name)).Nodup := by
    refine List.pairwise_map.mpr ((List.pairwise_map.mp sorted_ordered).imp ?_)
    intro s s' lt same
    rw [same] at lt
    exact Std.lt_irrefl lt
  exact (sorted_perm.map _).nodup_iff.mp names

/-- **The table of the prelude**, with its entries in order. -/
theorem table_eq : table = ⟨⟨sorted.map fun s => (s.name, s), sorted_ordered⟩, ∅, false⟩ := by
  have run : install {} = .ok () (signatures.foldl SignatureTable.withSignature {}) :=
    SignatureTable.forM_add (fun _ _ => ⟨rfl, rfl, rfl⟩) distinct_names
  have entries : signatures.foldl (fun D s => D.insert s.name s) (∅ : Dict String Signature) =
      ⟨sorted.map fun s => (s.name, s), sorted_ordered⟩ := by
    refine Dict.ext_get? fun n s => (Dict.get?_foldl_insert distinct_names).trans ?_
    rw [Dict.get?_empty, Dict.get?, Dict.lookup_eq_some_iff sorted_ordered, List.mem_map]
    have same := @List.Perm.mem_iff _ s _ _ sorted_perm
    grind
  calc
    table = SignatureTable.after install {} := table_eq_after
    _ = signatures.foldl SignatureTable.withSignature {} := by rw [SignatureTable.after, run]
    _ = ⟨⟨sorted.map fun s => (s.name, s), sorted_ordered⟩, ∅, false⟩ := by
      rw [SignatureTable.foldl_withSignature, entries]

theorem unfinished : table.finalized = false := by
  rw [table_eq]

theorem table_accepts {n : String} (hn : n ∉ signatures.map (·.name)) : table.Accepts n := by
  rw [table_eq]
  refine ⟨Option.eq_none_iff_forall_ne_some.mpr fun s hs => hn ?_, rfl, rfl⟩
  obtain ⟨s', hs', same⟩ := List.mem_map.mp ((Dict.lookup_eq_some_iff sorted_ordered).mp hs)
  cases same
  exact List.mem_map_of_mem (sorted_perm.mem_iff.mp hs')

end Prelude

end QuantumStatics
