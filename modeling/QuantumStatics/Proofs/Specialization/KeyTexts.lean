/-
  What the text of a key tells.

  A specialization is found again by the text of its key.  Arguments are closed, so their text shows
  only names of structs and leaves, numbers, brackets and separators.  If no struct has taken the
  name of a leaf or of a builtin form, then the text tells the argument, up to what equality does
  not look at, and the text of a key tells its name and its arguments.

  * `texts_tell_arguments_and_keys`: one text, one argument, and likewise for keys.
-/
import QuantumStatics.Proofs.Ty.Text

namespace QuantumStatics

/-- A closed type over the builtin leaf types.  It has no generic function types, and its structs
    have names that are not taken by leaves and builtin forms. -/
structure Ty.Concrete (t : Ty) : Prop where
  closed : t.closed
  simple : t.Simple
  leaves : ∀ name cls, .prim name cls ∈ t.subterms → builtin? name = some (.prim name cls)
  structs : ∀ d types nats, .struct d types nats ∈ t.subterms →
    isName d.name ∧ reserved d.name = false

namespace Ty.Concrete

variable {t u : Ty}

theorem closed_of_mem (h : t.Concrete) (hu : u ∈ t.subterms) : u.closed := by
  induction t using componentInduction with
  | step t ih =>
    rcases mem_subterms.mp hu with rfl | ⟨c, hc, hu⟩
    · exact h.closed
    · have sub : ∀ {v}, v ∈ c.subterms → v ∈ t.subterms := fun hv =>
        mem_subterms.mpr (.inr ⟨c, hc, hv⟩)
      exact ih c hc ⟨h.simple.closed h.closed hc, h.simple.component hc,
        fun name cls hv => h.leaves name cls (sub hv),
        fun d types nats hv => h.structs d types nats (sub hv)⟩ hu

theorem legibleHead (h : t.Concrete) (hu : u ∈ t.subterms) : u.LegibleHead := by
  have closed := h.closed_of_mem hu
  have legible : ∀ {n : NatTerm}, n.isConst → n.Legible := by
    intro n hn
    cases n with
    | const => trivial
    | var | undet => cases hn
  cases u with
  | prim name cls => exact h.leaves name cls hu
  | var p => cases ownVars_of_closed closed
  | undet | tuple | option => trivial
  | array elem length => exact legible (isConst_of_vars (ownVars_of_closed closed))
  | struct d types nats =>
    obtain ⟨name, free⟩ := h.structs d types nats hu
    exact ⟨name, free, fun n hn => legible (natArgs_isConst closed n hn)⟩
  | fn params result generics =>
    have plain : generics = {} := h.simple _ hu
    subst plain
    exact nofun

theorem readable (h : t.Concrete) : t.Readable := ⟨fun _ hu => h.legibleHead hu, h.simple⟩

theorem text_eq_iff (ht : t.Concrete) (hu : u.Concrete) : t.text = u.text ↔ t.equal u := by
  refine ⟨fun h => (equal_iff t u).mpr ?_, text_eq_of_equal⟩
  exact skeleton_eq_of_text_eq ht.readable hu.readable ht.closed hu.closed h

end Ty.Concrete

/-- A key that names a definition and has closed arguments. -/
structure Key.Concrete (k : Key) : Prop where
  name : isName k.name
  types : ∀ t ∈ k.typeArgs, t.Concrete
  nats : ∀ n ∈ k.natArgs, n.isConst

namespace Key

theorem text_eq_of_equalAll {k k' : Key} (name : k.name = k'.name)
    (types : Ty.equalAll k.typeArgs k'.typeArgs) (nats : k.natArgs = k'.natArgs) :
    k.text = k'.text := by
  have same : k.typeArgs.map Ty.text = k'.typeArgs.map Ty.text := by
    refine Ty.map_eq_of_map_eq ((Ty.equalAll_iff _ _).mp types) fun t _ u _ h => ?_
    exact Ty.text_eq_of_equal ((Ty.equal_iff t u).mpr h)
  rw [text, text, Ty.texts_eq_map, Ty.texts_eq_map, name, same, nats]

theorem Concrete.text_eq_iff {k k' : Key} (h : k.Concrete) (h' : k'.Concrete) :
    k.text = k'.text ↔
      k.name = k'.name ∧ Ty.equalAll k.typeArgs k'.typeArgs ∧ k.natArgs = k'.natArgs := by
  refine ⟨fun text => ?_, fun ⟨name, types, nats⟩ => text_eq_of_equalAll name types nats⟩
  obtain ⟨name, types, nats⟩ := text_inj h.name h'.name
    (fun t ht => ⟨(h.types t ht).readable, (h.types t ht).closed⟩)
    (fun t ht => ⟨(h'.types t ht).readable, (h'.types t ht).closed⟩) h.nats h'.nats text
  exact ⟨name, (Ty.equalAll_iff _ _).mpr types, nats⟩

end Key

/-- **The text of a key can be read in one way.**  Arguments have one text if and only if they are
    equal, and keys have one text if and only if they have one name, equal type arguments and the
    same nat arguments. -/
theorem texts_tell_arguments_and_keys {t u : Ty} (ht : t.Concrete) (hu : u.Concrete) {k k' : Key}
    (hk : k.Concrete) (hk' : k'.Concrete) :
    (t.text = u.text ↔ t.equal u) ∧
      (k.text = k'.text ↔
        k.name = k'.name ∧ Ty.equalAll k.typeArgs k'.typeArgs ∧ k.natArgs = k'.natArgs) :=
  ⟨ht.text_eq_iff hu, hk.text_eq_iff hk'⟩

/-- Functions that take over a value and functions that borrow it, side by side with a tuple of one
    element, among the arguments of a struct. -/
def boxed (fields : List Field) (mode : Ownership) : Ty :=
  .struct ⟨"Box", ⟨[⟨"T", true, true⟩], ["n"]⟩, fields⟩
    [.tuple [.fn [⟨.array .qubit (.const 2), mode⟩] (.option (.tuple [.int])) {}]] [.const 12]

theorem boxed_concrete (fields : List Field) (mode : Ownership) : (boxed fields mode).Concrete where
  closed := by cases mode <;> rfl
  simple := by
    simp [Ty.Simple, boxed, Ty.subterms, Ty.subtermsAll, Ty.subtermsParams, Ty.qubit, Ty.int,
      Ty.binder]
  leaves name cls h := by
    simp only [boxed, Ty.subterms, Ty.subtermsAll, Ty.subtermsParams, Ty.qubit, Ty.int] at h
    have known : name = "qubit" ∧ cls = .linear ∨ name = "int" ∧ cls = .copyable := by simpa using h
    rcases known with ⟨rfl, rfl⟩ | ⟨rfl, rfl⟩ <;> rfl
  structs d types nats h := by
    simp only [boxed, Ty.subterms, Ty.subtermsAll, Ty.subtermsParams, Ty.qubit, Ty.int] at h
    have box : d.name = "Box" := by simp_all
    exact box ▸ (by decide : isName "Box" ∧ reserved "Box" = false)

theorem boxed_texts_tell :
    (boxed [] .owned).text ≠ (boxed [] .borrowed).text ∧
      (Key.mk "m.f" [boxed [] .owned] [.const 3]).text =
        (Key.mk "m.f" [boxed [⟨"q", .qubit⟩] .owned] [.const 3]).text := by
  have name : isName "m.f" := by decide
  have key : ∀ fields, (Key.mk "m.f" [boxed fields .owned] [.const 3]).Concrete := fun fields =>
    ⟨name, by simp [boxed_concrete], by simp [NatTerm.isConst]⟩
  obtain ⟨types, keys⟩ := texts_tell_arguments_and_keys (boxed_concrete [] .owned)
    (boxed_concrete [] .borrowed) (key []) (key [⟨"q", .qubit⟩])
  exact ⟨mt types.mp (by decide), keys.mpr ⟨rfl, by decide, rfl⟩⟩

end QuantumStatics
