/-
  One memory for the classes of a program.

  All questions about classes go to one memory, which keeps the classes of closed types under their
  text.  That makes no difference as long as the text tells the class: the structs of the program
  have names of their own, and what fields mention are the registered structs and the builtin leaf
  types.  Registration asks for none of this.

  * `one_memory_tells_plain_classes`: one memory answers as if there were none;
  * `memory_confuses_namesakes`: it may not if a struct has the name of a leaf type, or if a field
    has the type of another struct than the registered one.
-/
import QuantumStatics.Proofs.Classification.Texts
import QuantumStatics.Proofs.Evaluation
import QuantumStatics.Proofs.Program.Prelude

namespace QuantumStatics

/-- A type over the builtin leaf types and the structs of a table.  Its names are names, and its
    structs have names that no leaf or builtin form has taken. -/
structure Ty.Regular (T : SignatureTable) (t : Ty) : Prop where
  legible : t.Legible
  registered : ∀ d types nats, .struct d types nats ∈ t.subterms → T.findStruct? d.name = some d

namespace Ty.Regular

variable {T : SignatureTable} {t c : Ty}

theorem component (h : t.Regular T) (hc : c ∈ t.components) : c.Regular T where
  legible := h.legible.component hc
  registered d types nats hd := h.registered d types nats (mem_subterms_of_component hc hd)

theorem of_components (head : t.LegibleHead)
    (own : ∀ d types nats, t = .struct d types nats → T.findStruct? d.name = some d)
    (components : ∀ c ∈ t.components, c.Regular T) : t.Regular T where
  legible := forall_mem_subterms.mpr ⟨head, fun c hc => (components c hc).legible⟩
  registered d types nats hd := by
    rcases mem_subterms.mp hd with same | ⟨c, hc, hd⟩
    · exact own d types nats same.symm
    · exact (components c hc).registered d types nats hd

theorem inst {I : Instantiation} (h : t.Regular T)
    (types : ∀ {n u}, I.types.get? n = some u → u.Regular T)
    (nats : ∀ {n m}, I.nats.get? n = some m → m.Legible) : (t.inst I).Regular T where
  legible := forall_subterms_inst (fun hu => (types hu).legible) fun u hu _ within free =>
    legibleHead_inst (h.legible u hu) (fun hm => nats (within.nats hm)) free
  registered d ts ns hd := by
    refine forall_subterms_inst (P := fun u => ∀ d ts ns, u = .struct d ts ns →
      T.findStruct? d.name = some d) (fun hu v hv d ts ns same =>
        (types hu).registered d ts ns (same ▸ hv)) (fun u hu J _ free d ts ns same => ?_) _ hd d ts ns
      rfl
    cases u with
    | struct d' ts' ns' =>
      rw [inst_struct] at same
      cases same
      exact h.registered d ts' ns' hu
    | var p =>
      rw [inst_var, free p rfl] at same
      cases same
    | _ => simp at same

end Ty.Regular

/-- **There is one struct of a name** among the types over the structs of a table. -/
theorem SignatureTable.nominal_regular {T : SignatureTable}
    (fields : ∀ d, T.findStruct? d.name = some d → ∀ f ∈ d.fields, f.type.Regular T) :
    Nominal (Ty.Regular T) where
  legible h := h.legible
  component h hc := h.component hc
  single {d d' _ _ _ _} h h' name := by
    have found := h.registered d _ _ (Ty.mem_subterms_self _)
    rw [name, h'.registered d' _ _ (Ty.mem_subterms_self _)] at found
    exact (Option.some.inj found).symm
  fields {d ts ns fs} h hf := by
    unfold StructDecl.instantiateFields at hf
    split at hf
    · cases hf
      refine List.forall_mem_map.mpr fun f hf => ?_
      rw [Instantiation.apply_eq]
      refine (fields d (h.registered d ts ns (Ty.mem_subterms_self _)) f hf).inst
        (fun hu => h.component (Instantiation.mem_of_types_pair hu)) fun hm => ?_
      exact h.legible.head.2.2 _ (Instantiation.mem_of_nats_pair hm)
    · cases hf

/-- **One memory tells the plain classes.**  Types are classified one after another, each with what
    has been memorized before, and each answer is the one without memory: a class, or the reason why
    there is none. -/
theorem one_memory_tells_plain_classes {T : SignatureTable}
    (fields : ∀ d, T.findStruct? d.name = some d → ∀ f ∈ d.fields, f.type.Regular T)
    {ts : List Ty} (regular : ∀ t ∈ ts, t.Regular T) :
    ({} : ClassMemo).answers ts = ts.map Ty.classify :=
  (ClassMemo.plain_empty _).answers_eq
    (SignatureTable.nominal_regular fields).closedTextTells regular

/-- A struct with a qubit. -/
def wire : StructDecl := ⟨"Wire", {}, [⟨"q", .qubit⟩]⟩

/-- A struct around some values that may be missing, with a function that uses a wire. -/
def row : StructDecl :=
  ⟨"Row", ⟨[⟨"T", false, false⟩], ["n"]⟩,
    [⟨"cells", .array (.option (.var ⟨"T", false, false⟩)) (.var "n")⟩,
      ⟨"use", .fn [⟨.struct wire [] [], .borrowed⟩] .none {}⟩]⟩

theorem prelude_lacks {n : String} (hn : n ∈ ["Wire", "Row", "Label", "bool"]) :
    Prelude.table.Accepts n := by
  have new : ∀ n ∈ ["Wire", "Row", "Label", "bool"], n ∉ Prelude.signatures.map (·.name) := by
    decide +kernel
  exact Prelude.table_accepts (new n hn)

/-- The prelude, `Wire` and `Row`. -/
def rowTable : SignatureTable := [wire, row].foldl (fun T d => T.withStruct d {}) Prelude.table

theorem registerHeaders_row : registerHeaders Prelude.table
    [.struct ⟨{}, wire, []⟩, .struct ⟨{}, row, []⟩] =
      .ok ([(.struct ⟨{}, wire, []⟩, none), (.struct ⟨{}, row, []⟩, none)], rowTable) :=
  registerHeaders_structs [wire, row] (by simp [wire, row, prelude_lacks]) (by decide)

/-- Rows of wires and of numbers, one after another, and a type that is to be inferred. -/
def rows : List Ty :=
  [.struct row [.struct wire [] []] [.const 2], .struct row [.int] [.const 2],
    .tuple [.struct row [.int] [.const 2], .struct wire [] []], .undet 0,
    .struct row [.int] [.const 2]]

theorem findStruct?_rowTable : rowTable.findStruct? "Wire" = some wire ∧
    rowTable.findStruct? "Row" = some row := by
  simp [rowTable, SignatureTable.withStruct, SignatureTable.findStruct?, Dict.get?_insert, wire, row]

theorem wire_regular : (Ty.struct wire [] []).Regular rowTable := by
  refine .of_components ⟨(by decide : isName "Wire"), (by decide : reserved "Wire" = false), nofun⟩
    ?_ nofun
  rintro _ _ _ ⟨⟩
  exact findStruct?_rowTable.1

theorem row_regular {t : Ty} (h : t.Regular rowTable) :
    (Ty.struct row [t] [.const 2]).Regular rowTable := by
  refine .of_components ⟨(by decide : isName "Row"), (by decide : reserved "Row" = false), ?_⟩ ?_
    (List.forall_mem_singleton.mpr h)
  · exact List.forall_mem_singleton.mpr trivial
  · rintro _ _ _ ⟨⟩
    exact findStruct?_rowTable.2

theorem rowTable_regular (d : StructDecl) (hd : rowTable.findStruct? d.name = some d) :
    ∀ f ∈ d.fields, f.type.Regular rowTable := by
  have fields : ∀ d ∈ [wire, row], ∀ f ∈ d.fields, f.type.Regular rowTable := by
    simp only [List.forall_mem_cons, List.not_mem_nil, false_imp_iff, implies_true, and_true,
      wire, row]
    refine ⟨.of_components rfl nofun nofun, ?_, ?_⟩
    · refine .of_components (by decide : isName "n") nofun (List.forall_mem_singleton.mpr ?_)
      refine .of_components trivial nofun (List.forall_mem_singleton.mpr ?_)
      exact .of_components (by decide : isName "T") nofun nofun
    · refine .of_components nofun nofun (List.forall_mem_cons.mpr ⟨wire_regular, ?_⟩)
      exact List.forall_mem_singleton.mpr (.of_components rfl nofun nofun)
  exact fields d (SignatureTable.mem_of_findStruct?_foldl (Prelude.table_eq ▸ rfl) hd)

theorem rows_regular : ∀ t ∈ rows, t.Regular rowTable := by
  have numbers : (Ty.struct row [.int] [.const 2]).Regular rowTable :=
    row_regular (.of_components rfl nofun nofun)
  simp only [rows, List.forall_mem_cons, List.not_mem_nil, false_imp_iff, implies_true, and_true]
  refine ⟨row_regular wire_regular, numbers, ?_, .of_components trivial nofun nofun, numbers⟩
  exact .of_components trivial nofun
    (List.forall_mem_cons.mpr ⟨numbers, List.forall_mem_singleton.mpr wire_regular⟩)

theorem rows_told_by_one_memory :
    registerHeaders Prelude.table [.struct ⟨{}, wire, []⟩, .struct ⟨{}, row, []⟩] =
      .ok ([(.struct ⟨{}, wire, []⟩, none), (.struct ⟨{}, row, []⟩, none)], rowTable) ∧
    ({} : ClassMemo).answers rows =
      [.ok .linear, .ok .copyable, .ok .linear, .error (.unclassified 0), .ok .copyable] := by
  refine ⟨registerHeaders_row, ?_⟩
  rw [one_memory_tells_plain_classes rowTable_regular rows_regular]
  cbv

/-- A struct around a qubit that has the name of a leaf type. -/
def quantumBool : StructDecl := ⟨"bool", {}, [⟨"q", .qubit⟩]⟩

/-- A struct with a copyable `Wire`. -/
def label : StructDecl := ⟨"Label", {}, [⟨"w", .struct ⟨"Wire", {}, [⟨"v", .int⟩]⟩ [] []⟩]⟩

/-- **What has the same text has the same class in memory.**  The struct around a qubit makes truth
    values linear if it is called `bool`, and a wire becomes copyable behind a struct that is built
    from something else of that name.  All these structs are registered. -/
theorem memory_confuses_namesakes :
    (∃ headers T, registerHeaders Prelude.table [.struct ⟨{}, quantumBool, []⟩] = .ok (headers, T) ∧
      T.findStruct? "bool" = some quantumBool ∧
      ({} : ClassMemo).answers [.struct quantumBool [] [], .bool] = [.ok .linear, .ok .linear] ∧
      [.struct quantumBool [] [], Ty.bool].map Ty.classify = [.ok .linear, .ok .copyable]) ∧
    ∃ headers T, registerHeaders Prelude.table [.struct ⟨{}, wire, []⟩, .struct ⟨{}, label, []⟩] =
        .ok (headers, T) ∧
      T.findStruct? "Wire" = some wire ∧ T.findStruct? "Label" = some label ∧
      ({} : ClassMemo).answers [.struct label [] [], .struct wire [] []] =
        [.ok .copyable, .ok .copyable] ∧
      [.struct label [] [], Ty.struct wire [] []].map Ty.classify = [.ok .copyable, .ok .linear] := by
  refine ⟨⟨_, _, registerHeaders_structs [quantumBool] (by simp [quantumBool, prelude_lacks])
      (by decide), ?_⟩,
    ⟨_, _, registerHeaders_structs [wire, label] (by simp [wire, label, prelude_lacks])
      (by decide), ?_, ?_⟩⟩
  · exact ⟨SignatureTable.findStruct?_withStruct _ _ _, by cbv, by cbv⟩
  · simp [SignatureTable.withStruct, SignatureTable.findStruct?, Dict.get?_insert, wire, label]
  · exact ⟨SignatureTable.findStruct?_withStruct _ _ _, by cbv, by cbv⟩

end QuantumStatics
