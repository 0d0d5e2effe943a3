/-
  Sequences of registrations.

  A table is changed by three operations: a signature is added, a struct is added together with its
  constructor, and registration ends.  An operation that fails leaves the table as it was.  One that
  succeeds adds entries for names that had none, or does nothing because equal entries are there.

  A struct and a plain function of its name may be added in either order.  The second one is accepted
  only if the function has the interface of the constructor, so a registered struct always has its
  constructor under its name.

  * `registration_consistent`: the tables that operations lead to, whatever fails on the way.
-/
import QuantumStatics.Proofs.Evaluation
import QuantumStatics.Proofs.Signature.Entries
import QuantumStatics.Proofs.Ty.Relinking

namespace QuantumStatics

/-! ## Constructors -/

/-- A signature is that of the constructor of a struct: it has the generic parameters of the struct
    and one owned parameter for each field, and returns the struct applied to its own parameters. -/
structure Signature.Constructs (s : Signature) (d : StructDecl) : Prop where
  name : s.name = d.name
  generics : s.generics = d.params
  params : List.Forall₂ (fun p f => p.ownership = .owned ∧ p.type.equal f.type) s.params d.fields
  result : s.result.equal (.struct d (d.params.types.map .var) (d.params.nats.map .var))

theorem Signature.sameParams_fields {ps : List Param} {fs : List Field} :
    sameParams ps (fs.map fun f => ⟨f.name, f.type, .owned⟩) ↔
      List.Forall₂ (fun p f => p.ownership = .owned ∧ p.type.equal f.type) ps fs := by
  induction fs generalizing ps with
  | nil => cases ps <;> simp [sameParams]
  | cons f fs ih =>
    cases ps with
    | nil => simp [sameParams]
    | cons p ps => simp [sameParams, ih]

theorem Signature.same_constructor_iff {s : Signature} {d : StructDecl} {location : Location} :
    s.same (d.constructorSignature location) ↔ s.Constructs d := by
  rw [same_iff]
  constructor
  · rintro ⟨name, generics, result, params⟩
    exact ⟨name, generics, sameParams_fields.mp params, result⟩
  · rintro ⟨name, generics, params, result⟩
    exact ⟨name, generics, result, sameParams_fields.mpr params⟩

theorem StructDecl.same_refl (d : StructDecl) : d.same d := same_iff.mpr ⟨rfl, rfl, rfl⟩

namespace SignatureTable

variable {T T' : SignatureTable} {op : Operation}

/-! ## Adding -/

theorem checkOpen_eq (n : String) (T : SignatureTable) : checkOpen n T =
    if T.finalized then .error (.defect (.registrationEnded n)) T else .ok () T := by
  change (if T.finalized then _ else _ : Registration Unit) T = _
  cases T.finalized <;> rfl

/-- **Adding a signature**: once registration has ended it fails, a free name gets an entry, and an
    entry is left as it is, whether it is equal or not. -/
theorem add_eq (s : Signature) (T : SignatureTable) : add s T =
    if T.finalized then .error (.defect (.registrationEnded s.name)) T
    else match T.find? s.name with
      | none => .ok () (T.withSignature s)
      | some e =>
        if e.same s then .ok () T
        else .error (.rejected ⟨.conflictingSignature s.name e.location, s.location⟩) T := by
  have checked := checkOpen_eq s.name T
  split
  · rename_i ended
    rw [if_pos ended] at checked
    exact bind_of_error checked
  · rename_i unfinished
    rw [if_neg unfinished] at checked
    refine (bind_of_ok checked).trans ?_
    have hget : (get : Registration SignatureTable) T = .ok T T := rfl
    rw [bind_of_ok hget]
    cases T.find? s.name with
    | none => rfl
    | some e =>
      dsimp only
      cases e.same s <;> rfl

/-- **Adding a struct**: as for a signature; a new struct needs its constructor, which is added as a
    signature is. -/
theorem addStruct_eq (d : StructDecl) (location : Location) (T : SignatureTable) :
    addStruct d location T =
      if T.finalized then .error (.defect (.registrationEnded d.name)) T
      else match T.findStruct? d.name, T.find? d.name with
        | none, none => .ok () (T.withStruct d location)
        | none, some e =>
          if e.same (d.constructorSignature location) then
            .ok () { T with structs := T.structs.insert d.name d }
          else .error (.rejected ⟨.conflictingSignature d.name e.location, location⟩) T
        | some e, _ =>
          if e.same d then .ok () T
          else .error (.rejected ⟨.conflictingStruct d.name, location⟩) T := by
  have checked := checkOpen_eq d.name T
  have constructor := add_eq (d.constructorSignature location) T
  split
  · rename_i ended
    rw [if_pos ended] at checked
    exact bind_of_error checked
  · rename_i unfinished
    rw [if_neg unfinished] at checked constructor
    refine (bind_of_ok checked).trans ?_
    have hget : (get : Registration SignatureTable) T = .ok T T := rfl
    rw [bind_of_ok hget]
    cases T.findStruct? d.name with
    | some e =>
      dsimp only
      cases e.same d <;> rfl
    | none =>
      change add _ T = match T.find? d.name with | none => _ | some e => _ at constructor
      cases found : T.find? d.name with
      | none =>
        rw [found] at constructor
        exact bind_of_ok constructor
      | some e =>
        rw [found] at constructor
        dsimp only at constructor ⊢
        split at constructor
        · rename_i same
          rw [if_pos same]
          exact bind_of_ok constructor
        · rename_i different
          rw [if_neg different]
          exact bind_of_error constructor

/-! ## Operations -/

/-- What can be done to a table. -/
inductive Operation where
  | add (s : Signature)
  | addStruct (d : StructDecl) (location : Location)
  | finalize

/-- Carries out an operation. -/
def Operation.run : Operation → Registration Unit
  | .add s => SignatureTable.add s
  | .addStruct d location => SignatureTable.addStruct d location
  | .finalize => modify SignatureTable.finalize

/-- The table after some operations. -/
def perform (T : SignatureTable) (ops : List Operation) : SignatureTable :=
  ops.foldl (fun T op => after op.run T) T

/-- What an operation that succeeds makes of a table. -/
inductive Operation.Changes (T : SignatureTable) : Operation → SignatureTable → Prop
  | again {s e : Signature} : T.finalized = false → T.find? s.name = some e → e.same s →
    Changes T (.add s) T
  | structAgain {d e : StructDecl} {location : Location} : T.finalized = false →
    T.findStruct? d.name = some e → e.same d → Changes T (.addStruct d location) T
  | signature {s : Signature} : T.finalized = false → T.find? s.name = none →
    Changes T (.add s) (T.withSignature s)
  | struct {d : StructDecl} {location : Location} : T.Accepts d.name →
    Changes T (.addStruct d location) (T.withStruct d location)
  /-- A plain function has the name and the interface of the constructor. -/
  | constructed {d : StructDecl} {s : Signature} {location : Location} : T.finalized = false →
    T.findStruct? d.name = none → T.find? d.name = some s → s.Constructs d →
    Changes T (.addStruct d location) { T with structs := T.structs.insert d.name d }
  | finalize : Changes T .finalize T.finalize

/-- **What an operation can do**: it fails and leaves the table as it was, or it changes the table
    in one of few ways. -/
theorem Operation.run_cases (op : Operation) (T : SignatureTable) :
    (∃ e, op.run T = .error e T) ∨ ∃ T', op.run T = .ok () T' ∧ op.Changes T T' := by
  cases op with
  | finalize => exact .inr ⟨_, rfl, .finalize⟩
  | add s =>
    simp only [run, add_eq]
    split
    · exact .inl ⟨_, rfl⟩
    · rename_i unfinished
      have unfinished := Bool.eq_false_iff.mpr unfinished
      split
      · rename_i free
        exact .inr ⟨_, rfl, .signature unfinished free⟩
      · rename_i e found
        split
        · rename_i same
          exact .inr ⟨_, rfl, .again unfinished found same⟩
        · exact .inl ⟨_, rfl⟩
  | addStruct d location =>
    simp only [run, addStruct_eq]
    split
    · exact .inl ⟨_, rfl⟩
    · rename_i unfinished
      have unfinished := Bool.eq_false_iff.mpr unfinished
      split
      · rename_i struct signature
        exact .inr ⟨_, rfl, .struct ⟨signature, struct, unfinished⟩⟩
      · rename_i e struct found
        split
        · rename_i same
          exact .inr ⟨_, rfl, .constructed unfinished struct found
            (Signature.same_constructor_iff.mp same)⟩
        · exact .inl ⟨_, rfl⟩
      · rename_i e found
        split
        · rename_i same
          exact .inr ⟨_, rfl, .structAgain unfinished found same⟩
        · exact .inl ⟨_, rfl⟩

theorem Operation.eq_of_run_error {e : Failure} (h : op.run T = .error e T') : T' = T := by
  rcases op.run_cases T with ⟨e', failed⟩ | ⟨T'', succeeded, -⟩
  · cases failed.symm.trans h
    rfl
  · cases succeeded.symm.trans h

theorem Operation.changes_of_run_ok (h : op.run T = .ok () T') : op.Changes T T' := by
  rcases op.run_cases T with ⟨e, failed⟩ | ⟨T'', succeeded, changes⟩
  · cases failed.symm.trans h
  · cases succeeded.symm.trans h
    exact changes

/-- A table has what an operation asks for. -/
def Operation.Done (T : SignatureTable) : Operation → Prop
  | .add s => ∃ e, T.find? s.name = some e ∧ e.same s
  | .addStruct d _ => ∃ e, T.findStruct? d.name = some e ∧ e.same d
  | .finalize => T.finalized

theorem find?_withSignature (T : SignatureTable) (s : Signature) (n : String) :
    (T.withSignature s).find? n = if n = s.name then some s else T.find? n :=
  Dict.get?_insert ..

theorem findStruct?_insert (T : SignatureTable) (d : StructDecl) (n : String) :
    findStruct? { T with structs := T.structs.insert d.name d } n =
      if n = d.name then some d else T.findStruct? n :=
  Dict.get?_insert ..

theorem Operation.Changes.done {op : Operation} (h : op.Changes T T') : op.Done T' := by
  cases h with
  | again _ found same => exact ⟨_, found, same⟩
  | structAgain _ found same => exact ⟨_, found, same⟩
  | signature _ _ => exact ⟨_, by rw [find?_withSignature, if_pos rfl], Signature.same_refl _⟩
  | struct _ => exact ⟨_, findStruct?_withStruct .., StructDecl.same_refl _⟩
  | constructed _ _ _ _ => exact ⟨_, by rw [findStruct?_insert, if_pos rfl], StructDecl.same_refl _⟩
  | finalize => exact rfl

/-- **Doing again what has been done** changes nothing, before registration ends. -/
theorem Operation.run_of_done (unfinished : T.finalized = false) (done : op.Done T) :
    op.run T = .ok () T := by
  have unfinished' := Bool.eq_false_iff.mp unfinished
  cases op with
  | finalize => exact absurd done unfinished'
  | add s =>
    obtain ⟨e, found, same⟩ := done
    rw [run, add_eq, if_neg unfinished', found]
    exact if_pos same
  | addStruct d location =>
    obtain ⟨e, found, same⟩ := done
    rw [run, addStruct_eq, if_neg unfinished', found]
    exact if_pos same

/-! ## What every operation keeps -/

/-- What is registered in a table is registered in another one. -/
structure Extends (T T' : SignatureTable) : Prop where
  find? : ∀ {n s}, T.find? n = some s → T'.find? n = some s
  findStruct? : ∀ {n d}, T.findStruct? n = some d → T'.findStruct? n = some d
  finalized : T.finalized → T'.finalized

namespace Extends

theorem refl (T : SignatureTable) : T.Extends T := ⟨id, id, id⟩

theorem trans {T'' : SignatureTable} (h : T.Extends T') (h' : T'.Extends T'') : T.Extends T'' :=
  ⟨h'.find? ∘ h.find?, h'.findStruct? ∘ h.findStruct?, h'.finalized ∘ h.finalized⟩

theorem withSignature {s : Signature} (free : T.find? s.name = none) :
    T.Extends (T.withSignature s) := by
  refine ⟨fun {n e} found => ?_, id, id⟩
  rw [find?_withSignature, if_neg]
  · exact found
  · rintro rfl
    cases free.symm.trans found

theorem insertStruct {d : StructDecl} (free : T.findStruct? d.name = none) :
    T.Extends { T with structs := T.structs.insert d.name d } := by
  refine ⟨id, fun {n e} found => ?_, id⟩
  rw [findStruct?_insert, if_neg]
  · exact found
  · rintro rfl
    cases free.symm.trans found

end Extends

theorem Operation.Changes.extends (h : op.Changes T T') : T.Extends T' := by
  cases h with
  | again _ _ _ => exact .refl T
  | structAgain _ _ _ => exact .refl T
  | signature _ free => exact .withSignature free
  | @struct d location free =>
    exact (Extends.withSignature (s := d.constructorSignature location) free.signature).trans
      (.insertStruct free.struct)
  | constructed _ free _ _ => exact .insertStruct free
  | finalize => exact ⟨id, id, fun _ => rfl⟩

/-- Every entry stands under its own name, and every struct has a constructor. -/
structure Consistent (T : SignatureTable) : Prop where
  signature_name : ∀ {n s}, T.find? n = some s → s.name = n
  struct_name : ∀ {n d}, T.findStruct? n = some d → d.name = n
  constructor : ∀ {n d}, T.findStruct? n = some d → ∃ s, T.find? n = some s ∧ s.Constructs d

namespace Consistent

theorem empty : Consistent {} := ⟨nofun, nofun, nofun⟩

theorem withSignature (h : T.Consistent) {s : Signature} (free : T.find? s.name = none) :
    (T.withSignature s).Consistent where
  signature_name {n e} found := by
    rw [find?_withSignature] at found
    split at found
    · rename_i name
      cases found
      exact name.symm
    · exact h.signature_name found
  struct_name := h.struct_name
  constructor found := by
    obtain ⟨c, constructor, constructs⟩ := h.constructor found
    exact ⟨c, (Extends.withSignature free).find? constructor, constructs⟩

theorem insertStruct (h : T.Consistent) {d : StructDecl} {s : Signature}
    (found : T.find? d.name = some s) (constructs : s.Constructs d) :
    Consistent { T with structs := T.structs.insert d.name d } where
  signature_name := h.signature_name
  struct_name {n e} found := by
    rw [findStruct?_insert] at found
    split at found
    · rename_i name
      cases found
      exact name.symm
    · exact h.struct_name found
  constructor {n e} found' := by
    rw [findStruct?_insert] at found'
    split at found'
    · rename_i name
      cases found'
      subst name
      exact ⟨s, found, constructs⟩
    · exact h.constructor found'

end Consistent

theorem Operation.Changes.consistent {op : Operation} (h : op.Changes T T')
    (consistent : T.Consistent) : T'.Consistent := by
  cases h with
  | again _ _ _ => exact consistent
  | structAgain _ _ _ => exact consistent
  | signature _ free => exact consistent.withSignature free
  | @struct d location free =>
    have added := consistent.withSignature (s := d.constructorSignature location) free.signature
    refine added.insertStruct (s := d.constructorSignature location) ?_ ?_
    · rw [find?_withSignature]
      exact if_pos rfl
    · exact Signature.same_constructor_iff.mp (Signature.same_refl (d.constructorSignature location))
  | constructed _ _ found constructs => exact consistent.insertStruct found constructs
  | finalize => exact ⟨consistent.signature_name, consistent.struct_name, consistent.constructor⟩

theorem Operation.Changes.finalized_iff (h : op.Changes T T') :
    T'.finalized ↔ T.finalized ∨ op = .finalize := by
  cases h <;> simp [withStruct, withSignature, SignatureTable.finalize]

/-! ## Sequences of operations -/

theorem Operation.after_cases (op : Operation) (T : SignatureTable) :
    op.Changes T (after op.run T) ∨ after op.run T = T ∧ op ≠ .finalize := by
  rcases op.run_cases T with ⟨e, failed⟩ | ⟨T', succeeded, changes⟩
  · refine .inr ⟨by rw [after, failed], ?_⟩
    rintro rfl
    cases failed
  · rw [after, succeeded]
    exact .inl changes

theorem Extends.perform (T : SignatureTable) (ops : List Operation) : T.Extends (T.perform ops) := by
  induction ops generalizing T with
  | nil => exact .refl T
  | cons op ops ih =>
    refine .trans ?_ (ih (after op.run T))
    rcases op.after_cases T with changes | ⟨same, -⟩
    · exact changes.extends
    · rw [same]
      exact .refl T

theorem Consistent.perform (h : T.Consistent) (ops : List Operation) :
    (T.perform ops).Consistent := by
  induction ops generalizing T with
  | nil => exact h
  | cons op ops ih =>
    refine ih (T := after op.run T) ?_
    rcases op.after_cases T with changes | ⟨same, -⟩
    · exact changes.consistent h
    · rwa [same]

theorem finalized_perform (T : SignatureTable) (ops : List Operation) :
    (T.perform ops).finalized ↔ T.finalized ∨ .finalize ∈ ops := by
  induction ops generalizing T with
  | nil => simp [perform]
  | cons op ops ih =>
    have step : (after op.run T).finalized ↔ T.finalized ∨ op = .finalize := by
      rcases op.after_cases T with changes | ⟨same, other⟩
      · exact changes.finalized_iff
      · simp [same, other]
    refine (ih (after op.run T)).trans ?_
    rw [step, List.mem_cons, or_assoc, eq_comm (a := op)]

/-- **Registration is consistent**: whatever operations have been tried on an empty table,

    * what is registered stays, whatever is tried later;
    * every struct has its constructor under its name, and every entry stands under its own name;
    * what fails leaves the table as it is, and after the end of registration everything that
      registers fails;
    * what succeeds has been done, and until the end of registration doing it again changes
      nothing. -/
theorem registration_consistent (ops : List Operation) :
    let T := perform {} ops
    (∀ later, T.Extends (T.perform later)) ∧
    (∀ n d, T.findStruct? n = some d → ∃ s, T.find? n = some s ∧ s.Constructs d ∧
      ∀ location, s.same (d.constructorSignature location)) ∧
    (∀ n s, T.find? n = some s → s.name = n) ∧
    (∀ n d, T.findStruct? n = some d → d.name = n) ∧
    (∀ op : Operation, ∀ e T', op.run T = .error e T' → T' = T) ∧
    (.finalize ∈ ops → ∀ s d location,
      add s T = .error (.defect (.registrationEnded s.name)) T ∧
      addStruct d location T = .error (.defect (.registrationEnded d.name)) T) ∧
    (∀ op : Operation, ∀ T', op.run T = .ok () T' → op.Done T') ∧
    (.finalize ∉ ops → ∀ op : Operation, op.Done T → op.run T = .ok () T) := by
  intro T
  have consistent : T.Consistent := Consistent.empty.perform ops
  have ended : T.finalized ↔ .finalize ∈ ops := by
    simpa using finalized_perform {} ops
  refine ⟨.perform T, fun n d found => ?_, fun _ _ => consistent.signature_name,
    fun _ _ => consistent.struct_name, fun op e T' => op.eq_of_run_error,
    fun closed s d location => ?_, fun op T' h => (op.changes_of_run_ok h).done,
    fun unfinished op done => ?_⟩
  · obtain ⟨s, constructor, constructs⟩ := consistent.constructor found
    exact ⟨s, constructor, constructs, fun _ => Signature.same_constructor_iff.mpr constructs⟩
  · have closed := ended.mpr closed
    rw [add_eq, addStruct_eq, if_pos closed, if_pos closed]
    exact ⟨rfl, rfl⟩
  · exact op.run_of_done (Bool.eq_false_iff.mpr (mt ended.mp unfinished)) done

/-- A struct with a qubit and a number. -/
def pair : StructDecl := ⟨"Pair", {}, [⟨"wire", .qubit⟩, ⟨"count", .int⟩]⟩

/-- A plain function with the name and the interface of the constructor. -/
def makePair : Signature where
  name := "Pair"
  params := [⟨"q", .qubit, .owned⟩, ⟨"n", .int, .owned⟩]
  result := pair.selfType
  location := ⟨"pair.qs", 1⟩

/-- A plain function of that name with another interface. -/
def lendPair : Signature := { makePair with params := [⟨"q", .qubit, .borrowed⟩] }

/-- The plain function, the struct, and a function that is rejected. -/
def pairOperations : List Operation :=
  [.add makePair, .addStruct pair ⟨"pair.qs", 2⟩, .add lendPair]

/-- A function that comes before its struct is the constructor, a function with another interface is
    rejected, the struct can be added again, and after the end nothing can. -/
theorem registration_consistent_pair :
    let T := perform {} pairOperations
    let T' := perform {} (pairOperations ++ [.finalize])
    (∃ s, T.find? "Pair" = some s ∧ s.Constructs pair ∧
      ∀ location, s.same (pair.constructorSignature location)) ∧
    (∃ e, add lendPair T = .error e T) ∧
    addStruct pair {} T = .ok () T ∧
    T.Extends (T.perform [.finalize, .add lendPair]) ∧
    add makePair T' = .error (.defect (.registrationEnded "Pair")) T' := by
  intro T T'
  obtain ⟨stays, constructor, -, -, failed, -, -, again⟩ := registration_consistent pairOperations
  obtain ⟨-, -, -, -, -, ended, -, -⟩ :=
    registration_consistent (pairOperations ++ [.finalize])
  have found : T.findStruct? "Pair" = some pair := by cbv
  have conflict : ∃ e T₁, Operation.run (.add lendPair) T = .error e T₁ := ⟨_, _, by cbv⟩
  obtain ⟨e, T₁, conflict⟩ := conflict
  refine ⟨constructor "Pair" pair found, ⟨e, ?_⟩, ?_, stays _, (ended (by simp) makePair pair {}).1⟩
  · rw [failed _ _ _ conflict] at conflict
    exact conflict
  · exact again (by simp [pairOperations]) (.addStruct pair {})
      ⟨pair, found, StructDecl.same_refl pair⟩

end SignatureTable

end QuantumStatics
