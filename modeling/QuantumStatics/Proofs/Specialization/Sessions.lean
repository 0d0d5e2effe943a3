/-
  What requests leave in the cache.

  In a session requests are answered one after the other, each with the specializations that the
  earlier ones have left, whether these succeeded or not.

  * `cached_definition_is_specialized`: what is cached is the definition with arguments put for its
    generic parameters, and nothing in it is open;
  * `cache_has_what_it_mentions`: a cached definition lists what it calls and mentions, and all of
    this is cached, as are the structs that cached structs mention.
-/
import QuantumStatics.Proofs.Evaluation
import QuantumStatics.Proofs.Signature.Registered
import QuantumStatics.Proofs.Specialization.Drafts

namespace QuantumStatics.Specialization

open Typed

/-! ## Sessions -/

/-- The cache that a computation leaves, whether it succeeds or not. -/
def cacheOf {α : Type} : EStateM.Result Failure Cache α → Cache
  | .ok _ c | .error _ c => c

/-- The cache after some requests, those that fail included. -/
def session (T : SignatureTable) (D : Definitions) (rs : List Request) : Cache :=
  rs.foldl (fun c r => cacheOf (r.answer T D c)) {}

variable {T : SignatureTable} {D : Definitions} {K : Request → Prop} {c : Cache} {kind : Kind}
  {text x : String} {texts l : List String} {needs : List Need}

theorem Answers.built {r : Request} {x : Specializing Specialized} (h : Answers T D K r x)
    (hc : Built T D K c) : Built T D K (cacheOf (x c)) := by
  have h := h c hc trivial
  cases hx : x c with
  | ok s c' =>
    rw [hx] at h
    exact h.1
  | error e c' =>
    rw [hx] at h
    exact h.1

theorem session_built (hK : ClosedUnderNeeds T D K) {rs : List Request} (h : ∀ r ∈ rs, K r) :
    Built T D K (session T D rs) := by
  suffices ∀ c, Built T D K c →
      Built T D K (rs.foldl (fun c r => cacheOf (r.answer T D c)) c) from this {} .empty
  induction rs with
  | nil => exact fun _ hc => hc
  | cons r rs ih =>
    rw [List.forall_mem_cons] at h
    exact fun c hc => ih h.2 _ ((Request.answer_builds hK h.1).built hc)

theorem session_made (T : SignatureTable) (D : Definitions) (rs : List Request) {s : Specialized}
    (h : (session T D rs).find? kind text = some s) :
    ∃ r p, r.kind = kind ∧ r.key.text = text ∧ Made T D (session T D rs) r p s := by
  have hK : ClosedUnderNeeds T D fun _ => True := fun _ _ _ _ _ _ => trivial
  obtain ⟨r, p, _, h⟩ := (session_built hK fun _ _ => trivial).made h
  exact ⟨r, p, h⟩

theorem find?_definition {d : ConcreteDefinition} :
    c.find? .definition text = some (.definition d) ↔ c.definitions.get? text = some d := by
  simp [Cache.find?]

theorem find?_struct {s : ConcreteStruct} :
    c.find? .struct text = some (.struct s) ↔ c.structs.get? text = some s := by
  simp [Cache.find?]

/-! ## Keys that are listed -/

theorem mem_addKeys : x ∈ texts.foldl Draft.addKey l ↔ x ∈ l ∨ x ∈ texts := by
  induction texts generalizing l with
  | nil => simp
  | cons text texts ih =>
    rw [List.foldl_cons, ih, List.mem_cons, Draft.addKey]
    split
    · next h =>
      have h : text ∈ l := by simpa using h
      constructor
      · exact fun h => h.imp_right .inr
      · rintro (hl | rfl | ht)
        · exact .inl hl
        · exact .inl h
        · exact .inr ht
    · simp [or_assoc]

theorem nodup_addKeys (h : l.Nodup) : (texts.foldl Draft.addKey l).Nodup := by
  induction texts generalizing l with
  | nil => exact h
  | cons text texts ih =>
    refine ih ?_
    rw [Draft.addKey]
    split
    · exact h
    · next ht =>
      have ht : text ∉ l := by simpa using ht
      refine List.nodup_append.mpr ⟨h, by simp, ?_⟩
      rintro x hx y hy rfl
      exact ht (List.mem_singleton.mp hy ▸ hx)

theorem mem_keyTexts :
    x ∈ keyTexts kind needs ↔ ∃ r, .request r ∈ needs ∧ r.kind = kind ∧ r.key.text = x := by
  rw [keyTexts, mem_addKeys, List.mem_filterMap]
  constructor
  · rintro (h | ⟨n, hn, h⟩)
    · cases h
    · cases n with
      | impossible d => cases h
      | request r =>
        obtain ⟨hk, ht⟩ : r.kind = kind ∧ r.key.text = x := by simpa [Need.keyText?] using h
        exact ⟨r, hn, hk, ht⟩
  · rintro ⟨r, hr, hk, ht⟩
    exact .inr ⟨.request r, hr, by simp [Need.keyText?, hk, ht]⟩

/-! ## Needs of the parts of a definition -/

section

variable {I : Instantiation} {f : Typed.Function} {location : Location} {r : Request}

theorem const_of_met {n : NatTerm} (h : ∀ need ∈ natNeeds I n, need.Met c) :
    ∃ value, I.applyNat n = .const value := by
  rw [natNeeds] at h
  cases hn : I.applyNat n with
  | const value => exact ⟨value, rfl⟩
  | var _ | undet _ =>
    rw [hn] at h
    exact (h _ (List.mem_singleton_self _)).elim

theorem specialize_closed_of_met {part : Part} (h : ∀ n ∈ partNeeds D I location part, n.Met c) :
    (part.specialize I).Closed := by
  cases part with
  | type t =>
    by_cases hc : (I.apply t).closed
    · exact hc
    · rw [partNeeds, if_neg hc] at h
      exact (h _ (List.mem_singleton_self _)).elim
  | nat n =>
    obtain ⟨value, hn⟩ := const_of_met h
    exact congrArg NatTerm.isConst hn
  | natParam name =>
    obtain ⟨value, hn⟩ := const_of_met h
    rw [Part.specialize, hn]
    exact (rfl : Ty.nat.closed = true)
  | call _ _ => exact trivial

theorem request_mem_type {t : Ty} :
    .request r ∈ partNeeds D I location (.type t) ↔
      (I.apply t).closed ∧ ∃ key ∈ (I.apply t).structKeys, r = ⟨.struct, key, location⟩ := by
  rw [partNeeds]
  split
  · next hc => simp [structNeeds, hc, eq_comm (a := r)]
  · next hc => simp [hc]

theorem request_mem_call {l : Location} {call : CallTarget} :
    .request r ∈ partNeeds D I location (.call l call) ↔
      D.contains call.callee ∧ r = ⟨.definition, (call.inst I).key, l⟩ := by
  rw [partNeeds]
  split <;> simp_all

theorem request_not_mem_natNeeds {n : NatTerm} : .request r ∉ natNeeds I n := by
  rw [natNeeds]
  split <;> simp

theorem request_mem_definitionNeeds :
    .request r ∈ definitionNeeds D I f ↔
      (∃ t, .type t ∈ f.parts ∧ (I.apply t).closed ∧
        ∃ key ∈ (I.apply t).structKeys, r = ⟨.struct, key, f.location⟩) ∨
      ∃ l call, .call l call ∈ f.parts ∧ D.contains call.callee ∧
        r = ⟨.definition, (call.inst I).key, l⟩ := by
  simp only [definitionNeeds, List.mem_flatMap]
  constructor
  · rintro ⟨part, hp, h⟩
    cases part with
    | type t => exact .inl ⟨t, hp, request_mem_type.mp h⟩
    | call l call => exact .inr ⟨l, call, hp, request_mem_call.mp h⟩
    | nat n | natParam n => exact (request_not_mem_natNeeds h).elim
  · rintro (⟨t, hp, h⟩ | ⟨l, call, hp, h⟩)
    · exact ⟨_, hp, request_mem_type.mpr h⟩
    · exact ⟨_, hp, request_mem_call.mpr h⟩

theorem mem_callees {x : String} :
    x ∈ keyTexts .definition (definitionNeeds D I f) ↔
      ∃ call ∈ (f.specialize I).calls, D.contains call.callee ∧ call.specialization = some x := by
  simp only [mem_keyTexts, request_mem_definitionNeeds, Function.mem_calls,
    Function.call_mem_specialize]
  constructor
  · rintro ⟨r, ⟨t, _, _, key, _, rfl⟩ | ⟨l, call, hp, hc, rfl⟩, hk, hx⟩
    · cases hk
    · exact ⟨call.specialize I, ⟨l, call, hp, rfl⟩, hc, congrArg some hx⟩
  · rintro ⟨_, ⟨l, call, hp, rfl⟩, hc, hx⟩
    exact ⟨_, .inr ⟨l, call, hp, hc, rfl⟩, rfl, Option.some.inj hx⟩

theorem mem_structs (h : ∀ n ∈ definitionNeeds D I f, n.Met c) {x : String} :
    x ∈ keyTexts .struct (definitionNeeds D I f) ↔
      ∃ t ∈ (f.specialize I).types, ∃ key ∈ t.structKeys, key.text = x := by
  simp only [mem_keyTexts, request_mem_definitionNeeds, Function.mem_types,
    Function.type_mem_specialize]
  constructor
  · rintro ⟨r, ⟨t, hp, _, key, hk, rfl⟩ | ⟨l, call, _, _, rfl⟩, hr, hx⟩
    · exact ⟨I.apply t, .inl ⟨t, hp, rfl⟩, key, hk, hx⟩
    · cases hr
  · rintro ⟨_, ⟨t, hp, rfl⟩ | ⟨rfl, _⟩, key, hk, hx⟩
    · have hc : (Part.specialize I (.type t)).Closed :=
        specialize_closed_of_met fun n hn => h n (List.mem_flatMap.mpr ⟨_, hp, hn⟩)
      exact ⟨_, .inl ⟨t, hp, hc, key, hk, rfl⟩, rfl, hx⟩
    · cases hk

end

/-! ## What is cached -/

/-- A struct with a value of any type. -/
def cell : StructDecl :=
  ⟨"Cell", ⟨[⟨"T", false, false⟩], []⟩, [⟨"v", .var ⟨"T", false, false⟩⟩]⟩

/-- The struct `Cell`. -/
def cellTable : SignatureTable := SignatureTable.after (SignatureTable.addStruct cell {}) {}

/-- Reads a nat parameter and puts its argument into a cell. -/
def put : Typed.Function where
  name := "put"
  generics := ⟨[⟨"T", false, false⟩], ["n"]⟩
  params := [⟨"x", .var ⟨"T", false, false⟩, .owned⟩]
  result := .struct cell [.var ⟨"T", false, false⟩] []
  body :=
    [.expr {} (.natParam {} "n"),
      .ret {} (some (.call {} (.struct cell [.var ⟨"T", false, false⟩] [])
        { callee := "Cell", kind := .constructor, ownership := [.owned]
          typeArgs := [.var ⟨"T", false, false⟩] }
        [.name {} (.var ⟨"T", false, false⟩) "x" .consume]))]

/-- Calls `put` with a number. -/
def putNumber (specialization : Option String) : Stmt :=
  .expr {} (.call {} (.struct cell [.int] [])
    { callee := "put", kind := .function, ownership := [.owned], typeArgs := [.int]
      natArgs := [.const 3], specialization } [.int {} .int 1])

/-- Calls `put` twice. -/
def putTwice : Typed.Function where
  name := "putTwice"
  params := []
  result := .none
  body := [putNumber none, putNumber none]

/-- Calls `putTwice`, and then itself, for which it cannot be specialized. -/
def putForever : Typed.Function where
  name := "putForever"
  params := []
  result := .none
  body :=
    [.expr {} (.call {} .none { callee := "putTwice", kind := .function, ownership := [] } []),
      .expr {} (.call {} .none { callee := "putForever", kind := .function, ownership := [] } [])]

/-- The cache after the request for `putForever`, which fails. -/
def putCache : Cache :=
  session cellTable (definitionsOf [put, putTwice, putForever])
    [⟨.definition, ⟨"putForever", [], []⟩, {}⟩]

/-- The specialization of `put` to `int` and 3. -/
def putInt : ConcreteDefinition where
  key := "put[int; 3]"
  function :=
    { name := "put"
      params := [⟨"x", .int, .owned⟩]
      result := .struct cell [.int] []
      body :=
        [.expr {} (.int {} .nat 3),
          .ret {} (some (.call {} (.struct cell [.int] [])
            { callee := "Cell", kind := .constructor, ownership := [.owned], typeArgs := [.int]
              specialization := some "Cell[int]" }
            [.name {} .int "x" .consume]))] }
  callees := []
  structs := ["Cell[int]"]

/-- The specialization of `putTwice` in this cache. -/
def putIntTwice : ConcreteDefinition where
  key := "putTwice"
  function :=
    { putTwice with body := [putNumber (some "put[int; 3]"), putNumber (some "put[int; 3]")] }
  callees := ["put[int; 3]"]
  structs := ["Cell[int]"]

/-- **A cached definition is specialized.**  It comes from a definition and arguments for it that
    pass and make up its key.  Its function is the definition with the arguments put for the generic
    parameters throughout, in which the calls name what they invoke.  All its types are closed and
    all its nats are constants. -/
theorem cached_definition_is_specialized (T : SignatureTable) (D : Definitions)
    (rs : List Request) {k : String} {d : ConcreteDefinition}
    (h : (session T D rs).definitions.get? k = some d) :
    ∃ (key : Key) (f : Typed.Function) (I : Instantiation),
      D.get? key.name = some f ∧ (∀ location, key.checkArgs f.generics location = .ok ()) ∧
      key.text = k ∧ Instantiation.ofArgs f.generics key.typeArgs key.natArgs = .ok I ∧
      d.key = k ∧ d.function = f.specialize I ∧
      (∀ t ∈ d.function.types, t.closed) ∧ ∀ n ∈ d.function.nats, n.isConst := by
  obtain ⟨⟨_, key, l⟩, p, rfl, rfl, hm⟩ := session_made T D rs (find?_definition.mpr h)
  obtain ⟨f, hf, hk, rfl⟩ := plan_definition_eq_ok.mp hm.plan
  cases hm.result
  have hclosed : ∀ part ∈ (f.specialize (.pair f.generics key.typeArgs key.natArgs)).parts,
      part.Closed := by
    rw [Function.parts_specialize]
    intro _ hmem
    obtain ⟨part, hp, rfl⟩ := List.mem_map.mp hmem
    exact specialize_closed_of_met fun n hn => hm.met n (List.mem_flatMap.mpr ⟨part, hp, hn⟩)
  refine ⟨key, f, _, hf, fun l => checkArgs_anywhere l hk, rfl, ofArgs_of_checkArgs hk, rfl, rfl,
    fun t ht => hclosed _ (Function.mem_types.mp ht), fun n hn => ?_⟩
  rcases Function.mem_nats.mp hn with hn | ⟨name, hn, _⟩
  · exact hclosed _ hn
  · exact (hclosed _ hn).elim

/-- A failed request leaves a specialization of `put` behind, with a number for the nat
    parameter. -/
theorem put_cached_is_specialized :
    putCache.definitions.get? "put[int; 3]" = some putInt ∧
      ∃ (key : Key) (f : Typed.Function) (I : Instantiation),
        Dict.get? (definitionsOf [put, putTwice, putForever]) key.name = some f ∧
        (∀ location, key.checkArgs f.generics location = .ok ()) ∧ key.text = "put[int; 3]" ∧
        Instantiation.ofArgs f.generics key.typeArgs key.natArgs = .ok I ∧
        putInt.key = "put[int; 3]" ∧ putInt.function = f.specialize I ∧
        (∀ t ∈ putInt.function.types, t.closed) ∧ ∀ n ∈ putInt.function.nats, n.isConst := by
  have h : putCache.definitions.get? "put[int; 3]" = some putInt := by cbv
  exact ⟨h, cached_definition_is_specialized _ _ _ h⟩

theorem contains_of_mem_keyTexts (h : ∀ n ∈ needs, n.Met c) (hx : x ∈ keyTexts kind needs) :
    ∃ s, c.find? kind x = some s := by
  obtain ⟨r, hr, rfl, rfl⟩ := mem_keyTexts.mp hx
  exact h _ hr

theorem contains_definition : c.definitions.contains x ↔ ∃ s, c.find? .definition x = some s := by
  rw [Dict.contains, ← Option.isSome_iff_exists]
  simp [Cache.find?]

theorem contains_struct : c.structs.contains x ↔ ∃ s, c.find? .struct x = some s := by
  rw [Dict.contains, ← Option.isSome_iff_exists]
  simp [Cache.find?]

/-- **The cache has what it mentions.**  A cached definition lists, each once, what its calls name
    and has a definition, and the structs that its types mention, and all that it lists is cached.
    What the fields of a cached struct mention is cached, too. -/
theorem cache_has_what_it_mentions (T : SignatureTable) (D : Definitions) (rs : List Request) :
    (∀ k d, (session T D rs).definitions.get? k = some d →
      (∀ x ∈ d.callees, (session T D rs).definitions.contains x) ∧
      (∀ x ∈ d.structs, (session T D rs).structs.contains x) ∧
      d.callees.Nodup ∧ (∀ x, x ∈ d.callees ↔
        ∃ call ∈ d.function.calls, D.contains call.callee ∧ call.specialization = some x) ∧
      d.structs.Nodup ∧ ∀ x, x ∈ d.structs ↔
        ∃ t ∈ d.function.types, ∃ key ∈ t.structKeys, key.text = x) ∧
    ∀ k s, (session T D rs).structs.get? k = some s →
      ∀ f ∈ s.fields, ∀ key ∈ f.type.structKeys, (session T D rs).structs.contains key.text := by
  constructor
  · intro k d h
    obtain ⟨⟨_, key, l⟩, p, rfl, rfl, hm⟩ := session_made T D rs (find?_definition.mpr h)
    obtain ⟨f, _, _, rfl⟩ := plan_definition_eq_ok.mp hm.plan
    cases hm.result
    exact ⟨fun x hx => contains_definition.mpr (contains_of_mem_keyTexts hm.met hx),
      fun x hx => contains_struct.mpr (contains_of_mem_keyTexts hm.met hx),
      nodup_addKeys .nil, fun x => mem_callees, nodup_addKeys .nil, fun x => mem_structs hm.met⟩
  · intro k s h f hf key hkey
    obtain ⟨⟨_, key', l⟩, p, rfl, rfl, hm⟩ := session_made T D rs (find?_struct.mpr h)
    obtain ⟨decl, _, _, rfl⟩ := plan_struct_eq_ok.mp hm.plan
    obtain ⟨ownership, _, heq⟩ := structPlan_result hm.result
    cases heq
    refine contains_struct.mpr (hm.met (.request ⟨.struct, key, l⟩) ?_)
    exact List.mem_flatMap.mpr ⟨f, hf, List.mem_map.mpr ⟨key, hkey, rfl⟩⟩

/-- A failed request leaves all that `putTwice` calls and mentions behind. -/
theorem putTwice_cached_with_callee :
    putCache.definitions.get? "putTwice" = some putIntTwice ∧
      putCache.definitions.contains "put[int; 3]" ∧ putCache.structs.contains "Cell[int]" := by
  have h : putCache.definitions.get? "putTwice" = some putIntTwice := by cbv
  obtain ⟨hcallees, hstructs, _⟩ := (cache_has_what_it_mentions _ _ _).1 _ _ h
  exact ⟨h, hcallees _ List.mem_cons_self, hstructs _ List.mem_cons_self⟩

end QuantumStatics.Specialization
