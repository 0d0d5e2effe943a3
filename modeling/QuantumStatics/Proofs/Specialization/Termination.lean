/-
  Every request ends.

  A request for a struct asks for the structs in its fields.  A request for a definition replaces
  the types of its tree; on the way it asks for the structs that the types mention, each of which
  starts a chain of its own, and for the definitions that are called.  The arguments may grow from
  one request to the next, and a struct is looked up again by its name.  But what is asked for under
  the same chain has one name more on it, the name of something known; so the names that are known
  and not on the chain get fewer.

  * `requests_end`: every request ends, whatever is cached.
-/
import QuantumStatics.Proofs.Recursion
import QuantumStatics.Proofs.Specialization.Chains

namespace QuantumStatics.Specialization

open Recursion

/-! ## Requests as one recursion -/

/-- What a request leads to. -/
abbrev Kind.Result : Kind → Type
  | .struct => ConcreteStruct
  | .definition => ConcreteDefinition

/-- A request in progress: the keys before it on the chain, and what is cached. -/
structure Call where
  kind : Kind
  chain : Chain
  key : Key
  location : Location
  cache : Cache

/-- What a call returns. -/
abbrev Call.Answer (c : Call) : Type := EStateM.Result Failure Cache c.kind.Result

/-- `closeType`, with requests for structs answered by `structs`. -/
def closeTypeVia (structs : Key → Location → Specializing ConcreteStruct) (I : Instantiation)
    (location : Location) (t : Ty) : Drafting Ty := do
  let closed := I.apply t
  unless closed.closed do
    .defect (.openType closed)
  closed.structKeys.forM fun k => do
    let s ← Draft.specializing (structs k location)
    Draft.addStruct s.key.text
  return closed

/-- A request for a definition, with further requests answered as given. -/
def definitionVia (D : Definitions) (structs : Key → Location → Specializing ConcreteStruct)
    (nested : DefinitionRequest) : DefinitionRequest :=
  fun chain key location => do
    match D.get? key.name with
    | none => .reject location (.noDefinition key.name)
    | some f =>
      .ofExcept (key.checkArgs f.generics location)
      match (← get).definitions.get? key.text with
      | some d => return d
      | none =>
        let chain ← .ofExcept (enter chain key location)
        let I ← .ofDefect (Instantiation.ofArgs f.generics key.typeArgs key.natArgs)
        publish (← drafting key.text (f.replace
          ⟨closeTypeVia structs I f.location, closeNat I, linkCall D (nested chain)⟩))

theorem definitionWith_eq_via (T : SignatureTable) (D : Definitions) (nested : DefinitionRequest) :
    definitionWith T D nested = definitionVia D (requestStruct T) nested := rfl

/-- Answers calls of both kinds. -/
def answersBy (structs : StructRequest) (definitions : DefinitionRequest) : (c : Call) → c.Answer
  | ⟨.struct, chain, key, location, cache⟩ => structs chain key location cache
  | ⟨.definition, chain, key, location, cache⟩ => definitions chain key location cache

/-- Answers requests for structs. -/
def structsOf (go : (c : Call) → c.Answer) : StructRequest :=
  fun chain key location cache => go ⟨.struct, chain, key, location, cache⟩

/-- Answers requests for definitions. -/
def definitionAnswers (go : (c : Call) → c.Answer) : DefinitionRequest :=
  fun chain key location cache => go ⟨.definition, chain, key, location, cache⟩

/-- One step of the recursion of requests.  The structs that a definition mentions start a chain of
    their own. -/
def step (T : SignatureTable) (D : Definitions) (go : (c : Call) → c.Answer) :
    (c : Call) → c.Answer :=
  answersBy (structWith T (structsOf go)) (definitionVia D (structsOf go []) (definitionAnswers go))

/-! ## What is asked for -/

section

variable {α : Type}

theorem bind_congr_ok {ε σ α β : Type} {s : σ} {x : EStateM ε σ α} {f f' : α → EStateM ε σ β}
    (h : ∀ a s', x s = .ok a s' → f a s' = f' a s') : (x >>= f) s = (x >>= f') s := by
  cases hx : x s with
  | ok a s' => rw [bind_of_ok hx, bind_of_ok hx, h a s' hx]
  | error e s' => rw [bind_of_error hx, bind_of_error hx]

/-- Other requests are made only after entering the chain with one of the names, and are made under
    the chain that results. -/
def Nests (names : List String) (answering : (Chain → Key → Location → Specializing α) →
    Chain → Key → Location → Specializing α) : Prop :=
  ∀ nested nested' chain key location cache,
    (key.name ∈ names → (∀ k ∈ chain, k.name ≠ key.name) →
      nested (chain ++ [key]) = nested' (chain ++ [key])) →
    answering nested chain key location cache = answering nested' chain key location cache

theorem structWith_nests (T : SignatureTable) : Nests T.structs.keys (structWith T) := by
  intro nested nested' chain key location cache same
  refine bind_congr_ok fun decl c hd => bind_congr_ok fun _ c _ => bind_congr_ok fun c' c _ => ?_
  cases c'.structs.get? key.text with
  | some s => rfl
  | none =>
    refine bind_congr_ok fun chain' c he => ?_
    obtain ⟨fresh, rfl⟩ := enter_eq_ok (ofExcept_eq_ok.mp he).1
    have known : key.name ∈ T.structs.keys := by
      unfold SignatureTable.lookupStruct at hd
      cases hf : T.findStruct? key.name with
      | none => rw [hf] at hd; cases hd
      | some d => exact mem_keys_of_get? hf
    rw [same known fresh]

theorem definitionVia_nests (D : Definitions)
    (structs : Key → Location → Specializing ConcreteStruct) :
    Nests D.keys (definitionVia D structs) := by
  intro nested nested' chain key location cache same
  rw [definitionVia, definitionVia]
  cases hd : D.get? key.name with
  | none => rfl
  | some f =>
    refine bind_congr_ok fun _ c _ => bind_congr_ok fun c' c _ => ?_
    cases c'.definitions.get? key.text with
    | some d => rfl
    | none =>
      refine bind_congr_ok fun chain' c he => ?_
      obtain ⟨fresh, rfl⟩ := enter_eq_ok (ofExcept_eq_ok.mp he).1
      rw [same (mem_keys_of_get? hd) fresh]

end

/-- What is asked for under a chain, of the same kind, has one name of those known more on its
    chain. -/
structure Deeper (names : List String) (x c : Call) : Prop where
  kind : x.kind = c.kind
  chain : x.chain = c.chain ++ [c.key]
  known : c.key.name ∈ names
  fresh : ∀ k ∈ c.chain, k.name ≠ c.key.name

variable {T : SignatureTable} {D : Definitions} {c : Call} {bound : Nat} {chain : Chain}

theorem step_asks_struct (go : (c : Call) → c.Answer) (hc : c.kind = .struct) :
    Asks (step T D) go (Deeper T.structs.keys · c) c := by
  obtain ⟨_, chain, key, location, cache⟩ := c
  cases hc
  intro go' same
  refine structWith_nests T _ _ chain key location cache fun known fresh => ?_
  funext k l cache'
  exact same ⟨.struct, chain ++ [key], k, l, cache'⟩ ⟨rfl, rfl, known, fresh⟩

theorem step_asks_definition (go : (c : Call) → c.Answer) (hc : c.kind = .definition) :
    Asks (step T D) go (fun x => x.kind = .struct ∧ x.chain = [] ∨ Deeper D.keys x c) c := by
  obtain ⟨_, chain, key, location, cache⟩ := c
  cases hc
  intro go' same
  have structs : structsOf go' [] = structsOf go [] := by
    funext k l cache'
    exact same ⟨.struct, [], k, l, cache'⟩ (.inl ⟨rfl, rfl⟩)
  change definitionVia D (structsOf go' []) _ _ _ _ _ = definitionVia D (structsOf go []) _ _ _ _ _
  rw [structs]
  refine definitionVia_nests D _ _ _ chain key location cache fun known fresh => ?_
  funext k l cache'
  exact same ⟨.definition, chain ++ [key], k, l, cache'⟩ (.inr ⟨rfl, rfl, known, fresh⟩)

/-! ## Names that are left -/

/-- The names that do not occur in a chain. -/
def namesLeft (names : List String) (chain : Chain) : List String :=
  names.filter fun n => n ∉ chain.map Key.name

theorem Deeper.length_namesLeft_lt {names : List String} {x : Call} (h : Deeper names x c) :
    (namesLeft names x.chain).length < (namesLeft names c.chain).length := by
  have pushed : namesLeft names x.chain =
      (namesLeft names c.chain).filter fun n => n ≠ c.key.name := by
    rw [h.chain, namesLeft, namesLeft, List.filter_filter]
    refine List.filter_congr fun n _ => ?_
    simp [or_comm, List.map_append]
  have left : c.key.name ∈ namesLeft names c.chain := by
    refine List.mem_filter.mpr ⟨h.known, decide_eq_true fun hmem => ?_⟩
    obtain ⟨k, hk, hname⟩ := List.mem_map.mp hmem
    exact h.fresh k hk hname
  rw [pushed, List.length_filter_lt_length_iff_exists]
  exact ⟨c.key.name, left, by simp⟩

theorem length_namesLeft_le {α : Type} (d : Dict String α) (chain : Chain) :
    (namesLeft d.keys chain).length ≤ d.size := by
  have := List.length_filter_le (fun n => decide (n ∉ chain.map Key.name)) d.keys
  rwa [Dict.keys, List.length_map] at this

/-! ## Requests end -/

theorem step_struct (structs : StructRequest) (definitions : DefinitionRequest) (chain : Chain)
    (key : Key) (location : Location) (cache : Cache) :
    step T D (answersBy structs definitions) ⟨.struct, chain, key, location, cache⟩ =
      structWith T structs chain key location cache := rfl

theorem step_definition (structs : Key → Location → Specializing ConcreteStruct)
    (definitions : DefinitionRequest) (chain : Chain) (key : Key) (location : Location)
    (cache : Cache) :
    step T D (answersBy (fun _ => structs) definitions)
        ⟨.definition, chain, key, location, cache⟩ =
      definitionVia D structs definitions chain key location cache := rfl

/-- **Requests for structs end**, and a bound that is not less than the number of names left gives
    the answer. -/
theorem structWithin_ends (room : (namesLeft T.structs.keys chain).length ≤ bound) (key : Key)
    (location : Location) (cache : Cache) :
    Ends (step T D) ⟨.struct, chain, key, location, cache⟩
      (structWithin T bound chain key location cache) := by
  let unasked : DefinitionRequest := fun _ _ _ => .defect .chainTooLong
  induction bound generalizing chain key location cache with
  | zero =>
    rw [structWithin, ← step_struct _ unasked]
    refine .step (step_asks_struct _ rfl) fun x hx => ?_
    have lt : _ < (namesLeft T.structs.keys chain).length := hx.length_namesLeft_lt
    omega
  | succ bound ih =>
    rw [structWithin, ← step_struct _ unasked]
    refine .step (step_asks_struct _ rfl) fun x hx => ?_
    have lt : _ < (namesLeft T.structs.keys chain).length := hx.length_namesLeft_lt
    obtain ⟨kind, chain', key', location', cache'⟩ := x
    obtain rfl : kind = .struct := hx.kind
    exact ih (Nat.le_of_lt_succ (Nat.lt_of_lt_of_le lt room)) key' location' cache'

/-- **Requests for definitions end**, and a bound that is not less than the number of names left
    gives the answer. -/
theorem definitionWithin_ends (room : (namesLeft D.keys chain).length ≤ bound) (key : Key)
    (location : Location) (cache : Cache) :
    Ends (step T D) ⟨.definition, chain, key, location, cache⟩
      (definitionWithin T D bound chain key location cache) := by
  have structs : ∀ key location cache, Ends (step T D) ⟨.struct, [], key, location, cache⟩
      (requestStruct T key location cache) :=
    structWithin_ends (length_namesLeft_le T.structs [])
  induction bound generalizing chain key location cache with
  | zero =>
    rw [definitionWithin, definitionWith_eq_via, ← step_definition]
    refine .step (step_asks_definition _ rfl) fun x hx => ?_
    obtain ⟨kind, chain', key', location', cache'⟩ := x
    obtain ⟨rfl, rfl⟩ | hx := hx
    · exact structs key' location' cache'
    · have lt : _ < (namesLeft D.keys chain).length := hx.length_namesLeft_lt
      omega
  | succ bound ih =>
    rw [definitionWithin, definitionWith_eq_via, ← step_definition]
    refine .step (step_asks_definition _ rfl) fun x hx => ?_
    obtain ⟨kind, chain', key', location', cache'⟩ := x
    obtain ⟨rfl, rfl⟩ | hx := hx
    · exact structs key' location' cache'
    · have lt : _ < (namesLeft D.keys chain).length := hx.length_namesLeft_lt
      obtain rfl : kind = .definition := hx.kind
      exact ih (Nat.le_of_lt_succ (Nat.lt_of_lt_of_le lt room)) key' location' cache'

/-- **Every request ends**, for every signature table, all definitions, every key, and whatever is
    cached: the recursion, which nothing bounds, ends with one answer, and that is the answer of the
    request.  Bounding the chains by the number of structs and of definitions makes no
    difference. -/
theorem requests_end (T : SignatureTable) (D : Definitions) (key : Key) (location : Location)
    (cache : Cache) :
    (∀ o, Ends (step T D) ⟨.struct, [], key, location, cache⟩ o ↔
        o = requestStruct T key location cache) ∧
      ∀ o, Ends (step T D) ⟨.definition, [], key, location, cache⟩ o ↔
        o = request T D key location cache := by
  have struct : Ends (step T D) ⟨.struct, [], key, location, cache⟩
      (requestStruct T key location cache) :=
    structWithin_ends (length_namesLeft_le T.structs []) key location cache
  have definition : Ends (step T D) ⟨.definition, [], key, location, cache⟩
      (request T D key location cache) :=
    definitionWithin_ends (length_namesLeft_le D []) key location cache
  exact ⟨fun o => struct.iff_eq, fun o => definition.iff_eq⟩

end QuantumStatics.Specialization
