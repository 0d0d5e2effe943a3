/-
  Recursion among definitions is found exactly.

  A request is refused if the chain comes back to a name, and the cache is looked up before.  By
  name, definitions form a graph: a definition leads to those that it calls.  What is in the cache
  leads to no cycle of this graph, since all that it calls was made before it; and a chain that
  comes back to a name has gone around a cycle, whatever the arguments have become.

  The structs in the arguments are specialized on the way, by requests of their own, which may be
  refused in the same words.

  * `recursion_found_exactly`: a request that is answered reaches no cycle, and one that is refused
    for recursion does, unless it is a struct in its arguments that is refused.
-/
import Mathlib.Data.List.Chain
import QuantumStatics.Proofs.Specialization.Failures
import QuantumStatics.Proofs.Specialization.History
import QuantumStatics.Proofs.Ty.Scanning
import QuantumStatics.Proofs.Typed.Nodes

namespace QuantumStatics.Specialization

open Relation (ReflTransGen TransGen)

variable {T : SignatureTable} {D : Definitions} {c c' : Cache} {k k' key first : Key}
  {location : Location} {chain : Chain} {structs keys : List Key} {r : Request}
  {d : ConcreteDefinition} {t : Ty} {f : Typed.Function} {e : Failure} {fs : List Typed.Function}

/-- A definition leads by calls to one that leads back to itself. -/
def ReachesCycle (T : SignatureTable) (D : Definitions) (name : String) : Prop :=
  ∃ name', ReflTransGen (callGraph T D).edge name name' ∧
    TransGen (callGraph T D).edge name' name'

/-- No definition mentions a struct. -/
def MentionNoStructs (D : Definitions) : Prop :=
  ∀ name f, D.get? name = some f → ∀ t ∈ f.types, t.structKeys = []

/-- No definition has a bracket in its name. -/
def HavePlainNames (D : Definitions) : Prop := ∀ name, D.contains name → '[' ∉ name.toList

/-! ## What is answered -/

theorem takeWhile_append_bracketed {n z : List Char} (hn : '[' ∉ n)
    (hz : z = [] ∨ ∃ r, z = '[' :: r) : (n ++ z).takeWhile (· ≠ '[') = n := by
  have cut : z.takeWhile (· ≠ '[') = [] := by
    obtain rfl | ⟨r, rfl⟩ := hz
    · rfl
    · exact List.takeWhile_cons_of_neg (by simp)
  rw [List.takeWhile_append_of_pos, cut, List.append_nil]
  intro c hc
  exact decide_eq_true fun heq => hn (heq ▸ hc)

theorem name_eq_of_text_eq (h : '[' ∉ k.name.toList) (h' : '[' ∉ k'.name.toList)
    (htext : k.text = k'.text) : k.name = k'.name := by
  have toList : ∀ {k : Key}, '[' ∉ k.name.toList →
      k.text.toList.takeWhile (· ≠ '[') = k.name.toList := by
    intro k h
    rw [Key.text, String.toList_append]
    exact takeWhile_append_bracketed h (Scanning.initial_bracketed _ _)
  rw [← String.toList_inj, ← toList h, ← toList h', htext]

/-- A definition that is requested is known. -/
def Known (D : Definitions) (r : Request) : Prop := r.kind = .definition → D.contains r.key.name

theorem known_of_plan {p : Plan} (hp : r.plan T D = .ok p) : Known D r := by
  obtain ⟨_ | _, key, location⟩ := r
  · exact nofun
  · obtain ⟨f, hf, -, -⟩ := plan_definition_eq_ok.mp hp
    intro _
    simp [Dict.contains, hf]

theorem closedUnderNeeds_known : ClosedUnderNeeds T D (Known D) := by
  rintro ⟨_ | _, key, location⟩ p r' - hp hr'
  · obtain ⟨key', rfl⟩ := need_of_struct hp hr'
    exact nofun
  · obtain ⟨f, -, -, rfl⟩ := plan_definition_eq_ok.mp hp
    obtain ⟨_, _, _, _, _, rfl⟩ | ⟨_, call, _, hd, rfl⟩ := request_mem_definitionNeeds.mp hr'
    · exact nofun
    · exact fun _ => hd

theorem Built.known (h : Built T D anyRequest c) : Built T D (Known D) c := by
  induction h with
  | empty => exact .empty
  | keep _ _ hm ih => exact .keep ih (known_of_plan hm.plan) hm

theorem tellsApart_known (names : HavePlainNames D) : (callGraph T D).TellsApart (Known D) := by
  intro r r' hr hr' hk hk' htext
  exact name_eq_of_text_eq (names _ (hr hk)) (names _ (hr' hk')) htext

theorem contains_of_request_eq_ok (h : request T D key location c = .ok d c') :
    D.contains key.name := by
  have answered : ∃ nested, definitionWith T D nested [] key location c = .ok d c' := by
    unfold request at h
    cases hs : D.size with
    | zero =>
      rw [hs, definitionWithin] at h
      exact ⟨_, h⟩
    | succ bound =>
      rw [hs, definitionWithin] at h
      exact ⟨_, h⟩
  obtain ⟨nested, h⟩ := answered
  unfold definitionWith at h
  cases hf : D.get? key.name with
  | none => simp [hf] at h
  | some f => simp [Dict.contains, hf]

theorem not_reachesCycle_of_ok (names : HavePlainNames D) (hc : Built T D anyRequest c)
    (h : request T D key location c = .ok d c') : ¬ReachesCycle T D key.name := by
  have answers := Request.answer_builds (r := ⟨.definition, key, location⟩)
    (closedUnderNeeds_any (T := T) (D := D)) trivial
  have answered : Request.answer T D ⟨.definition, key, location⟩ c = .ok (.definition d) c' :=
    map_of_ok h
  obtain ⟨built, -, found⟩ := answers.of_ok hc trivial answered
  have cached : (callGraph T D).Cached (Known D) c' key.name :=
    ⟨⟨.definition, key, location⟩, fun _ => contains_of_request_eq_ok h, rfl, rfl, _, found⟩
  rintro ⟨name', leads, cycle⟩
  have cached' := Graph.cached_of_leads closedUnderNeeds_known (tellsApart_known names)
    built.known cached leads
  exact Graph.not_leads_to_itself closedUnderNeeds_known (tellsApart_known names) built.known
    cached' cycle

/-! ## What is refused -/

/-- The specialization for one key calls the one for another. -/
def AsksFor (D : Definitions) (k k' : Key) : Prop :=
  ∃ f, D.get? k.name = some f ∧ ∃ call ∈ f.calls, D.contains call.callee ∧
    k' = (call.inst (.pair f.generics k.typeArgs k.natArgs)).key

theorem AsksFor.edge (h : AsksFor D k k') : (callGraph T D).edge k.name k'.name := by
  obtain ⟨f, hf, call, hcall, hd, rfl⟩ := h
  exact ⟨f, hf, call, hcall, hd, rfl⟩

/-- A chain of keys that starts with `first`, each asked for by the one before it.  The last has the
    name of an earlier one, and up to it no name comes twice. -/
structure Recurs (D : Definitions) (first : Key) (keys : List Key) : Prop where
  starts : keys.head? = some first
  linked : keys.IsChain (AsksFor D)
  repeats : ∃ before last, keys = before ++ [last] ∧ (before.map Key.name).Nodup ∧
    last.name ∈ before.map Key.name

theorem leads_of_isChain (h : (k :: keys).IsChain (AsksFor D)) (hk : k' ∈ keys) :
    TransGen (callGraph T D).edge k.name k'.name := by
  have linked : ((k :: keys).map Key.name).IsChain (TransGen (callGraph T D).edge) :=
    List.isChain_map_of_isChain Key.name (fun _ _ hasks => .single hasks.edge) h
  exact linked.rel_cons (List.mem_map_of_mem hk)

theorem Recurs.reachesCycle (h : Recurs D first keys) : ReachesCycle T D first.name := by
  obtain ⟨before, last, rfl, -, again⟩ := h.repeats
  obtain ⟨k, hk, hname⟩ := List.mem_map.mp again
  obtain ⟨pre, post, rfl⟩ := List.append_of_mem hk
  have linked := h.linked
  have starts := h.starts
  rw [List.append_assoc, List.cons_append] at linked starts
  have around : TransGen (callGraph T D).edge k.name k.name := by
    nth_rewrite 2 [hname]
    exact leads_of_isChain linked.right_of_append (List.mem_append_right _ (by simp))
  refine ⟨k.name, ?_, around⟩
  cases pre with
  | nil =>
    cases starts
    exact .refl
  | cons k₀ pre =>
    cases starts
    exact (leads_of_isChain linked (by simp)).to_reflTransGen

/-- A chain of calls leads from the first key to a key, through definitions with different names. -/
structure LeadsFrom (D : Definitions) (first : Key) (chain : Chain) (key : Key) : Prop where
  starts : (chain ++ [key]).head? = some first
  linked : (chain ++ [key]).IsChain (AsksFor D)
  nodup : (chain.map Key.name).Nodup

theorem LeadsFrom.nil (D : Definitions) (key : Key) : LeadsFrom D key [] key :=
  ⟨rfl, .singleton key, .nil⟩

theorem LeadsFrom.push {key' : Key} {chain' : Chain} (h : LeadsFrom D first chain key)
    (he : enter chain key location = .ok chain') (asks : AsksFor D key key') :
    LeadsFrom D first chain' key' := by
  obtain ⟨fresh, rfl⟩ := enter_eq_ok he
  refine ⟨?_, ?_, ?_⟩
  · rw [List.head?_append, h.starts]
    rfl
  · refine h.linked.append (.singleton key') fun k hk k' hk' => ?_
    simp only [List.getLast?_append, List.getLast?_singleton, Option.some_or, Option.mem_def,
      Option.some.injEq, List.head?_cons] at hk hk'
    exact hk ▸ hk' ▸ asks
  · rw [List.map_append, List.nodup_append]
    refine ⟨h.nodup, by simp, ?_⟩
    rintro _ hmem _ hkey rfl
    obtain ⟨k, hk, hname⟩ := List.mem_map.mp hmem
    exact fresh k hk (hname.trans (List.mem_singleton.mp hkey))

theorem LeadsFrom.refused {r : Rejection} (h : LeadsFrom D first chain key)
    (he : enter chain key location = .error (.rejected r)) :
    Recurs D first (chain ++ [key]) ∧ r.cause.names = (chain ++ [key]).map Key.text := by
  obtain ⟨k, hk, hname, -⟩ := enter_eq_error he
  refine ⟨⟨h.starts, h.linked, chain, key, rfl, h.nodup, List.mem_map.mpr ⟨k, hk, hname⟩⟩, ?_⟩
  rw [List.map_append, List.map_singleton]
  unfold enter at he
  split at he
  · cases he
    split <;> rfl
  · cases he

/-! ## Structs in the arguments -/

theorem structKeys_of_inst {I : Instantiation} (h : t.structKeys = [])
    (hk : k ∈ (t.inst I).structKeys) : ∃ n u, I.types.get? n = some u ∧ k ∈ u.structKeys := by
  obtain ⟨v, hv, hkey⟩ := Ty.mem_structKeys.mp hk
  refine Ty.forall_subterms_inst (P := fun v => v.structKey? = some k →
    ∃ n u, I.types.get? n = some u ∧ k ∈ u.structKeys) ?_ ?_ v hv hkey
  · intro n u hu v hv hkey
    exact ⟨n, u, hu, Ty.mem_structKeys.mpr ⟨v, hv, hkey⟩⟩
  · intro u hu J _ free hkey
    cases u with
    | struct decl typeArgs natArgs =>
      have mentioned : ⟨decl.name, typeArgs, natArgs⟩ ∈ t.structKeys :=
        Ty.mem_structKeys.mpr ⟨_, hu, rfl⟩
      rw [h] at mentioned
      cases mentioned
    | var p =>
      rw [Ty.inst_var, free p rfl] at hkey
      cases hkey
    | _ => simp [Ty.structKey?] at hkey

/-- The structs in the arguments of a key. -/
def argumentStructs (k : Key) : List Key := k.typeArgs.flatMap Ty.structKeys

theorem mem_argumentStructs (plain : MentionNoStructs D) (hf : D.get? key.name = some f)
    (ht : .type t ∈ f.parts)
    (hk : k ∈ ((Instantiation.pair f.generics key.typeArgs key.natArgs).apply t).structKeys) :
    k ∈ argumentStructs key := by
  rw [Instantiation.apply_eq] at hk
  obtain ⟨n, u, hu, hk⟩ :=
    structKeys_of_inst (plain _ f hf t (Typed.Function.mem_types.mpr ht)) hk
  exact List.mem_flatMap.mpr ⟨u, Instantiation.mem_of_types_pair hu, hk⟩

theorem argumentStructs_subset (plain : MentionNoStructs D) (hf : D.get? key.name = some f)
    {l : Location} {call : Typed.CallTarget} (hcall : .call l call ∈ f.parts) :
    argumentStructs (call.inst (.pair f.generics key.typeArgs key.natArgs)).key ⊆
      argumentStructs key := by
  intro k hk
  obtain ⟨u, hu, hk⟩ := List.mem_flatMap.mp hk
  obtain ⟨t, ht, rfl⟩ := List.mem_map.mp hu
  exact mem_argumentStructs plain hf (Typed.Function.type_mem_of_call hcall ht) hk

/-! ## Requests -/

/-- A failure is a refusal for recursion only if a chain from `first` comes back to a name, or if it
    is the refusal of one of the structs. -/
def RefusedFor (T : SignatureTable) (D : Definitions) (first : Key) (structs : List Key)
    (e : Failure) : Prop :=
  ∀ r, e = .rejected r → r.cause.kind = .recursiveMonomorphisation →
    (∃ keys, Recurs D first keys ∧ r.cause.names = keys.map Key.text) ∨
      ∃ k ∈ structs, ∃ l c c', requestStruct T k l c = .error (.rejected r) c'

theorem refusedFor_defect (d : Defect) :
    RefusedFor T D first structs (.defect d) := fun _ h => nomatch h

theorem refusedFor_of_plan (h : r.plan T D = .error e) : RefusedFor T D first structs e := by
  rintro _ rfl kind
  rcases plan_eq_error h with ⟨_, heq, -, other⟩ | ⟨g, -, x, -, unfit⟩
  · cases heq
    exact absurd kind other
  · cases unfit
    cases kind

theorem definitionWith_refusedFor (plain : MentionNoStructs D) {nested : DefinitionRequest}
    (answers : ∀ chain {key location}, Answers T D anyRequest ⟨.definition, key, location⟩
      (.definition <$> nested chain key location))
    (fails : ∀ {chain key} location, LeadsFrom D first chain key →
      argumentStructs key ⊆ structs → FailsAs T D (RefusedFor T D first structs)
        (Specialized.definition <$> nested chain key location))
    (leads : LeadsFrom D first chain key) (args : argumentStructs key ⊆ structs)
    (location : Location) :
    FailsAs T D (RefusedFor T D first structs)
      (Specialized.definition <$> definitionWith T D nested chain key location) := by
  refine .definitionWith answers (fun _ => refusedFor_of_plan)
    (fun _ d _ _ => refusedFor_defect d) ?_ ?_
  · rintro _ he r rfl -
    obtain ⟨recurs, names⟩ := leads.refused he
    exact .inl ⟨_, recurs, names⟩
  · intro chain' p r' he hp hr'
    obtain ⟨f, hf, -, rfl⟩ := plan_definition_eq_ok.mp hp
    obtain ⟨t, ht, -, k, hk, rfl⟩ | ⟨l, call, hcall, hd, rfl⟩ :=
      request_mem_definitionNeeds.mp hr'
    · rintro c _ c' - h r rfl -
      refine .inr ⟨k, args (mem_argumentStructs plain hf ht hk), f.location, c, c', ?_⟩
      cases hs : requestStruct T k f.location c with
      | ok s c₁ => cases (map_of_ok hs).symm.trans h
      | error e c₁ =>
        cases (map_of_error hs).symm.trans h
        rfl
    · refine fails l (leads.push he ⟨f, hf, call, ?_, hd, rfl⟩) ?_
      · exact Typed.Function.mem_calls.mpr ⟨l, hcall⟩
      · exact List.Subset.trans (argumentStructs_subset plain hf hcall) args

/-- **Requests for definitions that mention no struct** are refused for recursion only if they
    recur. -/
theorem definitionWithin_refusedFor (plain : MentionNoStructs D) (bound : Nat)
    (leads : LeadsFrom D first chain key) (args : argumentStructs key ⊆ structs)
    (location : Location) :
    FailsAs T D (RefusedFor T D first structs)
      (Specialized.definition <$> definitionWithin T D bound chain key location) := by
  induction bound generalizing chain key location with
  | zero =>
    exact definitionWith_refusedFor plain (fun _ _ _ => defect_answers _ _ _)
      (fun _ _ _ => .map (.throw (refusedFor_defect _))) leads args location
  | succ bound ih =>
    exact definitionWith_refusedFor plain
      (fun chain _ _ => definitionWithin_builds closedUnderNeeds_any bound chain trivial)
      (fun location leads args => ih leads args location) leads args location

/-- **Recursion among definitions is found exactly**, if no type of theirs mentions a struct and no
    name of theirs has a bracket in it.  After any requests, a definition that is specialized leads
    to no cycle of calls.  One that is refused for recursion leads to a cycle, and the refusal lists
    the keys from the one that was requested to the one whose definition comes again; or else it is
    the refusal of a struct that the arguments mention. -/
theorem recursion_found_exactly (T : SignatureTable) (D : Definitions)
    (plain : MentionNoStructs D) (names : HavePlainNames D) (rs : List Request) (key : Key)
    (location : Location) :
    (∀ d c, request T D key location (session T D rs) = .ok d c → ¬ReachesCycle T D key.name) ∧
      ∀ r c, request T D key location (session T D rs) = .error (.rejected r) c →
        r.cause.kind = .recursiveMonomorphisation →
        (ReachesCycle T D key.name ∧
            ∃ keys, Recurs D key keys ∧ r.cause.names = keys.map Key.text) ∨
          ∃ k ∈ argumentStructs key, ∃ l c₁ c₂,
            requestStruct T k l c₁ = .error (.rejected r) c₂ := by
  have built : Built T D anyRequest (session T D rs) :=
    session_built closedUnderNeeds_any fun _ _ => trivial
  refine ⟨fun d c h => not_reachesCycle_of_ok names built h, fun r c h kind => ?_⟩
  have fails := definitionWithin_refusedFor (T := T) plain D.size (.nil D key)
    (List.Subset.refl (argumentStructs key)) location
  refine (fails _ _ c built (map_of_error h) r rfl kind).imp_left ?_
  rintro ⟨keys, recurs, names⟩
  exact ⟨recurs.reachesCycle, keys, recurs, names⟩

/-- A function that only calls others. -/
def calling (name : String) (generics : Generics) (callees : List (String × List Ty)) :
    Typed.Function where
  name
  generics
  params := []
  result := .none
  body := callees.map fun p =>
    .expr {} (.call {} .none
      { callee := p.1, kind := .function, ownership := [], typeArgs := p.2 } [])

/-- The type parameter of the generic definitions below. -/
def element : TypeParam := ⟨"T", false, false⟩

/-- Two definitions that call each other with ever larger arguments, and one that calls another
    twice. -/
def growing : Definitions :=
  definitionsOf [calling "grow" ⟨[element], []⟩ [("hop", [.option (.var element)])],
    calling "hop" ⟨[element], []⟩ [("idle", []), ("grow", [.var element])],
    calling "twice" {} [("idle", []), ("idle", [])], calling "idle" {} []]

theorem mentionNoStructs_of (h : fs.all fun f => f.types.all fun t => t.structKeys.isEmpty) :
    MentionNoStructs (definitionsOf fs) := by
  intro name f hf t ht
  obtain ⟨hf, -⟩ := of_get?_definitionsOf hf
  simpa using List.all_eq_true.mp (List.all_eq_true.mp h f hf) t ht

theorem havePlainNames_of (h : fs.all fun f => !f.qualifiedName.toList.contains '[') :
    HavePlainNames (definitionsOf fs) := by
  intro name hname
  obtain ⟨f, hf⟩ := Option.isSome_iff_exists.mp hname
  obtain ⟨mem, rfl⟩ := of_get?_definitionsOf hf
  simpa using List.all_eq_true.mp h f mem

theorem request_eq_ok_of_answer {s : Specialized}
    (h : answerOf (Request.answer T D ⟨.definition, key, location⟩ c) = .ok s) :
    ∃ d c', request T D key location c = .ok d c' := by
  cases hx : request T D key location c with
  | ok d c' => exact ⟨d, c', rfl⟩
  | error e c' =>
    have failed : Request.answer T D ⟨.definition, key, location⟩ c = .error e c' := map_of_error hx
    rw [failed] at h
    cases h

theorem request_eq_error_of_answer
    (h : answerOf (Request.answer T D ⟨.definition, key, location⟩ c) = .error e) :
    ∃ c', request T D key location c = .error e c' := by
  cases hx : request T D key location c with
  | ok d c' =>
    have answered : Request.answer T D ⟨.definition, key, location⟩ c = .ok (.definition d) c' :=
      map_of_ok hx
    rw [answered] at h
    cases h
  | error e' c' =>
    have failed : Request.answer T D ⟨.definition, key, location⟩ c = .error e' c' :=
      map_of_error hx
    rw [failed] at h
    cases h
    exact ⟨c', rfl⟩

/-- The specialization of `hop` to `int`. -/
def requestHop : Request := ⟨.definition, ⟨"hop", [.int], []⟩, {}⟩

theorem growing_found_exactly :
    (MentionNoStructs growing ∧ HavePlainNames growing) ∧
      answerOf (Request.answer {} growing ⟨.definition, ⟨"grow", [.int], []⟩, {}⟩
        (session {} growing [requestHop])) = .error (.rejected
          ⟨.reenters ["grow[int]", "hop[Option[int]]"] "grow[Option[int]]" "grow", {}⟩) ∧
      (ReachesCycle {} growing "grow" ∧ ∃ keys, Recurs growing ⟨"grow", [.int], []⟩ keys ∧
        keys.map Key.text = ["grow[int]", "hop[Option[int]]", "grow[Option[int]]"]) ∧
      ¬ReachesCycle {} growing "twice" := by
  have plain : MentionNoStructs growing := mentionNoStructs_of (by rfl)
  have names : HavePlainNames growing := havePlainNames_of (by rfl)
  have grow : answerOf (Request.answer {} growing ⟨.definition, ⟨"grow", [.int], []⟩, {}⟩
      (session {} growing [requestHop])) = .error (.rejected
        ⟨.reenters ["grow[int]", "hop[Option[int]]"] "grow[Option[int]]" "grow", {}⟩) := by
    cbv
  have twice : answerOf (Request.answer {} growing ⟨.definition, ⟨"twice", [], []⟩, {}⟩
      (session {} growing [requestHop])) = .ok (.definition ⟨"twice",
        (calling "twice" {} [("idle", []), ("idle", [])]).specialize {}, ["idle"], []⟩) := by
    cbv
  obtain ⟨c₁, refused⟩ := request_eq_error_of_answer grow
  obtain ⟨d, c₂, answered⟩ := request_eq_ok_of_answer twice
  have found := recursion_found_exactly {} growing plain names [requestHop]
  refine ⟨⟨plain, names⟩, grow, ?_, (found _ {}).1 d c₂ answered⟩
  rcases (found _ {}).2 _ c₁ refused rfl with ⟨reaches, keys, recurs, hkeys⟩ | ⟨k, hk, -⟩
  · exact ⟨reaches, keys, recurs, hkeys.symm⟩
  · cases hk

/-- A definition that takes a value of any type and calls nothing. -/
def takes : Typed.Function :=
  { calling "takes" ⟨[element], []⟩ [] with params := [⟨"x", .var element, .owned⟩] }

/-- A definition that calls itself, and one that has the name of a key of it. -/
def namesakes : Definitions :=
  definitionsOf [calling "f[int]" {} [], calling "f" ⟨[element], []⟩ [("f", [.var element])]]

theorem not_reachesCycle_takes : ¬ReachesCycle cellTable (definitionsOf [takes]) "takes" := by
  rintro ⟨name, -, cycle⟩
  obtain ⟨_, ⟨f, hf, call, hcall, -⟩, -⟩ := TransGen.head'_iff.mp cycle
  obtain rfl := List.mem_singleton.mp (of_get?_definitionsOf hf).1
  cases hcall

theorem reachesCycle_namesakes : ReachesCycle {} namesakes "f" := by
  refine ⟨"f", .refl, .single ⟨calling "f" ⟨[element], []⟩ [("f", [.var element])], by rfl, ?_⟩⟩
  exact ⟨_, List.mem_cons_self, by rfl, rfl⟩

/-- **Recursion may be found where there is none, and not where there is.**  A definition that calls
    nothing is refused for recursion if its argument is a cell of a cell.  And a definition that
    calls itself is taken for one that has the name of its key, if that was specialized before. -/
theorem recursion_mistaken :
    (MentionNoStructs (definitionsOf [takes]) ∧
      ¬ReachesCycle cellTable (definitionsOf [takes]) "takes" ∧
      answerOf (Request.answer cellTable (definitionsOf [takes])
          ⟨.definition, ⟨"takes", [.struct cell [.struct cell [.int] []] []], []⟩, {}⟩ {}) =
        .error (.rejected ⟨.reenters ["Cell[Cell[int]]"] "Cell[int]" "Cell", {}⟩)) ∧
    MentionNoStructs namesakes ∧ ReachesCycle {} namesakes "f" ∧
      answerOf (Request.answer {} namesakes ⟨.definition, ⟨"f", [.int], []⟩, {}⟩
          (session {} namesakes [⟨.definition, ⟨"f[int]", [], []⟩, {}⟩])) =
        .ok (.definition ⟨"f[int]", calling "f[int]" {} [], [], []⟩) := by
  refine ⟨⟨mentionNoStructs_of (by rfl), not_reachesCycle_takes, ?_⟩,
    mentionNoStructs_of (by rfl), reachesCycle_namesakes, ?_⟩ <;> cbv

end QuantumStatics.Specialization
