/-
  What a specialization needs.

  A `Request` asks for a struct or a definition with given arguments.  Whether it can be granted at
  all, what has to be specialized before, and what the specialization then is, all follow from the
  signatures and the definitions: this is the `Plan` of the request.  The cache only decides what
  of the plan is still to be done.
-/
import QuantumStatics.Proofs.Typed.Parts

namespace QuantumStatics.Specialization

open Typed

variable {location : Location} {name : String} {k : Key} {g : Generics}

/-! ## Requests -/

/-- What can be specialized. -/
inductive Kind where
  | struct
  | definition
  deriving DecidableEq

/-- A specialized struct or definition. -/
inductive Specialized where
  | struct (s : ConcreteStruct)
  | definition (d : ConcreteDefinition)

namespace Specialized

/-- What has been specialized. -/
def kind : Specialized → Kind
  | struct _ => .struct
  | definition _ => .definition

/-- The text that a specialization is kept under. -/
def keyText : Specialized → String
  | struct s => s.key.text
  | definition d => d.key

end Specialized

/-- The request to specialize a struct or a definition, and where it is needed. -/
structure Request where
  kind : Kind
  key : Key
  location : Location

/-- The answer to a request. -/
def Request.answer (T : SignatureTable) (D : Definitions) : Request → Specializing Specialized
  | ⟨.struct, key, location⟩ => .struct <$> requestStruct T key location
  | ⟨.definition, key, location⟩ => .definition <$> request T D key location

/-! ## The cache -/

namespace Cache

/-- What a cache has under a text. -/
def find? (c : Cache) : Kind → String → Option Specialized
  | .struct, text => (c.structs.get? text).map .struct
  | .definition, text => (c.definitions.get? text).map .definition

/-- Keeps a specialization, unless there is one of its key already. -/
def keep (c : Cache) : Specialized → Cache
  | .struct s => { c with structs := c.structs.insertNew s.key.text s }
  | .definition d => { c with definitions := c.definitions.insertNew d.key d }

theorem find?_keep (c : Cache) (s : Specialized) (kind : Kind) (text : String) :
    (c.keep s).find? kind text =
      if kind = s.kind ∧ text = s.keyText then some ((c.find? kind text).getD s)
      else c.find? kind text := by
  cases s <;> cases kind <;>
    simp only [keep, find?, Specialized.kind, Specialized.keyText, Dict.get?_insertNew,
      reduceCtorEq, false_and, true_and, if_false]
  · split
    · cases h : c.structs.get? text <;> simp_all
    · rfl
  · split
    · cases h : c.definitions.get? text <;> simp_all
    · rfl

end Cache

/-- Keeps a specialization, and returns what is kept under its text. -/
def keeping (s : Specialized) : Specializing Specialized :=
  modifyGet fun c => (((c.keep s).find? s.kind s.keyText).getD s, c.keep s)

/-! ## Plans -/

/-- What has to be done before a specialization is made. -/
inductive Need where
  | request (r : Request)
  /-- Nothing can be done. -/
  | impossible (d : Defect)

namespace Need

/-- Meets a need. -/
def meet (answer : Request → Specializing Specialized) : Need → Specializing Unit
  | request r => discard (answer r)
  | impossible d => .defect d

/-- The text of a request of the given kind. -/
def keyText? (kind : Kind) : Need → Option String
  | request r => if r.kind = kind then some r.key.text else none
  | impossible _ => none

end Need

/-- What has to be done for a specialization, and what it is then. -/
structure Plan where
  needs : List Need
  result : Except Defect Specialized

/-- Meets the needs of a plan and keeps its result. -/
def Plan.follow (answer : Request → Specializing Specialized) (p : Plan) :
    Specializing Specialized := do
  p.needs.forM (Need.meet answer)
  keeping (← .ofDefect p.result)

/-- The requests for the structs that a type mentions. -/
def structNeeds (location : Location) (t : Ty) : List Need :=
  t.structKeys.map fun key => .request ⟨.struct, key, location⟩

/-- The fields of a struct for the arguments of a key. -/
def fieldsFor (decl : StructDecl) (key : Key) : List Field :=
  decl.fields.map fun f =>
    ⟨f.name, (Instantiation.pair decl.params key.typeArgs key.natArgs).apply f.type⟩

/-- The plan for a struct. -/
def structPlan (decl : StructDecl) (key : Key) (location : Location) : Plan where
  needs := (fieldsFor decl key).flatMap fun f => structNeeds location f.type
  result := do
    let ownership ← (Ty.struct decl key.typeArgs key.natArgs).classify
    return .struct { key, fields := fieldsFor decl key, ownership }

/-- A nat has to be a number. -/
def natNeeds (I : Instantiation) (n : NatTerm) : List Need :=
  if (I.applyNat n).isConst then [] else [.impossible (.openNat (I.applyNat n))]

/-- What a part of a definition needs. -/
def partNeeds (D : Definitions) (I : Instantiation) (location : Location) : Part → List Need
  | .type t =>
    if (I.apply t).closed then structNeeds location (I.apply t)
    else [.impossible (.openType (I.apply t))]
  | .nat n => natNeeds I n
  | .natParam name => natNeeds I (.var name)
  | .call location c =>
    if D.contains c.callee then [.request ⟨.definition, (c.inst I).key, location⟩] else []

/-- What a definition needs. -/
def definitionNeeds (D : Definitions) (I : Instantiation) (f : Typed.Function) : List Need :=
  f.parts.flatMap (partNeeds D I f.location)

/-- The texts of the requests of a kind, each of them once. -/
def keyTexts (kind : Kind) (needs : List Need) : List String :=
  (needs.filterMap (Need.keyText? kind)).foldl Draft.addKey []

/-- The specialization of a definition. -/
def specializationOf (D : Definitions) (key : Key) (f : Typed.Function) (I : Instantiation) :
    ConcreteDefinition where
  key := key.text
  function := f.specialize I
  callees := keyTexts .definition (definitionNeeds D I f)
  structs := keyTexts .struct (definitionNeeds D I f)

/-- The plan for a definition. -/
def definitionPlan (D : Definitions) (f : Typed.Function) (key : Key) : Plan :=
  let I := Instantiation.pair f.generics key.typeArgs key.natArgs
  { needs := definitionNeeds D I f
    result := .ok (.definition (specializationOf D key f I)) }

/-- The plan of a request, unless there is nothing of its name or its arguments do not pass. -/
def Request.plan (T : SignatureTable) (D : Definitions) :
    Request → Except Failure Plan
  | ⟨.struct, key, location⟩ =>
    match T.findStruct? key.name with
    | none => Failure.reject location (.unknownStruct key.name)
    | some decl => (key.checkArgs decl.params location).map fun _ => structPlan decl key location
  | ⟨.definition, key, location⟩ =>
    match D.get? key.name with
    | none => Failure.reject location (.noDefinition key.name)
    | some f => (key.checkArgs f.generics location).map fun _ => definitionPlan D f key

/-- Answers a request from the cache, or by following its plan. -/
def answerWith (T : SignatureTable) (D : Definitions)
    (nested : Chain → Request → Specializing Specialized) (chain : Chain) (r : Request) :
    Specializing Specialized := do
  let plan ← .ofExcept (r.plan T D)
  match (← get).find? r.kind r.key.text with
  | some s => return s
  | none =>
    let chain ← .ofExcept (enter chain r.key r.location)
    plan.follow (nested chain)

section

variable {T : SignatureTable} {D : Definitions}
  {nested : Chain → Request → Specializing Specialized} {chain : Chain} {r : Request} {c : Cache}

theorem answerWith_of_refused {e : Failure} (hp : r.plan T D = .error e) :
    answerWith T D nested chain r c = .error e c := by
  rw [answerWith, hp]
  rfl

theorem answerWith_of_cached {p : Plan} {s : Specialized} (hp : r.plan T D = .ok p)
    (hs : c.find? r.kind r.key.text = some s) : answerWith T D nested chain r c = .ok s c := by
  have hget : (get : Specializing Cache) c = .ok c c := rfl
  rw [answerWith, hp, ofExcept_ok, pure_bind, bind_of_ok hget, hs]
  rfl

theorem answerWith_of_new {p : Plan} (hp : r.plan T D = .ok p)
    (hs : c.find? r.kind r.key.text = none) :
    answerWith T D nested chain r c = (do
      let chain ← .ofExcept (enter chain r.key r.location)
      p.follow (nested chain) : Specializing Specialized) c := by
  have hget : (get : Specializing Cache) c = .ok c c := rfl
  rw [answerWith, hp, ofExcept_ok, pure_bind, bind_of_ok hget, hs]

end

/-! ## Arguments that pass -/

theorem checkTypeArgs_cons {p : TypeParam} {t : Ty} {ps : List TypeParam} {ts : List Ty} :
    Key.checkTypeArgs name location (p :: ps) (t :: ts) = .ok () ↔
      t.closed ∧ (∃ cls, t.classify = .ok cls ∧ p.admits cls) ∧
        Key.checkTypeArgs name location ps ts = .ok () := by
  rw [Key.checkTypeArgs]
  cases hc : t.closed with
  | false => simp [Failure.reject, bind, Except.bind]
  | true =>
    cases hk : t.classify with
    | error d =>
      have failed : (Except.error d : Except Defect OwnershipClass).mapError Failure.defect =
        .error (.defect d) := rfl
      simp [bind, Except.bind, failed]
    | ok cls =>
      have passed : (Except.ok cls : Except Defect OwnershipClass).mapError Failure.defect =
        .ok cls := rfl
      cases ha : p.admits cls <;> simp [Failure.reject, bind, Except.bind, passed, ha]

theorem checkNatArgs_cons {p : String} {n : NatTerm} {ps : List String} {ns : List NatTerm} :
    Key.checkNatArgs name location (p :: ps) (n :: ns) = .ok () ↔
      n.isConst ∧ Key.checkNatArgs name location ps ns = .ok () := by
  rw [Key.checkNatArgs]
  cases n.isConst <;> simp [Failure.reject, bind, Except.bind]

theorem checkArgs_eq_ok :
    k.checkArgs g location = .ok () ↔
      (k.typeArgs.length = g.types.length ∧ k.natArgs.length = g.nats.length) ∧
        Key.checkTypeArgs k.name location g.types k.typeArgs = .ok () ∧
        Key.checkNatArgs k.name location g.nats k.natArgs = .ok () := by
  rw [Key.checkArgs]
  by_cases hl : k.typeArgs.length = g.types.length ∧ k.natArgs.length = g.nats.length
  · rw [if_pos hl]
    change (_ >>= fun _ => _) = _ ↔ _
    rw [except_bind_eq_ok]
    exact ⟨fun ⟨_, ht, hn⟩ => ⟨hl, ht, hn⟩, fun ⟨_, ht, hn⟩ => ⟨(), ht, hn⟩⟩
  · rw [if_neg hl]
    simp [Failure.reject, bind, Except.bind, hl]

theorem checkTypeArgs_anywhere {name : String} (location' : Location) :
    ∀ {ps : List TypeParam} {ts : List Ty}, Key.checkTypeArgs name location ps ts = .ok () →
      Key.checkTypeArgs name location' ps ts = .ok ()
  | [], _, _ | _ :: _, [], _ => rfl
  | p :: ps, t :: ts, h => by
    obtain ⟨hc, ha, h⟩ := checkTypeArgs_cons.mp h
    exact checkTypeArgs_cons.mpr ⟨hc, ha, checkTypeArgs_anywhere location' h⟩

theorem checkNatArgs_anywhere {name : String} (location' : Location) :
    ∀ {ps : List String} {ns : List NatTerm}, Key.checkNatArgs name location ps ns = .ok () →
      Key.checkNatArgs name location' ps ns = .ok ()
  | [], _, _ | _ :: _, [], _ => rfl
  | p :: ps, n :: ns, h => by
    obtain ⟨hc, h⟩ := checkNatArgs_cons.mp h
    exact checkNatArgs_cons.mpr ⟨hc, checkNatArgs_anywhere location' h⟩

theorem checkArgs_anywhere (location' : Location) (h : k.checkArgs g location = .ok ()) :
    k.checkArgs g location' = .ok () := by
  obtain ⟨hl, ht, hn⟩ := checkArgs_eq_ok.mp h
  exact checkArgs_eq_ok.mpr
    ⟨hl, checkTypeArgs_anywhere location' ht, checkNatArgs_anywhere location' hn⟩

section

variable {k : Key} {g : Generics} {location : Location}

theorem ofArgs_of_checkArgs (h : k.checkArgs g location = .ok ()) :
    Instantiation.ofArgs g k.typeArgs k.natArgs = .ok (.pair g k.typeArgs k.natArgs) :=
  if_pos (checkArgs_eq_ok.mp h).1

theorem instantiateFields_of_checkArgs {d : StructDecl}
    (h : k.checkArgs d.params location = .ok ()) :
    d.instantiateFields k.typeArgs k.natArgs = .ok (fieldsFor d k) :=
  if_pos (checkArgs_eq_ok.mp h).1

end

/-! ## Requests for structs -/

theorem keeping_struct (s : ConcreteStruct) :
    .struct <$> publishStruct s = keeping (.struct s) := by
  funext c
  change EStateM.Result.ok _ _ = EStateM.Result.ok _ _
  congr 1
  simp [Cache.find?, Cache.keep, Specialized.kind, Specialized.keyText, Dict.get?_insertNew]

theorem discard_map {α β : Type} (f : α → β) (x : Specializing α) :
    discard (f <$> x) = discard x := by
  funext c
  change EStateM.map _ (EStateM.map _ x) c = EStateM.map _ x c
  cases hx : x c <;> simp only [EStateM.map, hx, Function.const_apply]

theorem follow_structPlan (decl : StructDecl) (key : Key) (location : Location)
    (answer : Key → Location → Specializing ConcreteStruct) :
    (structPlan decl key location).follow (fun r => .struct <$> answer r.key r.location) =
      .struct <$> (do
        ((fieldsFor decl key).flatMap (·.type.structKeys)).forM fun k => discard (answer k location)
        let ownership ← .ofDefect (Ty.struct decl key.typeArgs key.natArgs).classify
        publishStruct { key, fields := fieldsFor decl key, ownership }) := by
  have hneeds : (structPlan decl key location).needs =
      ((fieldsFor decl key).flatMap (·.type.structKeys)).map
        fun k => .request ⟨.struct, k, location⟩ := by
    simp only [structPlan, structNeeds, List.map_flatMap]
  simp only [Plan.follow, hneeds, List.forM_eq_forM, List.forM_map, Need.meet, discard_map,
    map_bind]
  refine bind_congr fun _ => ?_
  cases h : (Ty.struct decl key.typeArgs key.natArgs).classify with
  | ok ownership =>
    simp only [structPlan, h, ofDefect_ok, pure_bind, keeping_struct]
    rfl
  | error d =>
    simp only [structPlan, h]
    rfl

theorem structWith_eq_answerWith (T : SignatureTable) (D : Definitions) (nested : StructRequest)
    (chain : Chain) (key : Key) (location : Location) :
    .struct <$> structWith T nested chain key location =
      answerWith T D (fun chain r => .struct <$> nested chain r.key r.location) chain
        ⟨.struct, key, location⟩ := by
  simp only [structWith, answerWith, SignatureTable.lookupStruct, Request.plan]
  cases T.findStruct? key.name with
  | none => rfl
  | some decl =>
    simp only [pure_bind, map_bind]
    cases hk : key.checkArgs decl.params location with
    | error e => rfl
    | ok u =>
      simp only [instantiateFields_of_checkArgs hk, Except.map, ofExcept_ok, ofDefect_ok, pure_bind]
      refine bind_congr fun c => ?_
      simp only [Cache.find?]
      cases c.structs.get? key.text with
      | some s => rfl
      | none =>
        rw [map_bind]
        exact bind_congr fun chain => (follow_structPlan decl key location (nested chain)).symm

end QuantumStatics.Specialization
