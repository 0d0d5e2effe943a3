/-
  Calls fit the specializations that they name.

  A cached definition and the cached definition that one of its calls names are instantiated apart
  from each other, with arguments of their own.  They fit nevertheless: the header of the callee
  with the arguments of the call put in, and then those of the caller, is the header with the
  arguments of the callee put in.

  * `calls_fit_cached_callees`: the calls of a cached definition fit the cached definitions that
    they name.
-/
import QuantumStatics.Proofs.Signature.Entries
import QuantumStatics.Proofs.Specialization.Sessions
import QuantumStatics.Proofs.Ty.Capture
import QuantumStatics.Proofs.Ty.Text
import QuantumStatics.Proofs.Typed.Nodes

namespace QuantumStatics.Specialization

open Typed

variable {location : Location}

/-- Definitions that are well typed against a table that has their headers.  Headers mention
    nothing but their own parameters, what is registered has a name, and types can be read off their
    text. -/
structure Linkable (T : SignatureTable) (D : Definitions) : Prop where
  name {n : String} {s : Signature} : T.find? n = some s → isName n
  header {n : String} {f : Typed.Function} : D.get? n = some f →
    ∃ s, T.find? n = some s ∧ s.generics = f.generics ∧ Signature.sameParams s.params f.params ∧
      s.result.equal f.result
  own {n : String} {f : Typed.Function} : D.get? n = some f →
    ∀ t ∈ f.result :: f.params.map (·.type), ∀ v ∈ t.vars, v.boundBy f.generics
  wellTyped {n : String} {f : Typed.Function} : D.get? n = some f → f.WellTyped T
  readable {n : String} {f : Typed.Function} : D.get? n = some f → ∀ t ∈ f.types, t.Readable

/-- The type arguments of a request for a definition can be read off their text. -/
def Request.Readable (r : Request) : Prop :=
  r.kind = .definition → ∀ t ∈ r.key.typeArgs, t.Readable

variable {T : SignatureTable} {D : Definitions} {g : Generics} {t : Ty} {I : Instantiation}
  {s : Signature} {k : Key} {f : Typed.Function} {us : List Ty} {ms : List NatTerm} {c : CallTarget}
  {n : String}

/-! ## Arguments -/

theorem closed_of_checkTypeArgs {name : String} :
    ∀ {ps : List TypeParam} {ts : List Ty}, ts.length = ps.length →
      Key.checkTypeArgs name location ps ts = .ok () → ∀ t ∈ ts, t.closed
  | [], [], _, _ => nofun
  | p :: ps, t :: ts, length, h => by
    obtain ⟨closed, -, h⟩ := checkTypeArgs_cons.mp h
    exact List.forall_mem_cons.mpr ⟨closed, closed_of_checkTypeArgs (by simpa using length) h⟩

theorem isConst_of_checkNatArgs {name : String} :
    ∀ {ps : List String} {ns : List NatTerm}, ns.length = ps.length →
      Key.checkNatArgs name location ps ns = .ok () → ∀ n ∈ ns, n.isConst
  | [], [], _, _ => nofun
  | p :: ps, n :: ns, length, h => by
    obtain ⟨const, h⟩ := checkNatArgs_cons.mp h
    exact List.forall_mem_cons.mpr ⟨const, isConst_of_checkNatArgs (by simpa using length) h⟩

theorem closed_of_checkArgs (h : k.checkArgs g location = .ok ()) :
    (∀ t ∈ k.typeArgs, t.closed) ∧ ∀ n ∈ k.natArgs, n.isConst := by
  obtain ⟨⟨types, nats⟩, checked, checked'⟩ := checkArgs_eq_ok.mp h
  exact ⟨closed_of_checkTypeArgs types checked, isConst_of_checkNatArgs nats checked'⟩

theorem legible_of_isConst {n : NatTerm} (h : n.isConst) : n.Legible := by
  cases n with
  | const => exact trivial
  | _ => cases h

theorem readable_apply (h : k.checkArgs g location = .ok ()) (hk : ∀ t ∈ k.typeArgs, t.Readable)
    (ht : t.Readable) : ((Instantiation.pair g k.typeArgs k.natArgs).apply t).Readable := by
  rw [Instantiation.apply_eq]
  refine ht.inst (fun hu => hk _ (Instantiation.mem_of_types_pair hu)) fun hm => ?_
  exact legible_of_isConst ((closed_of_checkArgs h).2 _ (Instantiation.mem_of_nats_pair hm))

theorem closedUnderNeeds_readable (hD : Linkable T D) : ClosedUnderNeeds T D Request.Readable := by
  rintro ⟨_ | _, key, l⟩ p r' hr hp need
  · obtain ⟨key', rfl⟩ := need_of_struct hp need
    exact nofun
  · obtain ⟨f, hf, passes, rfl⟩ := plan_definition_eq_ok.mp hp
    rcases request_mem_definitionNeeds.mp need with ⟨-, -, -, key', -, rfl⟩ | ⟨l', c, hc, -, rfl⟩
    · exact nofun
    · intro _
      refine List.forall_mem_map.mpr fun u hu => readable_apply passes (hr rfl) ?_
      exact hD.readable hf u (Function.mem_types.mpr (Function.type_mem_of_call hc hu))

/-! ## Headers -/

theorem mem_types_of_header (h : t ∈ f.result :: f.params.map (·.type)) : t ∈ f.types := by
  rw [Function.mem_types, Function.parts]
  rcases List.mem_cons.mp h with rfl | h
  · simp
  · obtain ⟨p, hp, rfl⟩ := List.mem_map.mp h
    exact List.mem_append_left _ (List.mem_map.mpr ⟨p, hp, rfl⟩)

theorem skeleton_apply_apply {ts : List Ty} {ns : List NatTerm}
    (ht : ts.length = g.types.length) (hn : ns.length = g.nats.length)
    (types : (ts.map I.apply).map Ty.skeleton = us.map Ty.skeleton) (nats : ns.map I.applyNat = ms)
    (simple : t.Simple) (own : ∀ v ∈ t.vars, v.boundBy g) :
    (I.apply ((Instantiation.pair g ts ns).apply t)).skeleton =
      ((Instantiation.pair g us ms).apply t).skeleton := by
  have composed := Ty.inst_inst_of_spares (Instantiation.spares_of_simple _ simple)
    fun v hv => Instantiation.chainsAt_pair I ht hn (own v hv)
  have same : ts.map I.apply = ts.map (Ty.inst I) := List.map_congr_left fun t _ => I.apply_eq t
  rw [I.apply_eq, Instantiation.apply_eq, Instantiation.apply_eq, composed]
  rw [same] at types
  subst nats
  exact Ty.skeleton_inst_congr (Instantiation.equal_pair g _ types) t

/-! ## Calls -/

theorem cached_cases (hD : Linkable T D) {rs : List Request} (hrs : ∀ r ∈ rs, r.Readable)
    {k : String} {d : ConcreteDefinition} (h : (session T D rs).definitions.get? k = some d) :
    ∃ (key : Key) (f : Typed.Function) (location : Location), D.get? key.name = some f ∧
      key.checkArgs f.generics location = .ok () ∧ key.text = k ∧
      (∀ t ∈ key.typeArgs, t.Readable) ∧
      d.function = f.specialize (.pair f.generics key.typeArgs key.natArgs) ∧
      ∀ part ∈ d.function.parts, part.Closed := by
  obtain ⟨⟨_, key, l⟩, p, readable, rfl, rfl, made⟩ :=
    (session_built (closedUnderNeeds_readable hD) hrs).made (find?_definition.mpr h)
  obtain ⟨f, hf, passes, rfl⟩ := plan_definition_eq_ok.mp made.plan
  cases made.result
  refine ⟨key, f, l, hf, passes, rfl, readable rfl, rfl, ?_⟩
  intro part hp
  change part ∈ (f.specialize _).parts at hp
  rw [Function.parts_specialize] at hp
  obtain ⟨part, mem, rfl⟩ := List.mem_map.mp hp
  exact specialize_closed_of_met fun n hn => made.met n (List.mem_flatMap.mpr ⟨part, mem, hn⟩)

theorem skeleton_apply {u : Ty} (h : t.skeleton = u.skeleton) :
    (I.apply t).skeleton = (I.apply u).skeleton := by
  rw [I.apply_eq, I.apply_eq, ← Ty.equal_iff]
  exact Ty.equal_inst I ((Ty.equal_iff t u).mpr h)

/-- A specialized definition takes and returns what a call of it passes and expects. -/
structure Accepts (d : Typed.Function) (t : Ty) (c : CallTarget) (args : List Expr) : Prop where
  count : args.length = d.params.length
  arg : ∀ p ∈ args.zip d.params, p.1.type.equal p.2.type
  ownership : c.ownership = d.params.map (·.ownership)
  result : t.equal d.result

/-- **A call fits the specialized callee** if the arguments that the callee is specialized for are
    equal to those of the call. -/
theorem accepts_of_fits {g : Typed.Function} {args : List Expr} {J : Instantiation}
    (generics : s.generics = g.generics) (params : Signature.sameParams s.params g.params)
    (result : s.result.equal g.result) (fits : c.FitsSignature t (args.map Expr.type) s J)
    (header : ∀ u ∈ g.result :: g.params.map (·.type),
      u.Simple ∧ ∀ v ∈ u.vars, v.boundBy g.generics)
    (types : (c.typeArgs.map I.apply).map Ty.skeleton = us.map Ty.skeleton)
    (nats : c.natArgs.map I.applyNat = ms) :
    Accepts (g.specialize (.pair g.generics us ms)) (I.apply t) (c.specialize I)
      (Expr.specializeAll I args) := by
  obtain ⟨ht, hn, hJ⟩ := Instantiation.ofArgs_eq_ok fits.generics
  rw [generics] at ht hn hJ
  subst hJ
  rw [List.forall_mem_cons, List.forall_mem_map] at header
  rw [Signature.sameParams_iff] at params
  rw [Ty.equal_iff] at result
  have instances := fun {u : Ty} (hu : u.Simple ∧ ∀ v ∈ u.vars, v.boundBy g.generics) =>
    skeleton_apply_apply ht hn types nats hu.1 hu.2
  -- The types of the arguments, from those of the call to those of the specialized callee.
  have argTypes : (Expr.specializeAll I args).map (fun e => e.type.skeleton) =
      (g.params.map (specializeParam (.pair g.generics us ms))).map fun p => p.type.skeleton :=
    calc (Expr.specializeAll I args).map (fun e => e.type.skeleton)
      _ = (args.map Expr.type).map (fun u => (I.apply u).skeleton) := by
        rw [Expr.specializeAll_eq_map, List.map_map, List.map_map]
        refine List.map_congr_left fun e _ => ?_
        rw [Function.comp_apply, Function.comp_apply, Expr.type_specialize]
      _ = s.params.map (fun p => (I.apply
            ((Instantiation.pair g.generics c.typeArgs c.natArgs).apply p.type)).skeleton) := by
        refine (map_eq_map_iff_zip.mpr ⟨fits.count.symm, fun p hp => ?_⟩).symm
        exact (skeleton_apply ((Ty.equal_iff _ _).mp (fits.arg p hp))).symm
      _ = g.params.map (fun p => (I.apply
            ((Instantiation.pair g.generics c.typeArgs c.natArgs).apply p.type)).skeleton) :=
        Ty.map_eq_of_map_eq params fun p _ q _ same =>
          skeleton_apply (skeleton_apply (congrArg Prod.fst same))
      _ = (g.params.map (specializeParam (.pair g.generics us ms))).map
            fun p => p.type.skeleton := by
        rw [List.map_map]
        exact List.map_congr_left fun p hp => instances (header.2 p hp)
  obtain ⟨count, arg⟩ := map_eq_map_iff_zip.mp argTypes
  refine ⟨count, fun p hp => (Ty.equal_iff _ _).mpr (arg p hp), ?_, ?_⟩
  · have passed := congrArg (List.map Prod.snd) params
    rw [List.map_map, List.map_map] at passed
    simp only [CallTarget.specialize, CallTarget.inst, Function.specialize, List.map_map]
    exact fits.ownership.trans passed
  · rw [Ty.equal_iff]
    exact (skeleton_apply ((Ty.equal_iff _ _).mp fits.result)).trans
      ((skeleton_apply (skeleton_apply result)).trans (instances header.1))

theorem callee_cases (hD : Linkable T D) {key : Key} {g : Typed.Function}
    (known : T.find? c.callee = some s)
    (types : ∀ u ∈ c.typeArgs, (I.apply u).Readable ∧ (I.apply u).closed)
    (nats : ∀ n ∈ c.natArgs, (I.applyNat n).isConst) (hg : D.get? key.name = some g)
    (passes : key.checkArgs g.generics location = .ok ())
    (readable : ∀ u ∈ key.typeArgs, u.Readable) (text : (c.inst I).key.text = key.text) :
    c.callee = key.name ∧ (c.typeArgs.map I.apply).map Ty.skeleton = key.typeArgs.map Ty.skeleton ∧
      c.natArgs.map I.applyNat = key.natArgs := by
  obtain ⟨s', known', -⟩ := hD.header hg
  have passed := closed_of_checkArgs passes
  exact Key.text_inj (hD.name known) (hD.name known')
    (List.forall_mem_map.mpr types) (fun u hu => ⟨readable u hu, passed.1 u hu⟩)
    (List.forall_mem_map.mpr nats) passed.2 text

/-- **The calls of a cached definition fit the cached definitions that they name**: there are as
    many arguments as parameters, of equal types and passed alike, and the call has the type of the
    result. -/
theorem calls_fit_cached_callees (T : SignatureTable) (D : Definitions) (hD : Linkable T D)
    (rs : List Request) (hrs : ∀ r ∈ rs, r.Readable) {k k' : String} {d d' : ConcreteDefinition}
    {location : Location} {t : Ty} {c : CallTarget} {args : List Expr}
    (hd : (session T D rs).definitions.get? k = some d)
    (hd' : (session T D rs).definitions.get? k' = some d')
    (hc : .call location t c args ∈ d.function.nodes) (kind : c.kind ≠ .localValue)
    (names : c.specialization = some k') :
    Accepts d'.function t c args := by
  obtain ⟨key, f, l, hf, passes, -, readable, hfun, closed⟩ := cached_cases hD hrs hd
  obtain ⟨key', g, l', hg, passes', rfl, readable', hfun', -⟩ := cached_cases hD hrs hd'
  have parts : ∀ part ∈ (Expr.call location t c args).parts, part.Closed := fun part hp =>
    closed part (Function.parts_node hc hp)
  rw [hfun, Function.nodes_specialize] at hc
  obtain ⟨node, hnode, spec⟩ := List.mem_map.mp hc
  obtain ⟨t₀, c₀, args₀, rfl, rfl, rfl, rfl⟩ := Expr.eq_call_of_specialize spec
  cases (hD.wellTyped hf).node hnode with
  | call _ fits =>
    obtain ⟨s, J, known, fits⟩ := fits kind
    have typeArg : ∀ u ∈ c₀.typeArgs,
        ((Instantiation.pair f.generics key.typeArgs key.natArgs).apply u).Readable ∧
          ((Instantiation.pair f.generics key.typeArgs key.natArgs).apply u).closed := by
      intro u hu
      have mem : .type u ∈ f.parts := Function.parts_node hnode (by simp [Expr.parts, hu])
      refine ⟨readable_apply passes readable (hD.readable hf u (Function.mem_types.mpr mem)), ?_⟩
      exact parts (.type _) (by simp [Expr.parts, CallTarget.specialize, CallTarget.inst]; grind)
    have natArg : ∀ n ∈ c₀.natArgs,
        ((Instantiation.pair f.generics key.typeArgs key.natArgs).applyNat n).isConst := by
      intro n hn
      exact parts (.nat _) (by simp [Expr.parts, CallTarget.specialize, CallTarget.inst]; grind)
    obtain ⟨callee, types, nats⟩ := callee_cases hD known typeArg natArg hg passes' readable'
      (Option.some.inj names)
    obtain ⟨s', known', generics, params, result⟩ := hD.header hg
    obtain rfl : s = s' := by
      rw [callee, known'] at known
      exact (Option.some.inj known).symm
    rw [hfun']
    exact accepts_of_fits generics params result fits
      (fun u hu => ⟨(hD.readable hg u (mem_types_of_header hu)).simple, hD.own hg u hu⟩) types nats

/-- Puts its argument into a cell by calling `put`. -/
def relay : Typed.Function where
  name := "relay"
  generics := ⟨[⟨"T", false, false⟩], []⟩
  params := [⟨"x", .var ⟨"T", false, false⟩, .owned⟩]
  result := .struct cell [.var ⟨"T", false, false⟩] []
  body :=
    [.ret {} (some (.call {} (.struct cell [.var ⟨"T", false, false⟩] [])
      { callee := "put", kind := .function, ownership := [.owned]
        typeArgs := [.var ⟨"T", false, false⟩], natArgs := [.const 3] }
      [.name {} (.var ⟨"T", false, false⟩) "x" .consume]))]

/-- The signature of a function. -/
def headerOf (f : Typed.Function) : Signature :=
  ⟨f.name, f.generics, f.params, f.result, f.location⟩

/-- The struct `Cell` and the headers of `put` and `relay`. -/
def relayTable : SignatureTable :=
  SignatureTable.after (do
    SignatureTable.addStruct cell {}
    SignatureTable.add (headerOf put)
    SignatureTable.add (headerOf relay)) {}

theorem find?_relayTable (h : relayTable.find? n = some s) :
    n = "Cell" ∨ n = "put" ∨ n = "relay" := by
  have entries : relayTable.signatures.entries = [("Cell", cell.constructorSignature {}),
    ("put", headerOf put), ("relay", headerOf relay)] := by cbv
  rw [SignatureTable.find?, Dict.get?, entries] at h
  have := Instantiation.mem_of_lookup h
  simp at this
  grind

theorem get?_relay (h : Dict.get? (definitionsOf [put, relay]) n = some f) :
    n = "put" ∧ f = put ∨ n = "relay" ∧ f = relay := by
  have entries : (definitionsOf [put, relay]).entries = [("put", put), ("relay", relay)] := by cbv
  rw [Dict.get?, entries] at h
  have := Instantiation.mem_of_lookup h
  simpa using this

theorem readable_cell : (Ty.var ⟨"T", false, false⟩).Readable ∧
    (Ty.struct cell [.var ⟨"T", false, false⟩] []).Readable := by
  refine ⟨⟨?_, ?_⟩, ⟨?_, ?_⟩⟩ <;>
    simp [Ty.Legible, Ty.Simple, Ty.subterms, Ty.subtermsAll, Ty.LegibleHead, Ty.binder] <;> decide

theorem wellTyped_put : put.WellTyped relayTable := by
  intro s hs
  rcases List.mem_cons.mp hs with rfl | hs
  · exact .expr .natParam
  · rw [List.mem_singleton.mp hs]
    refine .ret (.call (by simp [Expr.WellTyped.name]) fun _ => ?_) (Ty.equal_refl _)
    exact ⟨cell.constructorSignature {}, _, by cbv, rfl, rfl, by decide, by decide, rfl⟩

theorem wellTyped_relay : relay.WellTyped relayTable := by
  intro s hs
  rw [List.mem_singleton.mp hs]
  refine .ret (.call (by simp [Expr.WellTyped.name]) fun _ => ?_) (Ty.equal_refl _)
  exact ⟨headerOf put, _, by cbv, rfl, rfl, by decide, by decide, rfl⟩

theorem linkable_relay : Linkable relayTable (definitionsOf [put, relay]) where
  name h := by
    rcases find?_relayTable h with rfl | rfl | rfl <;> decide
  header h := by
    rcases get?_relay h with ⟨rfl, rfl⟩ | ⟨rfl, rfl⟩
    · exact ⟨headerOf put, by cbv, rfl, by cbv, Ty.equal_refl _⟩
    · exact ⟨headerOf relay, by cbv, rfl, by cbv, Ty.equal_refl _⟩
  own h := by
    rcases get?_relay h with ⟨rfl, rfl⟩ | ⟨rfl, rfl⟩ <;> decide
  wellTyped h := by
    rcases get?_relay h with ⟨rfl, rfl⟩ | ⟨rfl, rfl⟩
    · exact wellTyped_put
    · exact wellTyped_relay
  readable h := by
    have types : ∀ f ∈ [put, relay], ∀ t ∈ f.types, t = .var ⟨"T", false, false⟩ ∨
        t = .struct cell [.var ⟨"T", false, false⟩] [] := by
      simp [Function.types, Function.parts, put, relay, Stmt.partsAll, Stmt.parts, Expr.parts,
        Expr.partsAll]
      grind
    intro t ht
    rcases types _ (by rcases get?_relay h with ⟨-, rfl⟩ | ⟨-, rfl⟩ <;> simp) t ht with rfl | rfl
    · exact readable_cell.1
    · exact readable_cell.2

/-- The session that asks for `relay` with a number. -/
def relayCache : Cache :=
  session relayTable (definitionsOf [put, relay]) [⟨.definition, ⟨"relay", [.int], []⟩, {}⟩]

/-- The call of `put` in `relay` once it is specialized. -/
def relayedCall : CallTarget :=
  { callee := "put", kind := .function, ownership := [.owned], typeArgs := [.int]
    natArgs := [.const 3], specialization := some "put[int; 3]" }

/-- The specialization of `relay` in this session. -/
def relayInt : ConcreteDefinition where
  key := "relay[int]"
  function :=
    { name := "relay"
      params := [⟨"x", .int, .owned⟩]
      result := .struct cell [.int] []
      body := [.ret {} (some (.call {} (.struct cell [.int] []) relayedCall
        [.name {} .int "x" .consume]))] }
  callees := ["put[int; 3]"]
  structs := ["Cell[int]"]

theorem relay_fits_put : Linkable relayTable (definitionsOf [put, relay]) ∧
    relayCache.definitions.get? "relay[int]" = some relayInt ∧
    relayCache.definitions.get? "put[int; 3]" = some putInt ∧
    Accepts putInt.function (.struct cell [.int] []) relayedCall [.name {} .int "x" .consume] := by
  have caller : relayCache.definitions.get? "relay[int]" = some relayInt := by cbv
  have callee : relayCache.definitions.get? "put[int; 3]" = some putInt := by cbv
  have readable : Ty.int.Readable := by
    constructor <;> simp [Ty.Legible, Ty.Simple, Ty.int, Ty.subterms, Ty.LegibleHead, Ty.binder]
    rfl
  have asked : ∀ r ∈ [(⟨.definition, ⟨"relay", [.int], []⟩, {}⟩ : Request)], r.Readable := by
    simpa [Request.Readable] using readable
  have node : .call {} (.struct cell [.int] []) relayedCall [.name {} .int "x" .consume] ∈
      relayInt.function.nodes := List.mem_cons_self
  exact ⟨linkable_relay, caller, callee, calls_fit_cached_callees _ _ linkable_relay _ asked caller
    callee node (by decide) rfl⟩

end QuantumStatics.Specialization
