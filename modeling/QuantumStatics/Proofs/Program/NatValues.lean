/-
  The values of nat parameters.

  A nat is an unsigned number of 64 bits, and a literal a signed one.  A nat parameter that is used
  as a value becomes a literal when a definition is specialized.

  * `nat_arguments_become_literals`: the literal has the value of the argument exactly if this is
    at most `maxLiteral`, and no other literal of type `nat` is ever negative;
  * `great_argument_becomes_negative`: it is negative for a greater argument.
-/
import QuantumStatics.Proofs.Elaboration.BodyAccounts
import QuantumStatics.Proofs.Program.Prelude
import QuantumStatics.Proofs.Specialization.Failures

namespace QuantumStatics

/-- No literal of type `nat` is negative. -/
def Typed.Function.NatsNonneg (f : Typed.Function) : Prop :=
  ∀ location value, .int location .nat value ∈ f.nodes → 0 ≤ value

/-- The greatest nat that a literal has the value of. -/
def NatTerm.maxLiteral : UInt64 := Int64.maxValue.toUInt64

/-- A nat that has a literal of its value, if it is a constant. -/
def NatTerm.HasLiteral (n : NatTerm) : Prop := ∀ value, n = .const value → value ≤ maxLiteral

theorem Instantiation.lookup_of_applyNat {g : Generics} {types : List Ty} {nats : List NatTerm}
    {n : String} {value : UInt64} (h : (pair g types nats).applyNat (.var n) = .const value) :
    (g.nats.zip nats).lookup n = some (.const value) := by
  rw [applyNat, NatTerm.inst, NatTerm.inst?, pair, Dict.get?_ofListFirst] at h
  cases found : (g.nats.zip nats).lookup n with
  | none =>
    rw [found] at h
    cases h
  | some m =>
    rw [found] at h
    exact congrArg some h

/-! ## Literals of type `nat` -/

/-- **The literals of a checked function** are of type `int`, or of type `nat` and not negative. -/
theorem Elaboration.literal_of_checkFunction {T : SignatureTable} {owner : Option StructDecl}
    {d : Source.FunctionDef} {f : Typed.Function} {memory memory' : CheckerMemory}
    (h : checkFunction T owner d memory = .ok f memory') {location : Location} {t : Ty}
    {value : Int64} (hn : .int location t value ∈ f.nodes) : t = .int ∨ t = .nat ∧ 0 ≤ value := by
  obtain ⟨sig, -, -, signature, -⟩ := checkFunction_eq_ok h
  obtain ⟨checked, S, rfl, -, known⟩ := checkFunction_notes signature h
  obtain ⟨c, site⟩ := Typed.Function.exists_site hn
  obtain ⟨m, hm, raw⟩ := Typed.Function.site_of_subst site
  cases m with
  | int _ t' value' =>
    obtain ⟨-, rfl, rfl⟩ := Typed.Expr.int.inj hm
    rcases (known.site raw : t' = .int ∨ t' = .nat ∧ 0 ≤ value) with rfl | ⟨rfl, h⟩
    · exact .inl (by simp [Ty.int])
    · exact .inr ⟨by simp [Ty.nat], h⟩
  | _ => cases hm

namespace Specialization

open Typed

variable {T : SignatureTable} {D : Definitions} {I : Instantiation}

theorem toInt_toInt64 (v : UInt64) :
    (v.toInt64.toInt = v.toNat ↔ v ≤ NatTerm.maxLiteral) ∧ (v.toInt64 < 0 ↔ NatTerm.maxLiteral < v) := by
  have bound := v.toNat_lt
  have greatest : NatTerm.maxLiteral.toNat = 9223372036854775807 := by decide
  have signed : v.toInt64.toInt = if 2 * v.toNat < 18446744073709551616 then (v.toNat : Int)
      else v.toNat - (18446744073709551616 : Nat) := BitVec.toInt_eq_toNat_cond v.toBitVec
  rw [Int64.lt_iff_toInt_lt, Int64.toInt_zero, signed, UInt64.le_iff_toNat_le,
    UInt64.lt_iff_toNat_lt, greatest]
  split <;> omega

/-- A literal of type `nat` that is made by specializing an expression comes from a literal or from
    a nat parameter. -/
theorem literal_of_specialize {e : Expr} {location : Location} {value : Int64}
    (h : e.specialize I = .int location .nat value) :
    (∃ t, e = .int location t value ∧ I.apply t = .nat) ∨
      ∃ n v, e = .natParam location n ∧ I.applyNat (.var n) = .const v ∧ value = v.toInt64 := by
  cases e with
  | int _ t _ =>
    obtain ⟨rfl, ht, rfl⟩ := Expr.int.inj h
    exact .inl ⟨t, rfl, ht⟩
  | natParam _ n =>
    rw [Expr.specialize, natValue] at h
    split at h
    · next v hv =>
      obtain ⟨rfl, -, rfl⟩ := Expr.int.inj h
      exact .inr ⟨n, v, rfl, hv, rfl⟩
    · cases h
    · cases h
  | _ => cases h

/-- The requests for definitions whose nat arguments have literals. -/
def LiteralArguments (r : Request) : Prop :=
  r.kind = .definition → ∀ n ∈ r.key.natArgs, n.HasLiteral

theorem closedUnderNeeds_literalArguments
    (h : ∀ name f, D.get? name = some f → ∀ call ∈ f.calls, ∀ n ∈ call.natArgs, n.HasLiteral) :
    ClosedUnderNeeds T D LiteralArguments := by
  rintro ⟨_ | _, key, location⟩ p r' hr hp hr' hk
  · obtain ⟨decl, -, -, rfl⟩ := plan_struct_eq_ok.mp hp
    simp only [structPlan, structNeeds, List.mem_flatMap, List.mem_map] at hr'
    obtain ⟨_, -, _, -, heq⟩ := hr'
    cases heq
    cases hk
  · obtain ⟨f, hf, -, rfl⟩ := plan_definition_eq_ok.mp hp
    rcases request_mem_definitionNeeds.mp hr' with ⟨_, -, -, _, -, rfl⟩ | ⟨l, call, hcall, -, rfl⟩
    · cases hk
    · intro m hm v hv
      obtain ⟨n, hn, rfl⟩ := List.mem_map.mp hm
      cases n with
      | const value => exact h _ f hf call (Function.mem_calls.mpr ⟨l, hcall⟩) _ hn v hv
      | undet => cases hv
      | var name =>
        exact hr rfl _ (List.of_mem_zip
          (Instantiation.mem_of_lookup (Instantiation.lookup_of_applyNat hv))).2 v rfl

/-- What specializing makes of the nat parameters of a function that are used as values, and where
    its negative literals of type `nat` come from. -/
structure KeepsNats (f : Typed.Function) (key : Key) (I : Instantiation) (f' : Typed.Function) :
    Prop where
  nodes : f'.nodes = f.nodes.map (Expr.specialize I)
  values : ∀ location n, .natParam location n ∈ f.nodes → ∃ (v : UInt64) (value : Int64),
    (f.generics.nats.zip key.natArgs).lookup n = some (.const v) ∧
      Expr.specialize I (.natParam location n) = .int location .nat value ∧
      (value.toInt = v.toNat ↔ v ≤ NatTerm.maxLiteral) ∧ (value < 0 ↔ NatTerm.maxLiteral < v)
  negative : ∀ location value, .int location .nat value ∈ f'.nodes → value < 0 →
    ∃ n v, .natParam location n ∈ f.nodes ∧
      (f.generics.nats.zip key.natArgs).lookup n = some (.const v) ∧ NatTerm.maxLiteral < v

theorem Made.keepsNats {c : Cache} {r : Request} {p : Plan} {d : ConcreteDefinition}
    (literals : ∀ name f, D.get? name = some f → ∀ location t value,
      .int location t value ∈ f.nodes → t = .int ∨ t = .nat ∧ 0 ≤ value)
    (made : Made T D c r p (.definition d)) (hk : r.kind = .definition) :
    ∃ f, D.get? r.key.name = some f ∧
      r.key.checkArgs f.generics r.location = .ok () ∧
      KeepsNats f r.key (.pair f.generics r.key.typeArgs r.key.natArgs) d.function := by
  obtain ⟨_, key, l⟩ := r
  cases hk
  obtain ⟨f, hf, passes, rfl⟩ := plan_definition_eq_ok.mp made.plan
  cases made.result
  have nodes := Function.nodes_specialize (.pair f.generics key.typeArgs key.natArgs) f
  refine ⟨f, hf, passes, nodes, fun location n hn => ?_, fun location value hn negative => ?_⟩
  · obtain ⟨c, site⟩ := Function.exists_site hn
    have part : .natParam n ∈ f.parts := site.parts (List.mem_singleton_self _)
    obtain ⟨v, hv⟩ := const_of_met fun need h => made.met need (List.mem_flatMap.mpr ⟨_, part, h⟩)
    refine ⟨v, v.toInt64, Instantiation.lookup_of_applyNat hv, ?_, toInt_toInt64 v⟩
    rw [Expr.specialize, natValue, hv]
  · obtain ⟨e, he, heq⟩ := List.mem_map.mp (nodes ▸ hn)
    rcases literal_of_specialize heq with ⟨t, rfl, ht⟩ | ⟨n, v, rfl, hv, rfl⟩
    · rcases literals _ f hf _ _ _ he with rfl | ⟨-, h⟩
      · simp [Instantiation.apply_eq, Ty.int, Ty.nat] at ht
      · exact absurd negative (Int64.not_lt.mpr h)
    · exact ⟨n, v, he, Instantiation.lookup_of_applyNat hv, (toInt_toInt64 v).2.mp negative⟩

end Specialization

namespace CheckedProgram

open QuantumStatics.Specialization

/-- **Nat arguments become literals.**  No literal of type `nat` of a checked function is negative.
    In a specialization, each nat parameter that is used as a value has become a literal, which has
    the value of the argument if there is one and is negative otherwise, and there are no other
    negative literals of type `nat`.  So there are none at all after requests with arguments up to
    `maxLiteral`, if calls name no greater constants. -/
theorem nat_arguments_become_literals {options : CheckOptions} {defs : List Source.Def}
    {p : CheckedProgram} (checked : check options defs = .ok p) :
    (∀ T owner d memory f memory',
      Elaboration.checkFunction T owner d memory = .ok f memory' → f.NatsNonneg) ∧
    ∀ rs : List Request,
      (∀ k d, (session p.table (definitionsOf p.functions) rs).definitions.get? k = some d →
        ∃ (key : Key) (f : Typed.Function) (I : Instantiation),
          f ∈ p.functions ∧ f.qualifiedName = key.name ∧ key.text = k ∧
          Instantiation.ofArgs f.generics key.typeArgs key.natArgs = .ok I ∧
          KeepsNats f key I d.function) ∧
      ((∀ r ∈ rs, LiteralArguments r) →
        (∀ f ∈ p.functions, ∀ call ∈ f.calls, ∀ n ∈ call.natArgs, n.HasLiteral) →
        ∀ k d, (session p.table (definitionsOf p.functions) rs).definitions.get? k = some d →
          d.function.NatsNonneg) := by
  have literals : ∀ name f, (definitionsOf p.functions).get? name = some f →
      ∀ location t value, .int location t value ∈ f.nodes → t = .int ∨ t = .nat ∧ 0 ≤ value := by
    intro name f hf location t value hn
    obtain ⟨-, -, owner, fd, s, memory, memory', -, -, -, -, h⟩ :=
      mem_functions (Q := fun _ => True) checked (of_get?_definitionsOf hf).1 trivial
        fun _ _ _ _ _ _ _ _ _ _ => trivial
    exact Elaboration.literal_of_checkFunction h hn
  refine ⟨fun T owner d memory f memory' h location value hn => ?_, fun rs => ⟨?_, ?_⟩⟩
  · rcases Elaboration.literal_of_checkFunction h hn with h | ⟨-, h⟩
    · simp [Ty.int, Ty.nat] at h
    · exact h
  · intro k d h
    obtain ⟨r, plan, hk, rfl, made⟩ := session_made _ _ rs (find?_definition.mpr h)
    obtain ⟨f, hf, passes, keeps⟩ := made.keepsNats literals hk
    obtain ⟨hf, name⟩ := of_get?_definitionsOf hf
    exact ⟨r.key, f, _, hf, name, rfl, ofArgs_of_checkArgs passes, keeps⟩
  · intro small constants k d h location value hn
    have closed := closedUnderNeeds_literalArguments (T := p.table) fun name f hf =>
      constants f (of_get?_definitionsOf hf).1
    obtain ⟨r, plan, asked, hk, -, made⟩ :=
      (session_built closed small).made (find?_definition.mpr h)
    obtain ⟨f, -, -, keeps⟩ := made.keepsNats literals hk
    refine Int64.not_lt.mp fun negative => ?_
    obtain ⟨n, v, -, found, great⟩ := keeps.negative location value hn negative
    exact UInt64.not_lt.mpr
      (asked hk _ (List.of_mem_zip (Instantiation.mem_of_lookup found)).2 v rfl) great

/-- The function `fn width[n]() -> nat` with the body `return n`. -/
def width : Source.FunctionDef where
  location := { line := 1 }
  name := "width"
  generics := ⟨[], ["n"]⟩
  params := []
  result := some .nat
  body := [.ret { line := 2 } (some (.name { line := 2 } "n"))]

/-- The specialization of `width` to a number. -/
def widthRequest (n : UInt64) : Request := ⟨.definition, ⟨"width", [], [.const n]⟩, {}⟩

theorem registerHeaders_width : registerHeaders Prelude.table [.function width] =
    .ok ([(.function width, none)],
      Prelude.table.withSignature (Elaboration.functionSignature width)) :=
  registerHeaders_functions [width]
    (List.forall_mem_singleton.mpr (Prelude.table_accepts (by decide +kernel))) (by decide)

/-- What `width` is specialized to, with the literal for its argument. -/
def widthOf (key : String) (value : Int64) : ConcreteDefinition where
  key := key
  function :=
    { location := { line := 1 }
      name := "width"
      params := []
      result := .nat
      body := [.ret { line := 2 } (some (.int { line := 2 } .nat value))] }
  callees := []
  structs := []

theorem width_seven_is_seven : ∃ p, check {} [.function width] = .ok p ∧
    (session p.table (definitionsOf p.functions) [widthRequest 7]).definitions.get? "width[7]" =
      some (widthOf "width[7]" 7) ∧ (widthOf "width[7]" 7).function.NatsNonneg := by
  have run : ∃ p, check {} [.function width] = .ok p ∧
      (session p.table (definitionsOf p.functions) [widthRequest 7]).definitions.get? "width[7]" =
        some (widthOf "width[7]" 7) ∧ p.functions.flatMap (·.calls) = [] :=
    ⟨_, by rw [check, registerHeaders_width, Prelude.table_eq]; cbv, by cbv, by cbv⟩
  obtain ⟨p, checked, found, calls⟩ := run
  refine ⟨p, checked, found, ((nat_arguments_become_literals checked).2 _).2 ?_ ?_ _ _ found⟩
  · refine List.forall_mem_singleton.mpr fun _ => List.forall_mem_singleton.mpr ?_
    rintro _ ⟨⟩
    decide
  · intro f hf call hcall
    rw [List.flatMap_eq_nil_iff.mp calls f hf] at hcall
    cases hcall

/-- **A greater argument becomes a negative literal.** -/
theorem great_argument_becomes_negative : ∃ p d, check {} [.function width] = .ok p ∧
    (session p.table (definitionsOf p.functions)
      [widthRequest 9223372036854775808]).definitions.get? "width[9223372036854775808]" = some d ∧
    .int { line := 2 } .nat .minValue ∈ d.function.nodes :=
  ⟨_, widthOf "width[9223372036854775808]" Int64.minValue,
    by rw [check, registerHeaders_width, Prelude.table_eq]; cbv, by cbv, List.mem_singleton_self _⟩

end CheckedProgram

end QuantumStatics
