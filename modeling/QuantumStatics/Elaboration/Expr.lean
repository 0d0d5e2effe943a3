/-
  Checking expressions.

  `checkExpr` finds the type of an expression and how its places are used.  An
  expected type, where there is one, helps to determine generic arguments and
  lets an integer literal be a natural number; whether the type found is the
  expected one is left to the caller.

  A call is opened (`openCall`, `openMethodCall`, `openLocalCall`): its callee is
  found, its generic parameters get fresh arguments and the expected type is put
  in.  Then the arguments are checked against the parameters, and the call is
  closed (`closeCall`).
-/
import QuantumStatics.Elaboration.Declared
import QuantumStatics.Elaboration.State

namespace QuantumStatics.Elaboration

open Typed (UseKind CallKind)

/-- How an argument is used. -/
def useFor : Ownership → UseKind
  | .owned => .consume
  | .borrowed => .borrow

namespace Check

/-! ## Names -/

/-- Checks a name: a local binding, a nat parameter or a function. -/
def lookupName (Γ : Scope) (location : Location) (name : String) (context : UseKind) :
    Check Typed.Expr := do
  match ← binding? name with
  | some t => return .name location t name (← placeUse t context)
  | none =>
    if Γ.assigned.contains name then
      .reject location (.usedBeforeDefinition name)
    if Γ.generics.hasNat name then
      return .natParam location name
    match Γ.table.find? name with
    | some s =>
      if s.isGeneric then
        .reject location (.genericReference name)
      return .fnRef location s.functionType name
    | none => .reject location (.unknownName name)

/-! ## Calls -/

/-- A call whose callee is known and whose arguments are still to be checked. -/
structure OpenCall where
  callee : String
  kind : CallKind
  generics : Generics := {}
  /-- The generic arguments. -/
  inst : Instantiation := {}
  result : Ty
  /-- The receiver and how it is passed. -/
  receiver : Option (Typed.Expr × Ownership) := none
  /-- The types of the parameters for the arguments, and how they are passed. -/
  params : List ParamType

/-- Checks the number of arguments of a call. -/
def checkArity (location : Location) (callee : String) (expected given : Nat) : Check Unit := do
  unless given = expected do
    .reject location (.argumentCount callee expected given)

/-- Makes the result of a call the expected type, if there is one. -/
def expectResult (location : Location) (callee : String) (expected : Option Ty) (result : Ty) :
    Check Unit :=
  match expected with
  | some t => unifyAt location callee t result
  | none => pure ()

/-- Opens a call of a registered function with `count` arguments. -/
def openSignature (location : Location) (s : Signature) (kind : CallKind) (count : Nat)
    (expected : Option Ty) : Check OpenCall := do
  checkArity location s.name s.params.length count
  let inst ← freshArgs s.generics
  let result := inst.apply s.result
  expectResult location s.name expected result
  return {
    callee := s.name, kind, generics := s.generics, inst, result,
    params := s.params.map fun p => ⟨inst.apply p.type, p.ownership⟩ }

/-- Opens a call of a function value with `count` arguments. -/
def openLocalCall (location : Location) (callee : String) (type : Ty) (count : Nat)
    (expected : Option Ty) : Check OpenCall := do
  match ← resolve type with
  | .fn params result _ =>
    checkArity location callee params.length count
    expectResult location callee expected result
    return { callee, kind := .localValue, result, params }
  | t => .reject location (.notCallable callee t)

/-- Opens a call by name with `count` arguments. -/
def openCall (Γ : Scope) (location : Location) (callee : String) (count : Nat)
    (expected : Option Ty) : Check OpenCall := do
  match ← binding? callee with
  | some t => openLocalCall location callee t count expected
  | none =>
    if Γ.assigned.contains callee then
      .reject location (.usedBeforeDefinition callee)
    let s ← Γ.table.lookup callee location
    let kind := if (Γ.table.findStruct? callee).isSome then .constructor else .function
    openSignature location s kind count expected

/-- Opens a call of a method with `count` arguments besides the receiver. -/
def openMethodCall (Γ : Scope) (location : Location) (receiver : Typed.Expr) (method : String)
    (count : Nat) (expected : Option Ty) : Check OpenCall := do
  let t ← resolve receiver.type
  match Γ.table.findMethod? t method with
  | none =>
    if t.hasUndetermined then
      .reject location (.undeterminedReceiver method t)
    .reject location (.unknownMethod method t)
  | some s =>
    let call ← openSignature location s .method (count + 1) expected
    match call.params with
    | self :: params =>
      expect receiver self.type location s.name
      let receiver ← setUse (useFor self.ownership) receiver
      return { call with receiver := some (receiver, self.ownership), params }
    | [] => return call

/-- Closes a call whose arguments have been checked. -/
def closeCall (location : Location) (call : OpenCall) (args : List Typed.Expr) :
    Check Typed.Expr := do
  let typeArgs := call.generics.typeNames.filterMap call.inst.types.get?
  let natArgs := call.generics.nats.filterMap call.inst.nats.get?
  unless call.generics.isEmpty do
    modify fun s =>
      { s with calls := s.calls ++ [⟨location, call.callee, call.generics, typeArgs, natArgs⟩] }
  let ownership := call.params.map (·.ownership)
  match call.receiver with
  | some (receiver, passed) =>
    return .call location call.result
      { callee := call.callee, kind := call.kind, ownership := passed :: ownership
        typeArgs, natArgs }
      (receiver :: args)
  | none =>
    return .call location call.result
      { callee := call.callee, kind := call.kind, ownership, typeArgs, natArgs } args

/-! ## Projections -/

/-- The type of a field of an object. -/
def fieldOf (location : Location) (object : Typed.Expr) (label : String) : Check (Nat × Ty) := do
  match ← resolve object.type with
  | .struct decl typeArgs natArgs =>
    match decl.fieldIndex? label with
    | none => .reject location (.unknownField decl.name label)
    | some index =>
      let fields ← .ofDefect (decl.instantiateFields typeArgs natArgs)
      match fields[index]? with
      | some f => return (index, f.type)
      | none => .reject location (.unknownField decl.name label)
  | t => .reject location (.notAStruct label t)

/-- The type of the elements of what is indexed. -/
def elementOf (location : Location) (indexed : Typed.Expr) : Check Ty := do
  match ← resolve indexed.type with
  | .array elem _ => return elem
  | t => .reject location (.notIndexable t)

/-- Checks that an index is an integer or a natural number. -/
def checkIndex (location : Location) (index : Typed.Expr) : Check Unit := do
  let t ← resolve index.type
  unless t.primName? = some "int" ∨ t.primName? = some "nat" do
    unless t.hasUndetermined do
      .reject location (.badIndex t)
    expect index .int location "array index"

/-! ## Expected types -/

/-- The type of an integer literal: natural if that is expected and possible. -/
def literalType (expected : Option Ty) (value : Int64) : Check Ty := do
  match expected with
  | none => return .int
  | some t =>
    let t ← resolve t
    return if 0 ≤ value ∧ t.primName? = some "nat" then .nat else .int

/-- The types expected of the elements of a tuple. -/
def tupleHints (expected : Option Ty) (count : Nat) : Check (List (Option Ty)) := do
  match expected with
  | none => return List.replicate count none
  | some t =>
    match ← resolve t with
    | .tuple elems =>
      return if elems.length = count then elems.map some else List.replicate count none
    | _ => return List.replicate count none

/-- The type expected of the elements of an array. -/
def arrayHint (expected : Option Ty) : Check Ty := do
  match expected with
  | none => freshType
  | some t =>
    match ← resolve t with
    | .array elem _ => return elem
    | _ => freshType

/-- Checks that an operator is defined for the type of its left operand. -/
def checkOperator (Γ : Scope) (location : Location) (op method : String) (left : Typed.Expr) :
    Check Unit := do
  let t ← resolve left.type
  unless (Γ.table.findMethod? t method).isSome do
    .reject location (.undefinedOperator op t)

/-- The method of an operator. -/
def operatorMethod (location : Location) (op : String) (method? : Option String) : Check String :=
  match method? with
  | some method => return method
  | none => .reject location (.unknownOperator op)

/-- The type expected of an operation, which says nothing about the operands of a
    comparison. -/
def operandHint (method : String) (expected : Option Ty) : Option Ty :=
  if isComparison method then none else expected

end Check

open Check

mutual

/-- Checks an expression, its value being used as `context` says. -/
def checkExpr (Γ : Scope) (expected : Option Ty) (context : UseKind) :
    Source.Expr → Check Typed.Expr
  | .int location value => return .int location (← literalType expected value) value
  | .float location value => return .float location value
  | .bool location value => return .bool location value
  | .name location n => lookupName Γ location n context
  | .tuple location elems => do
    let elems ← checkElems Γ (← tupleHints expected elems.length) elems
    return .tuple location (.tuple (elems.map (·.type))) elems
  | .array location elems => do
    let elem ← arrayHint expected
    let typed ← checkMembers Γ elem elems
    return .array location (.array (← resolve elem) (.const elems.length.toUInt64)) typed
  | .call location callee args => do
    let call ← openCall Γ location callee args.length expected
    closeCall location call (← checkArgs Γ call.callee call.params args)
  | .methodCall location receiver method args => do
    let receiver ← checkExpr Γ none .borrow receiver
    let call ← openMethodCall Γ location receiver method args.length expected
    closeCall location call (← checkArgs Γ call.callee call.params args)
  | .field location object label => do
    let object ← checkExpr Γ none .borrow object
    let (index, t) ← fieldOf location object label
    return .field location t object label index (← placeUse t context)
  | .subscript location indexed index => do
    let typed ← checkExpr Γ none .borrow indexed
    let elem ← elementOf location typed
    let position ← checkExpr Γ none .borrow index
    checkIndex index.location position
    return .subscript location elem typed position (← placeUse elem context)
  | .binary location op left right => do
    let method ← operatorMethod location op (binaryMethod? op)
    let left ← checkExpr Γ (operandHint method expected) .borrow left
    checkOperator Γ location op method left
    let call ← openMethodCall Γ location left method 1 (operandHint method expected)
    match call.params with
    | p :: _ =>
      let typed ← checkExpr Γ (some p.type) (useFor p.ownership) right
      expect typed p.type right.location call.callee
      closeCall location call [typed]
    | [] => closeCall location call []
  | .unary location op operand => do
    let method ← operatorMethod location op (unaryMethod? op)
    let operand ← checkExpr Γ expected .borrow operand
    checkOperator Γ location op method operand
    let call ← openMethodCall Γ location operand method 0 (operandHint method expected)
    closeCall location call []
  | .annotated location expr t => do
    .ofExcept (checkType Γ.table Γ.generics location t)
    let typed ← checkExpr Γ (some t) context expr
    expect typed t location "annotation"
    return typed

/-- Checks the arguments of a call against its parameters. -/
def checkArgs (Γ : Scope) (callee : String) :
    List ParamType → List Source.Expr → Check (List Typed.Expr)
  | p :: ps, e :: es => do
    let typed ← checkExpr Γ (some p.type) (useFor p.ownership) e
    expect typed p.type e.location callee
    return typed :: (← checkArgs Γ callee ps es)
  | _, _ => return []

/-- Checks the elements of a tuple. -/
def checkElems (Γ : Scope) : List (Option Ty) → List Source.Expr → Check (List Typed.Expr)
  | hint :: hints, e :: es => do
    let typed ← checkExpr Γ hint .consume e
    return typed :: (← checkElems Γ hints es)
  | _, _ => return []

/-- Checks the elements of an array, which all have one type. -/
def checkMembers (Γ : Scope) (elem : Ty) : List Source.Expr → Check (List Typed.Expr)
  | [] => return []
  | e :: es => do
    let typed ← checkExpr Γ (some elem) .consume e
    expect typed elem e.location "array element"
    return typed :: (← checkMembers Γ elem es)

end

end QuantumStatics.Elaboration
