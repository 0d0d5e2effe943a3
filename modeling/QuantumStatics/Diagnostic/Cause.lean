/-
  Why a definition is rejected.

  Each way to fail is a constructor of `Cause` that holds what its message shows.
  `Cause.kind` sorts the causes into the kinds users see, `Cause.message` words
  them and `Cause.names` lists the names and types they involve.
-/
import QuantumStatics.Location
import QuantumStatics.Unification

namespace QuantumStatics

/-! ## Kinds -/

/-- The kinds of rejection. -/
inductive ErrorKind where
  | unknownName
  | duplicateDefinition
  | typeMismatch
  | inconsistentBindingType
  | unresolvedParameter
  | useBeforeDefinition
  | useAfterConsume
  | resourceLeak
  | inconsistentConsumption
  | arityMismatch
  | unresolvedGeneric
  | recursiveMonomorphisation
  deriving DecidableEq, Inhabited, Repr

namespace ErrorKind

/-- The name of a kind in diagnostics. -/
def text : ErrorKind → String
  | unknownName => "UnknownNameError"
  | duplicateDefinition => "DuplicateDefinitionError"
  | typeMismatch => "TypeMismatchError"
  | inconsistentBindingType => "InconsistentBindingTypeError"
  | unresolvedParameter => "UnresolvedParameterError"
  | useBeforeDefinition => "UseBeforeDefinitionError"
  | useAfterConsume => "UseAfterConsumeError"
  | resourceLeak => "ResourceLeakError"
  | inconsistentConsumption => "InconsistentConsumptionError"
  | arityMismatch => "ArityMismatchError"
  | unresolvedGeneric => "UnresolvedGenericError"
  | recursiveMonomorphisation => "RecursiveMonomorphisationError"

/-- All kinds. -/
def all : List ErrorKind :=
  [unknownName, duplicateDefinition, typeMismatch, inconsistentBindingType, unresolvedParameter,
    useBeforeDefinition, useAfterConsume, resourceLeak, inconsistentConsumption, arityMismatch,
    unresolvedGeneric, recursiveMonomorphisation]

/-- The kind of a name. -/
def ofText? (s : String) : Option ErrorKind := all.find? (·.text = s)

end ErrorKind

/-! ## Causes -/

/-- Why a definition, or a request about one, is rejected. -/
inductive Cause where
  -- Registration
  | conflictingSignature (name : String) (earlier : Location)
  | conflictingStruct (name : String)
  | alreadyDefined (name : String)
  | methodTwice (method : String)
  | redeclaredParameter (method param struct : String)
  | unknownFunction (name : String)
  | unknownStruct (name : String)
  -- Declared types and parameters
  | genericTwice (name : String)
  | parameterTwice (param function : String)
  | fieldTwice (field struct : String)
  | unknownTypeParameter (name : String)
  | unknownNatParameter (name : String)
  | staleStruct (name : String)
  | structArity (name : String) (types nats : Nat)
  | selfParameter (method : String) (self : Ty)
  | missingReturn (function : String) (result : Ty)
  -- Expressions
  | usedBeforeDefinition (name : String)
  | genericReference (name : String)
  | unknownName (name : String)
  | argumentCount (callee : String) (expected given : Nat)
  | mismatch (what : String) (error : UnificationError)
  | notCallable (name : String) (type : Ty)
  | undeterminedReceiver (method : String) (type : Ty)
  | unknownMethod (method : String) (type : Ty)
  | unknownOperator (op : String)
  | undefinedOperator (op : String) (type : Ty)
  | notAStruct (field : String) (type : Ty)
  | unknownField (struct field : String)
  | notIndexable (type : Ty)
  | badIndex (type : Ty)
  -- Statements
  | boundTwice (name : String)
  | notIterable (loopVar : String) (type : Ty)
  | loopVariableType (loopVar : String)
  | outsideLoop (what : String)
  | unresolvedTypeParameter (param callee : String)
  | unresolvedNatParameter (param callee : String)
  | boundViolated (type : Ty) (cls : OwnershipClass) (param callee : String)
  | unresolvedBinding (name : String) (type : Ty)
  | inconsistentBinding (name : String) (l r : Ty)
  -- Consumption
  | passedTwice (name callee : String)
  | lentTemporary (type : Ty) (callee : String)
  | droppedResult (type : Ty)
  | returnFromLoop (loopVar : String)
  | breakFromLoop (loopVar : String)
  | maybeUndefined (name : String)
  | usedAfterConsume (name : String)
  | droppedTemporary (type : Ty)
  | movedField (field struct leaked : String)
  | movedElement (type : Ty)
  | overwritten (name : String)
  | notRestored (name : String)
  | neverConsumed (name : String)
  | loopVariableKept (loopVar : String)
  | consumedInLoop (name : String)
  | createdInLoop (name : String)
  | consumedOnOnePath (name : String)
  | heldOnOnePath (name : String)
  -- Specialization
  | noDefinition (name : String)
  | genericArity (name : String) (types nats givenTypes givenNats : Nat)
  | openTypeArgument (type : Ty) (param name : String)
  | inadmissible (type : Ty) (cls : OwnershipClass) (param name : String)
  | openNatArgument (n : NatTerm) (param name : String)
  | requiresItself (chain : List String) (key : String)
  | reenters (chain : List String) (key name : String)
  /-- A cause that is worded by whoever raises it. -/
  | stated (kind : ErrorKind) (message : String) (names : List String)

namespace Cause

/-- The kind of a cause. -/
def kind : Cause → ErrorKind
  | unknownFunction _ | unknownStruct _ | unknownTypeParameter _ | unknownNatParameter _
  | unknownName _ | unknownMethod _ _ | unknownOperator _ | unknownField _ _
  | noDefinition _ => .unknownName
  | conflictingSignature _ _ | conflictingStruct _ | alreadyDefined _ | methodTwice _
  | redeclaredParameter _ _ _ | genericTwice _ | parameterTwice _ _ | fieldTwice _ _
  | boundTwice _ => .duplicateDefinition
  | staleStruct _ | selfParameter _ _ | missingReturn _ _ | genericReference _ | mismatch _ _
  | notCallable _ _ | undefinedOperator _ _ | notAStruct _ _ | notIndexable _ | badIndex _
  | notIterable _ _ | outsideLoop _ | boundViolated _ _ _ _ | inadmissible _ _ _ _ =>
    .typeMismatch
  | inconsistentBinding _ _ _ => .inconsistentBindingType
  | undeterminedReceiver _ _ | loopVariableType _ | unresolvedTypeParameter _ _
  | unresolvedNatParameter _ _ | unresolvedBinding _ _ => .unresolvedParameter
  | usedBeforeDefinition _ | maybeUndefined _ => .useBeforeDefinition
  | passedTwice _ _ | usedAfterConsume _ | notRestored _ => .useAfterConsume
  | lentTemporary _ _ | droppedResult _ | returnFromLoop _ | breakFromLoop _ | droppedTemporary _
  | movedField _ _ _ | movedElement _ | overwritten _ | neverConsumed _ | loopVariableKept _
  | createdInLoop _ | heldOnOnePath _ => .resourceLeak
  | consumedInLoop _ | consumedOnOnePath _ => .inconsistentConsumption
  | structArity _ _ _ | argumentCount _ _ _ | genericArity _ _ _ _ _ => .arityMismatch
  | openTypeArgument _ _ _ | openNatArgument _ _ _ => .unresolvedGeneric
  | requiresItself _ _ | reenters _ _ _ => .recursiveMonomorphisation
  | stated kind _ _ => kind

/-- Keys in the order in which they were asked for. -/
def chainText (chain : List String) : String := " -> ".intercalate chain

/-- The text of a cause. -/
def message : Cause → String
  | conflictingSignature name earlier =>
    name ++ " is already defined with a different signature at " ++ earlier.text
  | conflictingStruct name => "Struct " ++ name ++ " is already defined differently"
  | alreadyDefined name => name ++ " is already defined"
  | methodTwice method => "Method " ++ method ++ " is defined twice"
  | redeclaredParameter method param struct =>
    "Method " ++ method ++ " redeclares parameter " ++ param ++ " of struct " ++ struct
  | unknownFunction name => "Unknown function " ++ name
  | unknownStruct name => "Unknown struct " ++ name
  | genericTwice name => "Generic parameter " ++ name ++ " is declared twice"
  | parameterTwice param function =>
    "Parameter " ++ param ++ " of " ++ function ++ " is declared twice"
  | fieldTwice field struct => "Field " ++ field ++ " of " ++ struct ++ " is declared twice"
  | unknownTypeParameter name => "Unknown type parameter " ++ name
  | unknownNatParameter name => "Unknown nat parameter " ++ name
  | staleStruct name => "Struct " ++ name ++ " does not match its registered declaration"
  | structArity name types nats =>
    "Struct " ++ name ++ " takes " ++ toString types ++ " type and " ++ toString nats ++
      " nat arguments"
  | selfParameter method self =>
    "The first parameter of method " ++ method ++ " must be self: " ++ self.text
  | missingReturn function result =>
    function ++ " can reach its end without returning a value of type " ++ result.text
  | usedBeforeDefinition name => name ++ " is used before it is defined"
  | genericReference name => "Generic function " ++ name ++ " can only be called"
  | unknownName name => "Unknown name " ++ name
  | argumentCount callee expected given =>
    callee ++ " takes " ++ toString expected ++ " arguments but " ++ toString given ++
      " were given"
  | mismatch _ error => "Unification error: " ++ error.message
  | notCallable name type =>
    name ++ " has type " ++ type.canonicalText ++ " and cannot be called"
  | undeterminedReceiver method type =>
    "Cannot call " ++ method ++ " on a value of undetermined type " ++ type.text
  | unknownMethod method type => type.text ++ " has no method " ++ method
  | unknownOperator op => "Unknown operator " ++ op
  | undefinedOperator op type => "Operator " ++ op ++ " is not defined for " ++ type.canonicalText
  | notAStruct field type =>
    "Cannot access field " ++ field ++ " of non-struct type " ++ type.canonicalText
  | unknownField struct field => struct ++ " has no field " ++ field
  | notIndexable type => "Cannot index a value of type " ++ type.canonicalText
  | badIndex type => "Array index must be int or nat, not " ++ type.text
  | boundTwice name => name ++ " is bound twice"
  | notIterable _ type => "Cannot iterate over a value of type " ++ type.canonicalText
  | loopVariableType loopVar => "Cannot infer the type of loop variable " ++ loopVar
  | outsideLoop what => what ++ " outside of a loop"
  | unresolvedTypeParameter param callee =>
    "Cannot infer type parameter " ++ param ++ " of " ++ callee ++ "; add a type annotation"
  | unresolvedNatParameter param callee =>
    "Cannot infer nat parameter " ++ param ++ " of " ++ callee ++ "; add a type annotation"
  | boundViolated type cls param callee =>
    type.text ++ " is " ++ cls.text ++ " and cannot instantiate type parameter " ++ param ++
      " of " ++ callee
  | unresolvedBinding name type =>
    "Cannot infer the type of " ++ name ++ ": " ++ type.canonicalText
  | inconsistentBinding name l r =>
    name ++ " has type " ++ l.text ++ " on one path and " ++ r.text ++ " on another"
  | passedTwice name callee => name ++ " is passed more than once to " ++ callee
  | lentTemporary type callee =>
    "A linear value of type " ++ type.text ++ " is lent to " ++ callee ++ " and never consumed"
  | droppedResult type => "The linear result of type " ++ type.text ++ " is never consumed"
  | returnFromLoop loopVar =>
    "Returning from the loop over " ++ loopVar ++ " leaks its remaining elements"
  | breakFromLoop loopVar =>
    "Breaking out of the loop over " ++ loopVar ++ " leaks its remaining elements"
  | maybeUndefined name => name ++ " may be used before it is defined"
  | usedAfterConsume name => name ++ " is used after it was consumed"
  | droppedTemporary type => "A temporary of type " ++ type.text ++ " is dropped after projection"
  | movedField field struct leaked =>
    "Moving " ++ field ++ " out of " ++ struct ++ " leaks its field " ++ leaked
  | movedElement type =>
    "Moving an element out of " ++ type.text ++ " leaks the remaining elements"
  | overwritten name => name ++ " is reassigned while it holds a linear value"
  | notRestored name => "Borrowed parameter " ++ name ++ " is consumed and not restored"
  | neverConsumed name => name ++ " holds a linear value that is never consumed"
  | loopVariableKept loopVar =>
    "Loop variable " ++ loopVar ++ " is not consumed in every iteration"
  | consumedInLoop name => name ++ " is consumed in a loop iteration"
  | createdInLoop name => name ++ " is created in a loop iteration and not consumed"
  | consumedOnOnePath name => name ++ " is consumed on one path but not on another"
  | heldOnOnePath name => name ++ " holds a linear value on only one path"
  | noDefinition name => "No checked definition of " ++ name
  | genericArity name types nats givenTypes givenNats =>
    name ++ " takes " ++ toString types ++ " type and " ++ toString nats ++
      " nat arguments but was given " ++ toString givenTypes ++ " and " ++ toString givenNats
  | openTypeArgument type param name =>
    "Type argument " ++ type.canonicalText ++ " for " ++ param ++ " of " ++ name ++
      " is not closed"
  | inadmissible type cls param name =>
    type.text ++ " is " ++ cls.text ++ " and cannot instantiate " ++ param ++ " of " ++ name
  | openNatArgument n param name =>
    "Nat argument " ++ n.text ++ " for " ++ param ++ " of " ++ name ++ " is not a constant"
  | requiresItself chain key =>
    "Specializing " ++ key ++ " requires itself: " ++ chainText (chain ++ [key])
  | reenters chain key name =>
    "Specializing " ++ key ++ " re-enters " ++ name ++
      " with new arguments and would not terminate: " ++ chainText (chain ++ [key])
  | stated _ message _ => message

/-- The names and types that a cause involves. -/
def names : Cause → List String
  | conflictingSignature name _ | conflictingStruct name | alreadyDefined name | methodTwice name
  | unknownFunction name | unknownStruct name | genericTwice name | parameterTwice name _
  | fieldTwice name _ | unknownTypeParameter name | unknownNatParameter name | staleStruct name
  | structArity name _ _ | selfParameter name _ | missingReturn name _
  | usedBeforeDefinition name | genericReference name | unknownName name
  | argumentCount name _ _ | mismatch name _ | notCallable name _ | undeterminedReceiver name _
  | unknownMethod name _ | unknownOperator name | undefinedOperator name _ | notAStruct name _
  | boundTwice name | notIterable name _ | loopVariableType name | outsideLoop name
  | unresolvedBinding name _ | inconsistentBinding name _ _ | returnFromLoop name
  | breakFromLoop name | maybeUndefined name | usedAfterConsume name | overwritten name
  | notRestored name | neverConsumed name | loopVariableKept name | consumedInLoop name
  | createdInLoop name | consumedOnOnePath name | heldOnOnePath name | noDefinition name
  | genericArity name _ _ _ _ => [name]
  | redeclaredParameter _ param _ => [param]
  | unknownField _ field => [field]
  | notIndexable _ | badIndex _ => []
  | unresolvedTypeParameter param callee | unresolvedNatParameter param callee
  | boundViolated _ _ param callee => [callee, param]
  | passedTwice name callee => [name, callee]
  | lentTemporary _ callee => [callee]
  | droppedResult type | droppedTemporary type | movedElement type => [type.text]
  | movedField field _ leaked => [field, leaked]
  | openTypeArgument _ param name | inadmissible _ _ param name | openNatArgument _ param name =>
    [name, param]
  | requiresItself chain key | reenters chain key _ => chain ++ [key]
  | stated _ _ names => names

end Cause

end QuantumStatics
