/-
  Broken promises.

  Some operations are only meant for certain inputs: a type with undetermined
  parts has no ownership class, a struct must be applied to as many arguments
  as it has parameters.  A `Defect` says which promise a caller did not keep.
  It is not an error in the program under analysis.
-/
import QuantumStatics.Location
import QuantumStatics.Ty.Print

namespace QuantumStatics

/-- A promise that a caller did not keep. -/
inductive Defect where
  /-- The value of a nat that is not a constant was asked for. -/
  | notConstant (n : NatTerm)
  /-- The name of a nat that is not a variable was asked for. -/
  | notVariable (n : NatTerm)
  /-- The stamp of a nat that is not undetermined was asked for. -/
  | notUndetermined (n : NatTerm)
  /-- A struct is applied to a number of arguments that it does not take. -/
  | structArguments (name : String)
  /-- Generic parameters were given a different number of arguments. -/
  | argumentCount
  /-- An undetermined type was to be classified. -/
  | unclassified (stamp : Stamp)
  /-- A declaration mentions an undetermined type. -/
  | undeterminedDeclared (stamp : Stamp)
  /-- Something was registered after registration ended. -/
  | registrationEnded (name : String)
  /-- A value that is no tuple of the right length is taken apart. -/
  | notTuple (type : Ty)
  /-- A field of something that is no struct is moved. -/
  | notStruct
  /-- An element of something that is no array is moved. -/
  | notArray
  /-- A `break` or `continue` stands outside of a loop. -/
  | jumpOutsideLoop (location : Location)
  /-- Specialization left a type open. -/
  | openType (type : Ty)
  /-- Specialization left a nat that is not a constant. -/
  | openNat (n : NatTerm)
  /-- A nat parameter used as a value was replaced by an undetermined nat. -/
  | natParameter (name : String) (image : NatTerm)
  /-- More specializations are in progress than there are names. -/
  | chainTooLong

/-- The text of a defect. -/
def Defect.message : Defect → String
  | notConstant n => "Nat " ++ n.text ++ " is not a constant"
  | notVariable n => "Nat " ++ n.text ++ " is not a variable"
  | notUndetermined n => "Nat " ++ n.text ++ " is not undetermined"
  | structArguments name => "Struct " ++ name ++ " applied to the wrong number of arguments"
  | argumentCount => "Instantiation argument count mismatch"
  | unclassified stamp => "Cannot classify undetermined type " ++ (Ty.undet stamp).text
  | undeterminedDeclared stamp =>
    "Declared type mentions undetermined type " ++ (Ty.undet stamp).text
  | registrationEnded name =>
    "Cannot register " ++ name ++ " after the signature table is finalized"
  | notTuple type => "Tuple assignment from non-tuple type " ++ type.text
  | notStruct => "Field projection of a non-struct"
  | notArray => "Subscript of a non-array"
  | jumpOutsideLoop location => location.text ++ ": jump outside of a loop"
  | openType type => "Specialized type " ++ type.text ++ " is not closed"
  | openNat n => "Specialized nat " ++ n.text ++ " is not constant"
  | natParameter name image => "Nat parameter " ++ name ++ " mapped to " ++ image.text
  | chainTooLong => "More specializations are in progress than there are names"

/-! ## Parts of a nat -/

namespace NatTerm

/-- The value of a constant. -/
def value : NatTerm → Except Defect UInt64
  | .const value => .ok value
  | n => .error (.notConstant n)

/-- The name of a variable. -/
def name : NatTerm → Except Defect String
  | .var name => .ok name
  | n => .error (.notVariable n)

/-- The stamp of an undetermined nat. -/
def stamp : NatTerm → Except Defect Stamp
  | .undet stamp => .ok stamp
  | n => .error (.notUndetermined n)

/-- Whether a nat is a constant. -/
def isConst : NatTerm → Bool
  | .const _ => true
  | _ => false

/-- Whether a nat is undetermined. -/
def isUndet : NatTerm → Bool
  | .undet _ => true
  | _ => false

end NatTerm

end QuantumStatics
