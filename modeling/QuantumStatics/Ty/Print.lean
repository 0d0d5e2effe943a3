/-
  The text of types.

  A type is written as in a program, except that an undetermined type shows as
  `'~` and an undetermined nat as `'#`, each followed by its stamp.  The
  canonical text numbers the undetermined types, and separately the undetermined
  nats, from zero in the order in which they first appear.
-/
import QuantumStatics.Ty.Vars

namespace QuantumStatics

/-- The text of a nat. -/
def NatTerm.text : NatTerm → String
  | .const value => toString value
  | .var name => name
  | .undet stamp => "'#" ++ toString stamp

/-- Bracketed arguments, the type arguments first: `[T, U; n]`, or nothing if
    there are no arguments. -/
def bracketed (types nats : List String) : String :=
  if types.isEmpty && nats.isEmpty then ""
  else
    "[" ++ ", ".intercalate types ++ (if types.isEmpty || nats.isEmpty then "" else "; ") ++
      ", ".intercalate nats ++ "]"

mutual

/-- The text of a type. -/
def Ty.text : Ty → String
  | .prim name _ => name
  | .var p => p.name
  | .undet stamp => "'~" ++ toString stamp
  | .tuple elems =>
    "(" ++ ", ".intercalate (Ty.texts elems) ++ (if elems.length = 1 then ",)" else ")")
  | .array elem length => "array[" ++ elem.text ++ ", " ++ length.text ++ "]"
  | .struct decl typeArgs natArgs =>
    decl.name ++ bracketed (Ty.texts typeArgs) (natArgs.map NatTerm.text)
  | .fn params result generics =>
    bracketed generics.typeNames generics.nats ++
      "(" ++ ", ".intercalate (Ty.paramTexts params) ++ ") -> " ++ result.text
  | .option inner => "Option[" ++ inner.text ++ "]"

/-- The texts of some types. -/
def Ty.texts : List Ty → List String
  | [] => []
  | t :: ts => t.text :: Ty.texts ts

/-- The texts of the parameters of a function type: owned ones are marked. -/
def Ty.paramTexts : List ParamType → List String
  | [] => []
  | ⟨t, ownership⟩ :: ps =>
    (t.text ++ (if ownership = .owned then " @owned" else "")) :: Ty.paramTexts ps

end

/-! ## Canonical text -/

/-- The numbers that stamps have been given so far, those of undetermined types
    apart from those of undetermined nats. -/
structure Numbering where
  types : Dict Stamp Stamp := {}
  nats : Dict Stamp Stamp := {}

/-- The number of a stamp and the numbers given by then: a stamp without a number
    gets the next one. -/
def numberStamp (numbers : Dict Stamp Stamp) (stamp : Stamp) : Stamp × Dict Stamp Stamp :=
  match numbers.get? stamp with
  | some number => (number, numbers)
  | none =>
    let number := numbers.size.toUInt64
    (number, numbers.insert stamp number)

/-- The number of the stamp of an undetermined type. -/
def numberType (stamp : Stamp) : StateM Numbering Stamp := fun s =>
  let (number, types) := numberStamp s.types stamp
  (number, { s with types })

/-- The number of the stamp of an undetermined nat. -/
def numberNat (stamp : Stamp) : StateM Numbering Stamp := fun s =>
  let (number, nats) := numberStamp s.nats stamp
  (number, { s with nats })

/-- Writes a nat with the number of its stamp. -/
def NatTerm.print : NatTerm → StateM Numbering String
  | .undet stamp => do return "'#" ++ toString (← numberNat stamp)
  | n => return n.text

mutual

/-- Writes a type from left to right, with the numbers of its stamps. -/
def Ty.print : Ty → StateM Numbering String
  | .prim name _ => return name
  | .var p => return p.name
  | .undet stamp => do return "'~" ++ toString (← numberType stamp)
  | .tuple elems => do
    return "(" ++ ", ".intercalate (← Ty.printAll elems) ++
      (if elems.length = 1 then ",)" else ")")
  | .array elem length => do
    return "array[" ++ (← elem.print) ++ ", " ++ (← length.print) ++ "]"
  | .struct decl typeArgs natArgs => do
    return decl.name ++ bracketed (← Ty.printAll typeArgs) (← natArgs.mapM NatTerm.print)
  | .fn params result generics => do
    return bracketed generics.typeNames generics.nats ++
      "(" ++ ", ".intercalate (← Ty.printParams params) ++ ") -> " ++ (← result.print)
  | .option inner => do return "Option[" ++ (← inner.print) ++ "]"

/-- Writes some types. -/
def Ty.printAll : List Ty → StateM Numbering (List String)
  | [] => return []
  | t :: ts => do return (← t.print) :: (← Ty.printAll ts)

/-- Writes the parameters of a function type: owned ones are marked. -/
def Ty.printParams : List ParamType → StateM Numbering (List String)
  | [] => return []
  | ⟨t, ownership⟩ :: ps => do
    return ((← t.print) ++ (if ownership = .owned then " @owned" else "")) ::
      (← Ty.printParams ps)

end

/-- The text of a type up to the choice of stamps. -/
def Ty.canonicalText (t : Ty) : String := (t.print {}).1

end QuantumStatics
