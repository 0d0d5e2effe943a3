/-
  The signatures that every program starts with: gates and measurements, random
  numbers, arrays, options, conversions and operators.
-/
import QuantumStatics.Signature.Table

namespace QuantumStatics.Prelude

/-- A parameter that is lent. -/
def borrowed (name : String) (type : Ty) : Param := ⟨name, type, .borrowed⟩

/-- A parameter that is given away. -/
def owned (name : String) (type : Ty) : Param := ⟨name, type, .owned⟩

/-- A signature of the prelude. -/
def builtin (name : String) (params : List Param) (result : Ty) (generics : Generics := {}) :
    Signature :=
  ⟨name, generics, params, result, ⟨"<prelude>", 0⟩⟩

/-- The type parameter `T`, which accepts every type. -/
def anyType : TypeParam := ⟨"T", false, false⟩

/-- The type variable `T`. -/
def t : Ty := .var anyType

/-- The nat variable `n`. -/
def n : NatTerm := .var "n"

/-- Gates, allocation and measurement of qubits. -/
def qubits : List Signature :=
  [builtin "qubit" [] .qubit] ++
  ["h", "x", "z", "s", "t", "reset"].map (builtin · [borrowed "q" .qubit] .none) ++
  [builtin "cx" [borrowed "c" .qubit, borrowed "t" .qubit] .none,
    builtin "measure" [owned "q" .qubit] .bool,
    builtin "discard" [owned "q" .qubit] .none]

/-- Random numbers. -/
def random : List Signature :=
  [builtin "rng" [borrowed "seed" .int] .rng,
    builtin (methodName "rng" "random_int") [borrowed "self" .rng] .int]

/-- Arrays, ranges and options. -/
def collections : List Signature :=
  [builtin "len" [borrowed "a" (.array t n)] .nat ⟨[anyType], ["n"]⟩,
    builtin "range" [borrowed "stop" .int] .range,
    builtin "nothing" [] (.option t) ⟨[anyType], []⟩,
    builtin "some" [owned "v" t] (.option t) ⟨[anyType], []⟩,
    builtin "unwrap" [owned "o" (.option t)] t ⟨[anyType], []⟩,
    builtin "is_some" [borrowed "o" (.option t)] .bool ⟨[anyType], []⟩,
    builtin "discard_array" [owned "a" (.array .qubit n)] .none ⟨[], ["n"]⟩,
    builtin "measure_array" [owned "a" (.array .qubit n)] (.array .bool n) ⟨[], ["n"]⟩]

/-- Conversions between numbers. -/
def conversions : List Signature :=
  [builtin "int" [borrowed "n" .nat] .int, builtin "nat" [borrowed "i" .int] .nat,
    builtin "float" [borrowed "i" .int] .float]

/-- The binary operators among `ops` on a leaf type. -/
def binary (owner : String) (self result : Ty) (ops : List String) : List Signature :=
  (ops.filterMap binaryMethod?).map fun method =>
    builtin (methodName owner method) [borrowed "self" self, borrowed "other" self] result

/-- The unary operators among `ops` on a leaf type. -/
def unary (owner : String) (self : Ty) (ops : List String) : List Signature :=
  (ops.filterMap unaryMethod?).map fun method =>
    builtin (methodName owner method) [borrowed "self" self] self

/-- The comparisons of numbers. -/
def comparisons : List String := ["==", "!=", "<", "<=", ">", ">="]

/-- Operators on numbers and truth values. -/
def operators : List Signature :=
  binary "int" .int .int ["+", "-", "*", "/", "%"] ++ binary "int" .int .bool comparisons ++
  unary "int" .int ["-"] ++
  binary "nat" .nat .nat ["+", "-", "*", "/", "%"] ++ binary "nat" .nat .bool comparisons ++
  binary "float" .float .float ["+", "-", "*", "/"] ++
  binary "float" .float .bool comparisons ++ unary "float" .float ["-"] ++
  binary "bool" .bool .bool ["and", "or"] ++ binary "bool" .bool .bool ["==", "!="] ++
  unary "bool" .bool ["not"]

/-- The prelude, in the order of registration. -/
def signatures : List Signature := qubits ++ random ++ collections ++ conversions ++ operators

/-- Registers the prelude. -/
def install : Registration Unit := signatures.forM SignatureTable.add

/-- The table with nothing but the prelude. -/
def table : SignatureTable :=
  match install {} with
  | .ok _ T | .error _ T => T

end QuantumStatics.Prelude
