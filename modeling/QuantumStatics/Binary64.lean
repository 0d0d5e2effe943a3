/-
  Double-precision numbers and their shortest decimal text.

  A double is given by its 64 bits.  Its text has the fewest digits that read
  back as the same double; of two such numbers it is the nearer one, and of two
  equally near ones the one whose last digit is even.

  A positive double is `m · 2 ^ q` for the significand `m` and the exponent `q`,
  and the reals that round to it form an interval around it, whose ends belong to
  it if `m` is even.  On the grid of decimals with a given number of digits, the
  two neighbours of the double are tested against that interval.
-/

namespace QuantumStatics

/-- A double-precision number, given by its bits. -/
structure Binary64 where
  bits : UInt64
  deriving DecidableEq, Inhabited, Repr

/-- The decimal number `digits · 10 ^ exponent`. -/
structure Decimal where
  digits : Nat
  exponent : Int
  deriving DecidableEq, Inhabited, Repr

namespace Binary64

/-- Whether the sign bit is set. -/
def isNegative (x : Binary64) : Bool := x.bits.toNat / Nat.pow 2 63 = 1

/-- The exponent field. -/
def exponentField (x : Binary64) : Nat := x.bits.toNat / Nat.pow 2 52 % Nat.pow 2 11

/-- The fraction field. -/
def fractionField (x : Binary64) : Nat := x.bits.toNat % Nat.pow 2 52

/-- The significand `m` of the magnitude `m · 2 ^ q`. -/
def significand (x : Binary64) : Nat :=
  if x.exponentField = 0 then x.fractionField else Nat.pow 2 52 + x.fractionField

/-- The exponent `q` of the magnitude `m · 2 ^ q`. -/
def exponent (x : Binary64) : Int :=
  if x.exponentField = 0 then -1074 else (x.exponentField : Int) - 1075

/-- A ratio of natural numbers. -/
structure Ratio where
  num : Nat
  den : Nat

namespace Ratio

/-- The ratio `n · b ^ e`. -/
def scaled (n b : Nat) (e : Int) : Ratio :=
  if 0 ≤ e then ⟨n * Nat.pow b e.toNat, 1⟩ else ⟨n, Nat.pow b (-e).toNat⟩

/-- Whether one ratio is below another. -/
def lt (a b : Ratio) : Bool := a.num * b.den < b.num * a.den

/-- Whether one ratio is at most another. -/
def le (a b : Ratio) : Bool := a.num * b.den ≤ b.num * a.den

/-- The distance between two ratios. -/
def dist (a b : Ratio) : Ratio :=
  ⟨(a.num * b.den - b.num * a.den) + (b.num * a.den - a.num * b.den), a.den * b.den⟩

end Ratio

/-- The magnitude of a double. -/
def magnitude (x : Binary64) : Ratio := .scaled x.significand 2 x.exponent

/-- The lower end of the interval of numbers that round to a magnitude. -/
def lowerEnd (x : Binary64) : Ratio :=
  if x.fractionField = 0 ∧ 1 < x.exponentField then
    .scaled (4 * x.significand - 1) 2 (x.exponent - 2)
  else .scaled (2 * x.significand - 1) 2 (x.exponent - 1)

/-- The upper end of the interval of numbers that round to a magnitude. -/
def upperEnd (x : Binary64) : Ratio := .scaled (2 * x.significand + 1) 2 (x.exponent - 1)

/-- Whether a ratio rounds to the magnitude of a double. -/
def reads (x : Binary64) (r : Ratio) : Bool :=
  if x.significand % 2 = 0 then x.lowerEnd.le r && r.le x.upperEnd
  else x.lowerEnd.lt r && r.lt x.upperEnd

/-- The position of the first digit of a positive magnitude: `p` for numbers from
    `10 ^ p` on and below `10 ^ (p + 1)`. -/
def leadingPosition (x : Binary64) : Int :=
  let r := x.magnitude
  if r.den ≤ r.num then
    (((List.range 310).filter fun (p : Nat) => (Ratio.scaled 1 10 p).le r).length : Int) - 1
  else
    -(((List.range 330).filter fun (p : Nat) => r.lt (Ratio.scaled 1 10 (-(p : Int)))).length : Int)

/-- The one of `below` and `below + 1`, in units of `10 ^ k`, that is nearer to a
    magnitude; of two equally near ones the even one. -/
def nearer (x : Binary64) (below : Nat) (k : Int) : Nat :=
  let fromBelow := (Ratio.scaled below 10 k).dist x.magnitude
  let fromAbove := (Ratio.scaled (below + 1) 10 k).dist x.magnitude
  if fromBelow.lt fromAbove then below
  else if fromAbove.lt fromBelow then below + 1
  else if below % 2 = 0 then below else below + 1

/-- The decimal in units of `10 ^ k` that reads back as a positive magnitude and is
    nearest to it, if there is one. -/
def onGrid (x : Binary64) (k : Int) : Option Decimal :=
  let r := x.magnitude
  let unit := Ratio.scaled 1 10 k
  let below := r.num * unit.den / (r.den * unit.num)
  match x.reads (.scaled below 10 k), x.reads (.scaled (below + 1) 10 k) with
  | true, true => some ⟨x.nearer below k, k⟩
  | true, false => some ⟨below, k⟩
  | false, true => some ⟨below + 1, k⟩
  | false, false => none

/-- The magnitude of a double as a decimal with all its digits. -/
def exact (x : Binary64) : Decimal :=
  if 0 ≤ x.exponent then ⟨x.significand * Nat.pow 2 x.exponent.toNat, 0⟩
  else ⟨x.significand * Nat.pow 5 (-x.exponent).toNat, x.exponent⟩

/-- The shortest decimal that reads back as the magnitude of a double. -/
def shortest (x : Binary64) : Decimal :=
  if x.significand = 0 then ⟨0, 0⟩
  else
    let first := x.leadingPosition
    ((List.range 17).findSome? fun (i : Nat) => x.onGrid (first - i)).getD x.exact

end Binary64

/-- A decimal written positionally, without trailing zeros after the point. -/
def Decimal.text (d : Decimal) : String :=
  if 0 ≤ d.exponent then toString (d.digits * Nat.pow 10 d.exponent.toNat)
  else
    let places := (-d.exponent).toNat
    let whole := d.digits / Nat.pow 10 places
    let part := toString (d.digits % Nat.pow 10 places)
    let padded := ("".pushn '0' (places - part.length) ++ part).toList
    let shown := (padded.reverse.dropWhile (· = '0')).reverse
    toString whole ++ (if shown.isEmpty then "" else "." ++ String.ofList shown)

/-- The shortest decimal text that reads back as a double. -/
def Binary64.text (x : Binary64) : String :=
  (if x.isNegative then "-" else "") ++ x.shortest.text

/-- The 16 hexadecimal digits of the bits of a double. -/
def Binary64.hex (x : Binary64) : String :=
  let digits := String.ofList (Nat.toDigits 16 x.bits.toNat)
  "".pushn '0' (16 - digits.length) ++ digits

end QuantumStatics
