import LiveTemplate.Number.Numeral

/-!
# The shortest decimal of a double

A double is written with the fewest significant digits that read back to it, and among those with
the digits nearest to it, a half going up. The text is positional at every size.
-/
namespace LiveTemplate.Shortest

/-- A positive finite double as `mantissa * 2 ^ exponent`. -/
structure Scaled where
  mantissa : Nat
  exponent : Int

/-- The weight of the sign in the bits of a double: the 63rd power of two. -/
def signWeight : Nat := 0x8000000000000000

/-- The weight of the lowest bit of the exponent: the 52nd power of two. -/
def exponentWeight : Nat := 0x10000000000000

/-- Splits the bits of a finite double, without its sign. -/
def Scaled.ofFloat (x : Float) : Scaled :=
  let bits := x.toBits.toNat % signWeight
  let fraction := bits % exponentWeight
  let biased := bits / exponentWeight
  if biased = 0 then ⟨fraction, -1074⟩
  else ⟨fraction + exponentWeight, Int.ofNat biased - 1075⟩

/-- `b ^ e` as a fraction, for an exponent of either sign. -/
def power (b : Nat) (e : Int) : Nat × Nat :=
  if e < 0 then (1, Nat.pow b e.natAbs) else (Nat.pow b e.natAbs, 1)

/-- The value as a fraction. -/
def Scaled.fraction (x : Scaled) : Nat × Nat :=
  let (n, d) := power 2 x.exponent
  (x.mantissa * n, d)

/-- The least `e` from `start` on, at most `steps` later, with the value below `10 ^ e`. -/
def magnitudeFrom (num den : Nat) : Nat → Int → Int
  | 0, e => e
  | steps + 1, e =>
    let (n, d) := power 10 e
    if num * d < den * n then e else magnitudeFrom num den steps (e + 1)

/-- The number of digits before the point, negative for zeros after it. -/
def magnitude (num den : Nat) : Int :=
  let bits : Int := (num.log2 : Int) - (den.log2 : Int)
  magnitudeFrom num den 4 (bits * 30103 / 100000 - 1)

/-- A decimal `digits * 10 ^ exponent`. -/
structure Decimal where
  digits : Nat
  exponent : Int
  deriving DecidableEq, Repr

def Decimal.numeral (d : Decimal) : Numeral :=
  ⟨false, d.digits, d.exponent⟩

/-- Whether a decimal reads back to a double. -/
def Decimal.readsAs (d : Decimal) (x : Float) : Bool :=
  d.numeral.toFloat.toBits == x.toBits

/-- The two decimals of a grid around a fraction, the nearer one first, the upper one on a half. -/
def neighbours (num den : Nat) (exponent : Int) : List Decimal :=
  let (n, d) := power 10 exponent
  let low := num * d / (den * n)
  let rest := num * d % (den * n)
  if 2 * rest < den * n then [⟨low, exponent⟩, ⟨low + 1, exponent⟩]
  else [⟨low + 1, exponent⟩, ⟨low, exponent⟩]

/-- The first decimal that reads back, on grids of more and more digits. -/
def search (x : Float) (num den : Nat) (top : Int) : List Nat → Option Decimal
  | [] => none
  | count :: more =>
    match (neighbours num den (top - count)).find? (·.readsAs x) with
    | some d => some d
    | none => search x num den top more

/-- Every finite double has at most this many significant digits. -/
def maxDigits : Nat := 17

/-- The shortest decimal of a positive finite double. Seventeen digits always suffice; the grid of
the smallest double closes the search. -/
def ofPositive (x : Float) : Decimal :=
  let (num, den) := (Scaled.ofFloat x).fraction
  let top := magnitude num den
  match search x num den top ((List.range maxDigits).map (· + 1)) with
  | some d => d
  | none =>
    let (n, d) := power 10 (-1074)
    ⟨num * d / (den * n), -1074⟩

/-- Drops the zeros at the end of a whole number, up to a bound on their number. -/
def dropZeros : Nat → Decimal → Decimal
  | 0, d => d
  | k + 1, d =>
    if d.digits ≠ 0 ∧ d.digits % 10 = 0 then dropZeros k ⟨d.digits / 10, d.exponent + 1⟩ else d

/-- The positional text of a decimal: no exponent, and a point only before a fraction. -/
def Decimal.positional (d : Decimal) : List Char :=
  let digits := Nat.toDigits 10 d.digits
  if 0 ≤ d.exponent then digits ++ List.replicate d.exponent.toNat '0'
  else
    let places := d.exponent.natAbs
    if digits.length ≤ places then
      '0' :: '.' :: (List.replicate (places - digits.length) '0' ++ digits)
    else
      digits.take (digits.length - places) ++ '.' :: digits.drop (digits.length - places)

/-- The text of a positive finite double. -/
def positiveText (x : Float) : List Char :=
  (dropZeros maxDigits (ofPositive x)).positional

end LiveTemplate.Shortest

namespace LiveTemplate

def isNegative (x : Float) : Bool :=
  Shortest.signWeight ≤ x.toBits.toNat

/-- The text of a number in a template: zero has no sign, and the non-finite numbers are words. -/
def numberText (x : Float) : String :=
  if x.isNaN then "NaN"
  else if x.isInf then if x > 0 then "Infinity" else "-Infinity"
  else if x == 0 then "0"
  else if isNegative x then String.ofList ('-' :: Shortest.positiveText (-x))
  else String.ofList (Shortest.positiveText x)

/-- The text of a number that also tells the two zeros apart. -/
def signedNumberText (x : Float) : String :=
  if x == 0 && isNegative x then "-0" else numberText x

end LiveTemplate
