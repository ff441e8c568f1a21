/-!
# Decimal numerals

A numeral is a sign, a whole number of digits and a power of ten. This module reads numerals from
text and rounds them to the nearest double.
-/
namespace LiveTemplate

/-- The decimal number `± digits * 10 ^ exponent`. -/
structure Numeral where
  negative : Bool
  digits : Nat
  exponent : Int
  deriving DecidableEq, Repr

namespace Numeral

/-- The number that a list of decimal digits writes. -/
def ofDigits (cs : List Char) : Nat :=
  cs.foldl (fun n c => 10 * n + (c.toNat - '0'.toNat)) 0

/-- Splits off the longest run of digits. -/
def spanDigits (cs : List Char) : List Char × List Char :=
  (cs.takeWhile Char.isDigit, cs.dropWhile Char.isDigit)

/-- An optional sign, `true` for minus, and the rest. -/
def splitSign : List Char → Bool × List Char
  | '-' :: cs => (true, cs)
  | '+' :: cs => (false, cs)
  | cs => (false, cs)

/-- The exponent part, which must reach to the end: nothing, or a mark, an optional sign and digits
after it. -/
def readExponent : List Char → Option Int
  | [] => some 0
  | c :: cs =>
    if c == 'e' || c == 'E' then
      let (negative, rest) := splitSign cs
      let (digits, rest) := spanDigits rest
      if digits.isEmpty || !rest.isEmpty then none
      else some (if negative then -(ofDigits digits : Int) else ofDigits digits)
    else none

/-- The fraction digits after a point, if there is one. -/
def splitFraction : List Char → List Char × List Char
  | '.' :: cs => spanDigits cs
  | cs => ([], cs)

/-- Reads a numeral: an optional sign, digits with at most one point among or beside them, and an
optional exponent. -/
def read (cs : List Char) : Option Numeral :=
  let (negative, cs) := splitSign cs
  let (whole, cs) := spanDigits cs
  let (fraction, cs) := splitFraction cs
  if whole.isEmpty && fraction.isEmpty then none
  else (readExponent cs).map fun e =>
    ⟨negative, ofDigits (whole ++ fraction), e - fraction.length⟩

/-- The nearest double, ties to even; beyond the range an infinity or zero. -/
def toFloat (n : Numeral) : Float :=
  let x := Float.ofScientific n.digits (n.exponent < 0) n.exponent.natAbs
  if n.negative then -x else x

/-- The nearest single, widened to a double. -/
def toSingle (n : Numeral) : Float :=
  let x := (Float32.ofScientific n.digits (n.exponent < 0) n.exponent.natAbs).toFloat
  if n.negative then -x else x

/-- Reads an integer: an optional sign and digits. -/
def readInteger (cs : List Char) : Option Int :=
  let (negative, digits) := splitSign cs
  if digits.isEmpty || !digits.all Char.isDigit then none
  else some (if negative then -(ofDigits digits : Int) else ofDigits digits)

/-- The numeral of an integer. -/
def ofInt (n : Int) : Numeral :=
  ⟨n < 0, n.natAbs, 0⟩

end Numeral

/-- The largest index of a 64-bit machine, which bounds the indices of paths. -/
def maxIndex : Nat := 0xFFFFFFFFFFFFFFFF

/-- Reads an index: an optional plus sign and digits, within the bound. -/
def readIndex (cs : List Char) : Option Nat :=
  let digits := match cs with
    | '+' :: rest => rest
    | _ => cs
  if digits.isEmpty || !digits.all Char.isDigit then none
  else
    let n := Numeral.ofDigits digits
    if n ≤ maxIndex then some n else none

end LiveTemplate
