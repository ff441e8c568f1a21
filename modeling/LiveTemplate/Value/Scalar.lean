import LiveTemplate.Number.Numeral
import LiveTemplate.Value

/-!
# Scalars

The values that single pieces of host data become. A number keeps its nearest double: integers
beyond the exact range are rounded, and a single keeps the value that it has as a single.
-/
namespace LiveTemplate

/-- The kinds of host data that are no aggregates. -/
inductive Scalar where
  | absent
  | bool
  | text
  | integer
  | single
  | double
  deriving DecidableEq, Repr

namespace Scalar

/-- The number that a word writes, in any case and with a sign. -/
def ofWord? (text : String) : Option Float :=
  let (negative, word) := Numeral.splitSign text.toLower.toList
  if word = "nan".toList then some (0 / 0)
  else if word = "inf".toList || word = "infinity".toList then
    some (if negative then -1 / 0 else 1 / 0)
  else none

/-- The number that a numeral writes, rounded in some way, or that a word writes. -/
def readNumber (round : Numeral → Float) (text : String) : Option Value :=
  match Numeral.read text.toList with
  | some n => some (.number (round n))
  | none => (ofWord? text).map .number

/-- Reads host data of a kind from its text. -/
def read (kind : Scalar) (text : String) : Option Value :=
  match kind with
  | absent => some .undefined
  | bool => some (.bool (text == "true"))
  | .text => some (.text text)
  | integer => (Numeral.readInteger text.toList).map fun n => .number (Numeral.ofInt n).toFloat
  | single => readNumber Numeral.toSingle text
  | double => readNumber Numeral.toFloat text

end Scalar

end LiveTemplate
