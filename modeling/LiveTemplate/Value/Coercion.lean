import LiveTemplate.Value
import LiveTemplate.Text.Blank
import LiveTemplate.Number.Shortest

/-!
# Coercions

How any value counts as a truth value, as a number and as text.
-/
namespace LiveTemplate

/-- The number in a text, with blanks around it: nothing is zero, an infinity is a word, and all
else must be a decimal numeral. -/
def numberOfText (s : String) : Float :=
  let cs := Text.trim s.toList
  if cs.isEmpty then 0
  else if cs = "Infinity".toList || cs = "+Infinity".toList then 1 / 0
  else if cs = "-Infinity".toList then -1 / 0
  else match Numeral.read cs with
    | some n => n.toFloat
    | none => 0 / 0

namespace Value

def isTruthy : Value → Bool
  | undefined | null => false
  | bool b => b
  | number n => n != 0 && !n.isNaN
  | text s => !s.isEmpty
  | array _ _ | object _ _ | cell _ => true

mutual

/-- The text of a value in a template: nullish values and cells show nothing, and the items of an
array stand between commas. -/
def toText : Value → String
  | undefined | null => ""
  | bool b => if b then "true" else "false"
  | number n => numberText n
  | text s => s
  | array _ items => joinedText items
  | object _ _ => "[object Object]"
  | cell _ => ""

def joinedText : List Value → String
  | [] => ""
  | [v] => toText v
  | v :: w :: rest => toText v ++ "," ++ joinedText (w :: rest)

end

def toNumber : Value → Float
  | undefined => 0 / 0
  | null => 0
  | bool b => if b then 1 else 0
  | number n => n
  | text s => numberOfText s
  | array i items => numberOfText (toText (array i items))
  | object _ _ | cell _ => 0 / 0

end Value

end LiveTemplate
