/-!
# Property paths

A path leads from a context to a value inside it, by names and indices. The empty path is the
context itself.
-/
namespace LiveTemplate

inductive Segment where
  | key (name : String)
  | index (i : Nat)
  deriving DecidableEq, Repr

abbrev Path := List Segment

def Segment.text : Segment → String
  | key name => "." ++ name
  | index i => "[" ++ toString i ++ "]"

/-- The text of a path always starts at the context. -/
def Path.text (path : Path) : String :=
  path.foldl (fun text segment => text ++ segment.text) "this"

/-- Names are made of ASCII letters, digits, `_` and `$`, and start with no digit. -/
def isNameStart (c : Char) : Bool :=
  c.isAlpha || c == '_' || c == '$'

def isNameRest (c : Char) : Bool :=
  c.isAlphanum || c == '_' || c == '$'

end LiveTemplate
