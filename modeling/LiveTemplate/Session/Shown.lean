import LiveTemplate.Value

/-!
# Shown values

A value as a session writes it: identities are left out, and a cell shows by the name that the
session knows it under, if any.
-/
namespace LiveTemplate

inductive Shown where
  | undefined
  | null
  | bool (value : Bool)
  | number (value : Float)
  | text (value : String)
  | array (items : List Shown)
  | object (fields : List (String × Shown))
  | signal (name : Option String)
  | computed (name : Option String)

namespace Value

mutual

/-- Shows a value, given the names of cells. -/
def shown (nameOf : Cell → Option String) : Value → Shown
  | undefined => .undefined
  | null => .null
  | bool b => .bool b
  | number n => .number n
  | text s => .text s
  | array _ items => .array (shownItems nameOf items)
  | object _ fields => .object (shownFields nameOf fields)
  | cell ⟨.signal, id⟩ => .signal (nameOf ⟨.signal, id⟩)
  | cell ⟨.computed, id⟩ => .computed (nameOf ⟨.computed, id⟩)

def shownItems (nameOf : Cell → Option String) : List Value → List Shown
  | [] => []
  | v :: rest => shown nameOf v :: shownItems nameOf rest

def shownFields (nameOf : Cell → Option String) :
    List (String × Value) → List (String × Shown)
  | [] => []
  | (key, v) :: rest => (key, shown nameOf v) :: shownFields nameOf rest

end

end Value

end LiveTemplate
