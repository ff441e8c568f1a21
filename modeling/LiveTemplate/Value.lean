import LiveTemplate.Arena
import LiveTemplate.Table

/-!
# Values

What contexts, cells and expressions hold. Arrays and objects carry an identity, which tells apart
two aggregates of equal content; a cell is the handle of a signal or of a computed in the reactive
graph and stands in a value like any other.
-/
namespace LiveTemplate

abbrev NodeId := Key .node

abbrev ScopeId := Key .scope

/-- The two kinds of readable node. -/
inductive CellKind where
  | signal
  | computed
  deriving DecidableEq, Repr

/-- A handle on a readable node. -/
structure Cell where
  kind : CellKind
  node : NodeId
  deriving DecidableEq, Repr

inductive Value where
  | undefined
  | null
  | bool (value : Bool)
  | number (value : Float)
  | text (value : String)
  | array (identity : Nat) (items : List Value)
  | object (identity : Nat) (fields : List (String × Value))
  | cell (cell : Cell)

/-- The fields of an object, in the order of their first insertion. -/
abbrev Fields := Table Value

namespace Value

instance : Inhabited Value := ⟨undefined⟩

def signal (node : NodeId) : Value := cell ⟨.signal, node⟩

def computed (node : NodeId) : Value := cell ⟨.computed, node⟩

def isNullish : Value → Bool
  | undefined | null => true
  | _ => false

def isReactive : Value → Bool
  | cell _ => true
  | _ => false

def typeName : Value → String
  | undefined => "undefined"
  | null => "null"
  | bool _ => "boolean"
  | number _ => "number"
  | text _ => "string"
  | array _ _ => "array"
  | object _ _ => "object"
  | cell ⟨.signal, _⟩ => "signal"
  | cell ⟨.computed, _⟩ => "computed"

def asNumber : Value → Option Float
  | number n => some n
  | _ => none

def asText : Value → Option String
  | text s => some s
  | _ => none

def asBool : Value → Option Bool
  | bool b => some b
  | _ => none

def asArray : Value → Option (List Value)
  | array _ items => some items
  | _ => none

def asObject : Value → Option Fields
  | object _ fields => some fields
  | _ => none

mutual

/-- Equality of content: identities and the order of fields do not count, and a number that is not
a number differs from itself. -/
def equals : Value → Value → Bool
  | undefined, undefined => true
  | null, null => true
  | bool a, bool b => a == b
  | number a, number b => a == b
  | text a, text b => a == b
  | array _ xs, array _ ys => equalItems xs ys
  | object _ xs, object _ ys => xs.length == ys.length && fieldsWithin xs ys
  | cell a, cell b => a == b
  | _, _ => false

def equalItems : List Value → List Value → Bool
  | [], [] => true
  | x :: xs, y :: ys => equals x y && equalItems xs ys
  | _, _ => false

/-- Whether every field of the first list has an equal one of its key in the second. -/
def fieldsWithin : List (String × Value) → List (String × Value) → Bool
  | [], _ => true
  | (key, x) :: xs, ys =>
    (match ys.lookup key with
      | some y => equals x y
      | none => false) && fieldsWithin xs ys

end

/-- Equality of identity: aggregates are the same only as the same instance. -/
def same : Value → Value → Bool
  | undefined, undefined => true
  | null, null => true
  | bool a, bool b => a == b
  | number a, number b => a == b
  | text a, text b => a == b
  | array i _, array j _ => i == j
  | object i _, object j _ => i == j
  | cell a, cell b => a == b
  | _, _ => false

end Value

end LiveTemplate
