import LiveTemplate.Operator
import LiveTemplate.Number.Arithmetic
import LiveTemplate.Value.Coercion

/-!
# Operations

What the operators do to values that hold no pending reads: coercions first, then arithmetic,
comparison or choice. No operation fails.
-/
namespace LiveTemplate.Value

/-- The sum of two numbers; with any other operand, their texts joined. -/
def add (left right : Value) : Value :=
  match left, right with
  | number a, number b => number (a + b)
  | _, _ => text (left.toText ++ right.toText)

/-- Equality with coercion: nullish values equal each other and nothing else, and two different
kinds of scalar are compared as numbers. -/
def looselyEquals (left right : Value) : Bool :=
  if left.isNullish || right.isNullish then left.isNullish && right.isNullish
  else match left, right with
    | text a, text b => a == b
    | number _, number _ | number _, text _ | number _, bool _
    | text _, number _ | text _, bool _
    | bool _, number _ | bool _, text _ | bool _, bool _ => left.toNumber == right.toNumber
    | _, _ => same left right

/-- Order: two texts by their code points, all else by number. -/
def less (left right : Value) : Bool :=
  match left, right with
  | text a, text b => a < b
  | _, _ => left.toNumber < right.toNumber

/-- The reflexive order. It is not the negation of the converse: no number compares with a value
that is not one. -/
def lessEqual (left right : Value) : Bool :=
  match left, right with
  | text a, text b => !(b < a)
  | _, _ => left.toNumber ≤ right.toNumber

def binary (op : BinaryOperator) (left right : Value) : Value :=
  match op with
  | .add => add left right
  | .subtract => number (left.toNumber - right.toNumber)
  | .multiply => number (left.toNumber * right.toNumber)
  | .divide => number (left.toNumber / right.toNumber)
  | .remainder => number (remainder left.toNumber right.toNumber)
  | .power => number (power left.toNumber right.toNumber)
  | .equal => bool (looselyEquals left right)
  | .notEqual => bool (!looselyEquals left right)
  | .identical => bool (same left right)
  | .notIdentical => bool (!same left right)
  | .less => bool (less left right)
  | .greater => bool (less right left)
  | .lessEqual => bool (lessEqual left right)
  | .greaterEqual => bool (lessEqual right left)
  | .and => if left.isTruthy then right else left
  | .or => if left.isTruthy then left else right

def unary (op : UnaryOperator) (operand : Value) : Value :=
  match op with
  | .negate => number (-operand.toNumber)
  | .plus => number operand.toNumber
  | .not => bool (!operand.isTruthy)

end LiveTemplate.Value
