import LiveTemplate.Operator
import LiveTemplate.Path
import LiveTemplate.Text.Quoted
import LiveTemplate.Value.Coercion

/-!
# Expressions

The trees that expressions are parsed into, and their fully parenthesised text.
-/
namespace LiveTemplate

inductive Expr where
  | literal (value : Value)
  | path (path : Path)
  | array (items : List Expr)
  | object (fields : List (String × Expr))
  | unary (op : UnaryOperator) (operand : Expr)
  | binary (op : BinaryOperator) (left right : Expr)
  | conditional (condition whenTrue whenFalse : Expr)

namespace Expr

/-- The text of a literal: texts are quoted, and the two nullish values have words. -/
def literalText : Value → String
  | .text s => Text.quoted s
  | .undefined => "undefined"
  | .null => "null"
  | v => v.toText

mutual

/-- The text that shows how an expression is grouped. -/
def toText : Expr → String
  | literal v => literalText v
  | path p => p.text
  | array items => "[" ++ itemsText items ++ "]"
  | object fields => "\x7b" ++ fieldsText fields ++ "\x7d"
  | unary op operand => "(" ++ op.symbol ++ toText operand ++ ")"
  | binary op left right => "(" ++ toText left ++ " " ++ op.symbol ++ " " ++ toText right ++ ")"
  | conditional condition whenTrue whenFalse =>
    "(" ++ toText condition ++ " ? " ++ toText whenTrue ++ " : " ++ toText whenFalse ++ ")"

def itemsText : List Expr → String
  | [] => ""
  | [e] => toText e
  | e :: f :: rest => toText e ++ ", " ++ itemsText (f :: rest)

def fieldsText : List (String × Expr) → String
  | [] => ""
  | [(key, e)] => key ++ ": " ++ toText e
  | (key, e) :: f :: rest => key ++ ": " ++ toText e ++ ", " ++ fieldsText (f :: rest)

end

mutual

/-- The number of nodes on the longest branch. -/
def height : Expr → Nat
  | literal _ | path _ => 1
  | array items => 1 + itemsHeight items
  | object fields => 1 + fieldsHeight fields
  | unary _ operand => 1 + height operand
  | binary _ left right => 1 + max (height left) (height right)
  | conditional condition whenTrue whenFalse =>
    1 + max (height condition) (max (height whenTrue) (height whenFalse))

def itemsHeight : List Expr → Nat
  | [] => 0
  | e :: rest => max (height e) (itemsHeight rest)

def fieldsHeight : List (String × Expr) → Nat
  | [] => 0
  | (_, e) :: rest => max (height e) (fieldsHeight rest)

end

end Expr

end LiveTemplate
