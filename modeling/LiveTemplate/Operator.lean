/-!
# Operators

The operators of expressions, their symbols and how tightly the binary ones bind.
-/
namespace LiveTemplate

inductive BinaryOperator where
  | or
  | and
  | equal
  | notEqual
  | identical
  | notIdentical
  | less
  | greater
  | lessEqual
  | greaterEqual
  | add
  | subtract
  | multiply
  | divide
  | remainder
  | power
  deriving DecidableEq, Repr

namespace BinaryOperator

def all : List BinaryOperator :=
  [.or, .and, .equal, .notEqual, .identical, .notIdentical, .less, .greater, .lessEqual,
    .greaterEqual, .add, .subtract, .multiply, .divide, .remainder, .power]

theorem mem_all (op : BinaryOperator) : op ∈ all := by
  cases op <;> decide

def symbol : BinaryOperator → String
  | or => "||"
  | and => "&&"
  | equal => "=="
  | notEqual => "!="
  | identical => "==="
  | notIdentical => "!=="
  | less => "<"
  | greater => ">"
  | lessEqual => "<="
  | greaterEqual => ">="
  | add => "+"
  | subtract => "-"
  | multiply => "*"
  | divide => "/"
  | remainder => "%"
  | power => "**"

/-- The tier of an operator; a higher tier binds tighter. Within a tier operators group from the
left, powers included. -/
def tier : BinaryOperator → Nat
  | or => 1
  | and => 2
  | equal | notEqual | identical | notIdentical | less | greater | lessEqual | greaterEqual => 3
  | add | subtract => 4
  | multiply | divide | remainder => 5
  | power => 6

def ofSymbol? (text : String) : Option BinaryOperator :=
  all.find? (·.symbol == text)

end BinaryOperator

inductive UnaryOperator where
  | negate
  | plus
  | not
  deriving DecidableEq, Repr

namespace UnaryOperator

def all : List UnaryOperator := [.negate, .plus, .not]

def symbol : UnaryOperator → String
  | negate => "-"
  | plus => "+"
  | not => "!"

def ofSymbol? (text : String) : Option UnaryOperator :=
  all.find? (·.symbol == text)

end UnaryOperator

end LiveTemplate
