import LiveTemplate.Operator

/-!
# Tokens

The words of the expression language. Keywords are names; the parser tells them apart.
-/
namespace LiveTemplate

inductive Token where
  | number
  | doubleQuoted
  | singleQuoted
  | name
  | operator (op : BinaryOperator)
  | bang
  | question
  | colon
  | dot
  | comma
  | openParenthesis
  | closeParenthesis
  | openBracket
  | closeBracket
  | openBrace
  | closeBrace
  deriving DecidableEq, Repr

/-- A token with its text and the byte offset of the text. -/
structure Lexeme where
  token : Token
  text : String
  offset : Nat
  deriving DecidableEq, Repr

/-- The fixed spellings. -/
def Token.symbols : List (String × Token) :=
  BinaryOperator.all.map (fun op => (op.symbol, .operator op)) ++
    [("!", .bang), ("?", .question), (":", .colon), (".", .dot), (",", .comma),
      ("(", .openParenthesis), (")", .closeParenthesis), ("[", .openBracket), ("]", .closeBracket),
      ("\x7b", .openBrace), ("\x7d", .closeBrace)]

/-- No fixed spelling is longer than this. -/
def Token.maxSymbolLength : Nat := 3

/-- The token of a fixed spelling. -/
def Token.ofSymbol? (text : List Char) : Option Token :=
  (symbols.find? fun entry => entry.1.toList == text).map (·.2)

end LiveTemplate
