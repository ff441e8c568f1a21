import LiveTemplate.Expr
import LiveTemplate.Number.Numeral
import LiveTemplate.Token.Lexer

/-!
# Parsing expressions

Loosest first: the conditional, which groups from the right; the tiers of the binary operators,
which group from the left; the prefix operators; and the primaries, which are literals, paths,
groups, arrays and objects.

A level of nesting is the set of parsers that an expression at that depth may use, built from the
level below. Groups, conditionals, prefix operators, array and object literals and each operator of
a chain go one level down; at the bottom level all these are refused, which bounds the height of the
tree.
-/
namespace LiveTemplate.Expr

/-- Why and where parsing stops; a level too deep may be met at the end of the tokens. -/
inductive Failure where
  | unexpected (wanted : Expectation) (found : Lexeme)
  | ended (wanted : Expectation)
  | tooDeep (place : Option Lexeme)

/-- A parser takes tokens from the front and leaves the rest. -/
abbrev Parser (α : Type) := List Lexeme → Except Failure (α × List Lexeme)

/-- Takes one token of a kind. -/
def expect (token : Token) (wanted : Expectation) : Parser Lexeme
  | [] => .error (.ended wanted)
  | t :: rest => if t.token = token then .ok (t, rest) else .error (.unexpected wanted t)

/-- Resolves the escapes inside a quoted text: a few letters stand for controls, and any other
character for itself. -/
def unescape : List Char → List Char
  | '\\' :: c :: cs =>
    (if c = 'n' then '\n' else if c = 't' then '\t' else if c = 'r' then '\r'
      else if c = '0' then Char.ofNat 0 else c) :: unescape cs
  | ['\\'] => []
  | c :: cs => c :: unescape cs
  | [] => []

/-- The text that a quoted token stands for. -/
def quotedContent (text : String) : String :=
  String.ofList (unescape (text.toList.drop 1).dropLast)

/-- The number that a number token stands for. -/
def numberContent (text : String) : Float :=
  match Numeral.read text.toList with
  | some n => n.toFloat
  | none => 0 / 0

/-- The segment of a bracket suffix, which must be literal. -/
def segmentOf (t : Lexeme) : Except Failure Segment :=
  match t.token with
  | .number =>
    match readIndex t.text.toList with
    | some i => .ok (.index i)
    | none => .error (.unexpected .wholeIndex t)
  | .doubleQuoted | .singleQuoted => .ok (.key (quotedContent t.text))
  | _ => .error (.unexpected .literalIndex t)

/-- The suffixes of a path. -/
def members (path : Path) : Parser Path
  | t :: rest =>
    match t.token with
    | .dot =>
      match rest with
      | [] => .error (.ended .propertyName)
      | name :: rest =>
        if name.token = .name then members (path ++ [.key name.text]) rest
        else .error (.unexpected .propertyName name)
    | .openBracket =>
      match rest with
      | [] => .error (.ended .index)
      | inner :: rest =>
        match segmentOf inner with
        | .error f => .error f
        | .ok segment =>
          match rest with
          | [] => .error (.ended .closingBracket)
          | close :: rest =>
            if close.token = .closeBracket then members (path ++ [segment]) rest
            else .error (.unexpected .closingBracket close)
    | _ => .ok (path, t :: rest)
  | [] => .ok (path, [])

/-- A literal word or the start of a path. -/
def word (name : String) : Parser Expr := fun rest =>
  if name = "true" then .ok (.literal (.bool true), rest)
  else if name = "false" then .ok (.literal (.bool false), rest)
  else if name = "null" then .ok (.literal .null, rest)
  else if name = "undefined" then .ok (.literal .undefined, rest)
  else if name = "NaN" then .ok (.literal (.number (0 / 0)), rest)
  else if name = "Infinity" then .ok (.literal (.number (1 / 0)), rest)
  else
    (members (if name = "this" then [] else [.key name]) rest).map fun (p, rest) => (.path p, rest)

/-- The items of an array after its opening bracket, with an optional comma at the end. The bound is
one more than the number of tokens, so it is not met. -/
def items (item : Parser Expr) : Nat → Parser (List Expr)
  | 0, _ => .error (.ended .value)
  | bound + 1, ts =>
    match expect .closeBracket .itemEnd ts with
    | .ok (_, rest) => .ok ([], rest)
    | .error _ =>
      match item ts with
      | .error f => .error f
      | .ok (e, rest) =>
        match expect .comma .itemEnd rest with
        | .ok (_, rest) => (items item bound rest).map fun (es, rest) => (e :: es, rest)
        | .error _ => (expect .closeBracket .itemEnd rest).map fun (_, rest) => ([e], rest)

/-- The key of an object's field. -/
def keyOf (t : Lexeme) : Except Failure String :=
  match t.token with
  | .name | .number => .ok t.text
  | .doubleQuoted | .singleQuoted => .ok (quotedContent t.text)
  | _ => .error (.unexpected .propertyName t)

/-- A key, a colon and the value of a field. -/
def field (item : Parser Expr) : Parser (String × Expr)
  | [] => .error (.ended .propertyName)
  | t :: rest =>
    match keyOf t with
    | .error f => .error f
    | .ok key =>
      match expect .colon .colon rest with
      | .error f => .error f
      | .ok (_, rest) => (item rest).map fun (e, rest) => ((key, e), rest)

/-- The fields of an object after its opening brace, bounded as the items of an array. -/
def fields (item : Parser Expr) : Nat → Parser (List (String × Expr))
  | 0, _ => .error (.ended .propertyName)
  | bound + 1, ts =>
    match expect .closeBrace .fieldEnd ts with
    | .ok (_, rest) => .ok ([], rest)
    | .error _ =>
      match field item ts with
      | .error f => .error f
      | .ok (e, rest) =>
        match expect .comma .fieldEnd rest with
        | .ok (_, rest) => (fields item bound rest).map fun (es, rest) => (e :: es, rest)
        | .error _ => (expect .closeBrace .fieldEnd rest).map fun (_, rest) => ([e], rest)

/-- The parsers of one level of nesting. -/
structure Level where
  /-- A whole expression. -/
  conditional : Parser Expr
  /-- An operand with its prefix operators. -/
  unary : Parser Expr
  /-- A chain of operators of at least a tier. -/
  binary : Nat → Parser Expr
  /-- The rest of such a chain after its left operand. -/
  chain : Nat → Expr → Parser Expr

namespace Level

def conditionalOver : Option Level → Parser Expr
  | none, ts => .error (.tooDeep ts.head?)
  | some below, ts =>
    match below.binary 1 ts with
    | .error f => .error f
    | .ok (condition, []) => .ok (condition, [])
    | .ok (condition, t :: rest) =>
      if t.token = .question then
        match below.conditional rest with
        | .error f => .error f
        | .ok (whenTrue, rest) =>
          match expect .colon .colon rest with
          | .error f => .error f
          | .ok (_, rest) =>
            (below.conditional rest).map fun (whenFalse, rest) =>
              (.conditional condition whenTrue whenFalse, rest)
      else .ok (condition, t :: rest)

def primaryOver (below : Option Level) : Parser Expr
  | [] => .error (.ended .value)
  | t :: rest =>
    match t.token with
    | .number => .ok (.literal (.number (numberContent t.text)), rest)
    | .doubleQuoted | .singleQuoted => .ok (.literal (.text (quotedContent t.text)), rest)
    | .name => word t.text rest
    | .openParenthesis =>
      match conditionalOver below rest with
      | .error f => .error f
      | .ok (e, rest) =>
        (expect .closeParenthesis .closingParenthesis rest).map fun (_, rest) => (e, rest)
    | .openBracket =>
      match below with
      | none => .error (.tooDeep rest.head?)
      | some level =>
        (items level.conditional (rest.length + 1) rest).map fun (es, rest) => (.array es, rest)
    | .openBrace =>
      match below with
      | none => .error (.tooDeep rest.head?)
      | some level =>
        (fields level.conditional (rest.length + 1) rest).map fun (es, rest) => (.object es, rest)
    | _ => .error (.unexpected .value t)

/-- The prefix operator that a token writes. -/
def prefixOf : Token → Option UnaryOperator
  | .operator .subtract => some .negate
  | .operator .add => some .plus
  | .bang => some .not
  | _ => none

def unaryOver (below : Option Level) (ts : List Lexeme) : Except Failure (Expr × List Lexeme) :=
  match ts with
  | [] => primaryOver below ts
  | t :: rest =>
    match prefixOf t.token with
    | none => primaryOver below ts
    | some op =>
      match below with
      | none => .error (.tooDeep rest.head?)
      | some level => (level.unary rest).map fun (e, rest) => (.unary op e, rest)

def chainOver (below : Option Level) (tier : Nat) (left : Expr) : Parser Expr
  | [] => .ok (left, [])
  | t :: rest =>
    match t.token with
    | .operator op =>
      if op.tier < tier then .ok (left, t :: rest)
      else
        match below with
        | none => .error (.tooDeep (some t))
        | some level =>
          match level.binary (op.tier + 1) rest with
          | .error f => .error f
          | .ok (right, rest) => level.chain tier (.binary op left right) rest
    | _ => .ok (left, t :: rest)

def binaryOver (below : Option Level) (tier : Nat) (ts : List Lexeme) :
    Except Failure (Expr × List Lexeme) :=
  match unaryOver below ts with
  | .error f => .error f
  | .ok (left, rest) => chainOver below tier left rest

/-- The level above another, or the bottom level. -/
def above (below : Option Level) : Level where
  conditional := conditionalOver below
  unary := unaryOver below
  binary := binaryOver below
  chain := chainOver below

/-- The level with room for so many levels below it. -/
def withRoom : Nat → Level
  | 0 => above none
  | room + 1 => above (some (withRoom room))

end Level

/-- The height of the highest tree that is parsed. -/
def maxHeight : Nat := 256

/-- The error of a failure in a source, whose last token stands in for the end of the tokens when
the nesting is too deep there. -/
def Failure.error (source : String) (last : Option Lexeme) : Failure → TemplateError
  | unexpected wanted found => ⟨.unexpected wanted found.text, found.text, found.offset⟩
  | ended wanted => ⟨.ended wanted, source, 0⟩
  | tooDeep place =>
    match place.or last with
    | some t => ⟨.tooDeep, t.text, t.offset⟩
    | none => ⟨.tooDeep, source, 0⟩

/-- Parses a whole list of tokens. -/
def ofLexemes (ts : List Lexeme) : Except Failure Expr :=
  match (Level.withRoom maxHeight).conditional ts with
  | .error f => .error f
  | .ok (e, []) => .ok e
  | .ok (_, t :: _) => .error (.unexpected .endOfExpression t)

/-- Parses the source of an expression. -/
def parse (source : String) : Except TemplateError Expr :=
  match Token.tokenize source with
  | .error e => .error e
  | .ok ts =>
    if ts.isEmpty then .error ⟨.emptyExpression, source, 0⟩
    else (ofLexemes ts).mapError (Failure.error source ts.getLast?)

end LiveTemplate.Expr
