import LiveTemplate.Expr.Parser

/-!
# The grammar of expressions

Which token lists are expressions, and of which trees (`Expr.Derives`). The grammar is stratified:
the conditional is the loosest, then the tiers of the binary operators, each of which groups from the
left, then the prefix operators, and the primaries are the tightest.
-/
namespace LiveTemplate.Expr

/-- The names that are literals. -/
def keywords : List (String × Value) :=
  [("true", .bool true), ("false", .bool false), ("null", .null), ("undefined", .undefined),
    ("NaN", .number (0 / 0)), ("Infinity", .number (1 / 0))]

def IsQuoted (t : Lexeme) : Prop := t.token = .doubleQuoted ∨ t.token = .singleQuoted

/-- What a path begins with; the context itself has a name. -/
def rootOf (name : String) : Path := if name = "this" then [] else [.key name]

/-- The suffixes of a path, and the segments that they stand for. -/
inductive Suffixes : List Lexeme → Path → Prop where
  | nil : Suffixes [] []
  | member {dot name : Lexeme} {ts : List Lexeme} {path : Path} (isDot : dot.token = .dot)
      (isName : name.token = .name) (rest : Suffixes ts path) :
      Suffixes (dot :: name :: ts) (.key name.text :: path)
  | index {opening digits closing : Lexeme} {ts : List Lexeme} {path : Path} {i : Nat}
      (opens : opening.token = .openBracket) (isNumber : digits.token = .number)
      (whole : readIndex digits.text.toList = some i) (closes : closing.token = .closeBracket)
      (rest : Suffixes ts path) :
      Suffixes (opening :: digits :: closing :: ts) (.index i :: path)
  | key {opening quoted closing : Lexeme} {ts : List Lexeme} {path : Path}
      (opens : opening.token = .openBracket) (isQuoted : IsQuoted quoted)
      (closes : closing.token = .closeBracket) (rest : Suffixes ts path) :
      Suffixes (opening :: quoted :: closing :: ts) (.key (quotedContent quoted.text) :: path)

/-- The key that a token before a colon stands for. -/
inductive FieldKey : Lexeme → String → Prop where
  | plain {t : Lexeme} (isPlain : t.token = .name ∨ t.token = .number) : FieldKey t t.text
  | quoted {t : Lexeme} (isQuoted : IsQuoted t) : FieldKey t (quotedContent t.text)

inductive Phrase where
  | conditional
  /-- A chain of operators of at least a tier. -/
  | binary (tier : Nat)
  | unary
  | primary
  /-- What stands between the brackets of an array. -/
  | items
  /-- What stands between the braces of an object. -/
  | fields

/-- The token list is a phrase of the kind, and this is its tree. -/
inductive Derives : Phrase → List Lexeme → Expr → Prop where
  | operation {ts : List Lexeme} {e : Expr} (operands : Derives (.binary 1) ts e) :
      Derives .conditional ts e
  | conditional {cs ts fs : List Lexeme} {question colon : Lexeme} {c t f : Expr}
      (condition : Derives (.binary 1) cs c) (asks : question.token = .question)
      (whenTrue : Derives .conditional ts t) (separates : colon.token = .colon)
      (whenFalse : Derives .conditional fs f) :
      Derives .conditional (cs ++ question :: (ts ++ colon :: fs)) (.conditional c t f)
  | binary {ls rs : List Lexeme} {symbol : Lexeme} {op : BinaryOperator} {l r : Expr}
      (left : Derives (.binary op.tier) ls l) (isOperator : symbol.token = .operator op)
      (right : Derives (.binary (op.tier + 1)) rs r) :
      Derives (.binary op.tier) (ls ++ symbol :: rs) (.binary op l r)
  | tighter {tier : Nat} {ts : List Lexeme} {e : Expr} (operand : Derives (.binary (tier + 1)) ts e) :
      Derives (.binary tier) ts e
  | operand {ts : List Lexeme} {e : Expr} (operand : Derives .unary ts e) : Derives (.binary 7) ts e
  | unary {symbol : Lexeme} {ts : List Lexeme} {op : UnaryOperator} {e : Expr}
      (isOperator : Level.prefixOf symbol.token = some op) (operand : Derives .unary ts e) :
      Derives .unary (symbol :: ts) (.unary op e)
  | primary {ts : List Lexeme} {e : Expr} (primary : Derives .primary ts e) : Derives .unary ts e
  | number {t : Lexeme} (isNumber : t.token = .number) :
      Derives .primary [t] (.literal (.number (numberContent t.text)))
  | text {t : Lexeme} (isQuoted : IsQuoted t) :
      Derives .primary [t] (.literal (.text (quotedContent t.text)))
  | keyword {t : Lexeme} {v : Value} (isName : t.token = .name)
      (listed : keywords.lookup t.text = some v) : Derives .primary [t] (.literal v)
  | path {t : Lexeme} {ts : List Lexeme} {path : Path} (isName : t.token = .name)
      (free : keywords.lookup t.text = none) (suffixes : Suffixes ts path) :
      Derives .primary (t :: ts) (.path (rootOf t.text ++ path))
  | group {opening closing : Lexeme} {ts : List Lexeme} {e : Expr}
      (opens : opening.token = .openParenthesis) (inner : Derives .conditional ts e)
      (closes : closing.token = .closeParenthesis) : Derives .primary (opening :: (ts ++ [closing])) e
  | array {opening closing : Lexeme} {ts : List Lexeme} {es : List Expr}
      (opens : opening.token = .openBracket) (inner : Derives .items ts (.array es))
      (closes : closing.token = .closeBracket) :
      Derives .primary (opening :: (ts ++ [closing])) (.array es)
  | object {opening closing : Lexeme} {ts : List Lexeme} {es : List (String × Expr)}
      (opens : opening.token = .openBrace) (inner : Derives .fields ts (.object es))
      (closes : closing.token = .closeBrace) :
      Derives .primary (opening :: (ts ++ [closing])) (.object es)
  | noItem : Derives .items [] (.array [])
  | item {ts : List Lexeme} {e : Expr} (item : Derives .conditional ts e) :
      Derives .items ts (.array [e])
  | nextItem {ts us : List Lexeme} {comma : Lexeme} {e : Expr} {es : List Expr}
      (item : Derives .conditional ts e) (separates : comma.token = .comma)
      (rest : Derives .items us (.array es)) :
      Derives .items (ts ++ comma :: us) (.array (e :: es))
  | noField : Derives .fields [] (.object [])
  | field {t colon : Lexeme} {ts : List Lexeme} {key : String} {e : Expr} (isKey : FieldKey t key)
      (assigns : colon.token = .colon) (value : Derives .conditional ts e) :
      Derives .fields (t :: colon :: ts) (.object [(key, e)])
  | nextField {t colon comma : Lexeme} {ts us : List Lexeme} {key : String} {e : Expr}
      {es : List (String × Expr)} (isKey : FieldKey t key) (assigns : colon.token = .colon)
      (value : Derives .conditional ts e) (separates : comma.token = .comma)
      (rest : Derives .fields us (.object es)) :
      Derives .fields (t :: colon :: (ts ++ comma :: us)) (.object ((key, e) :: es))

/-! ## Small facts -/

theorem tier_le (op : BinaryOperator) : op.tier ≤ 6 := by
  cases op <;> decide

/-- What is a chain of a tier is one of every looser tier. -/
theorem Derives.looser {tier m : Nat} (h : tier ≤ m) {ts : List Lexeme} {e : Expr}
    (derives : Derives (.binary m) ts e) : Derives (.binary tier) ts e := by
  induction h with
  | refl => exact derives
  | step _ ih => exact ih (.tighter derives)

/-- The tokens that an expression can begin with. -/
def Begins (t : Lexeme) : Prop :=
  t.token = .number ∨ IsQuoted t ∨ t.token = .name ∨ (Level.prefixOf t.token).isSome ∨
    t.token = .openParenthesis ∨ t.token = .openBracket ∨ t.token = .openBrace

/-- An expression is not empty. -/
theorem Derives.begins {phrase : Phrase} {ts : List Lexeme} {e : Expr} (h : Derives phrase ts e)
    (expr : phrase ≠ .items ∧ phrase ≠ .fields) : ∃ t rest, ts = t :: rest ∧ Begins t := by
  induction h with
  | operation _ ih => exact ih ⟨nofun, nofun⟩
  | conditional _ _ _ _ _ ih | binary _ _ _ ih =>
    obtain ⟨t, rest, rfl, begins⟩ := ih ⟨nofun, nofun⟩
    exact ⟨t, _, rfl, begins⟩
  | tighter _ ih | operand _ ih | primary _ ih => exact ih ⟨nofun, nofun⟩
  | unary isOperator => exact ⟨_, _, rfl, by simp [Begins, isOperator]⟩
  | number isNumber => exact ⟨_, _, rfl, .inl isNumber⟩
  | text isQuoted => exact ⟨_, _, rfl, .inr (.inl isQuoted)⟩
  | keyword isName | path isName => exact ⟨_, _, rfl, .inr (.inr (.inl isName))⟩
  | group opens | array opens | object opens => exact ⟨_, _, rfl, by simp [Begins, opens]⟩
  | noItem | item | nextItem => exact absurd rfl expr.1
  | noField | field | nextField => exact absurd rfl expr.2

end LiveTemplate.Expr
