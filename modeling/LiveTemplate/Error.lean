/-!
# Errors

Why a template or a path is malformed, and how reading and writing the reactive graph can fail. A
missing property is no error: it is the undefined value.
-/
namespace LiveTemplate

/-- What the grammar of expressions accepts at a place where it found something else. -/
inductive Expectation where
  | value
  | endOfExpression
  | colon
  | closingParenthesis
  | closingBracket
  | propertyName
  | index
  | wholeIndex
  | literalIndex
  | itemEnd
  | fieldEnd
  deriving DecidableEq, Repr

def Expectation.message : Expectation → String
  | value => "expected a value"
  | endOfExpression => "expected end of expression"
  | colon => "expected `:`"
  | closingParenthesis => "expected `)`"
  | closingBracket => "expected `]`"
  | propertyName => "expected a property name"
  | index => "expected an index"
  | wholeIndex => "index must be a non-negative integer"
  | literalIndex => "computed member access is not supported, expected a literal index"
  | itemEnd => "expected `,` or `]`"
  | fieldEnd => "expected `,` or `\x7d`"

/-- Why a text is malformed. -/
inductive Reason where
  | unterminatedRegion
  | unrecognizedToken
  | emptyExpression
  | unexpected (wanted : Expectation) (found : String)
  | ended (wanted : Expectation)
  | tooDeep
  | emptyPath
  | identifierMissing
  | separatorMissing
  | unterminatedKey
  | indexOutOfRange
  | indexOrKeyMissing
  | closingBracketMissing
  deriving DecidableEq, Repr

def Reason.message : Reason → String
  | unterminatedRegion => "unterminated `$\x7b`"
  | unrecognizedToken => "unrecognized token"
  | emptyExpression => "empty expression"
  | unexpected wanted found => wanted.message ++ ", found `" ++ found ++ "`"
  | ended wanted => "unexpected end of expression, " ++ wanted.message
  | tooDeep => "expression nested too deeply"
  | emptyPath => "empty property path"
  | identifierMissing => "expected identifier"
  | separatorMissing => "expected `.` or `[`"
  | unterminatedKey => "unterminated string in brackets"
  | indexOutOfRange => "index out of range"
  | indexOrKeyMissing => "expected index or quoted key"
  | closingBracketMissing => "expected `]`"

/-- A malformed region or path: the reason, the offending piece of the text, and the byte offset of
the piece. -/
structure TemplateError where
  reason : Reason
  fragment : String
  offset : Nat
  deriving DecidableEq, Repr

/-- The error seen from a text in which the parsed one starts at `base`. -/
def TemplateError.shift (base : Nat) (e : TemplateError) : TemplateError :=
  { e with offset := e.offset + base }

def TemplateError.message (e : TemplateError) : String :=
  "template syntax error at byte " ++ toString e.offset ++ " in `" ++ e.fragment ++ "`: " ++
    e.reason.message

/-- What a dead handle was a handle of. -/
inductive Subject where
  | signal
  | computed
  | scope
  deriving DecidableEq, Repr

def Subject.name : Subject → String
  | signal => "signal"
  | computed => "computed"
  | scope => "scope"

/-- A failure of the reactive graph. -/
inductive ReactiveError where
  /-- The node or scope of a handle was disposed, or is of another kind. -/
  | disposed (subject : Subject)
  /-- A computed was read in the middle of its own run. -/
  | cyclic
  /-- Effects kept each other running beyond the limit. -/
  | unsettled (runs : Nat)
  deriving DecidableEq, Repr

def ReactiveError.message : ReactiveError → String
  | disposed subject => "access to disposed " ++ subject.name
  | cyclic => "cyclic dependency detected while computing a derived value"
  | unsettled runs => "propagation did not settle after " ++ toString runs ++ " effect runs"

/-- Anything that a program over the graph can fail with. -/
inductive Fault where
  | template (error : TemplateError)
  | reactive (error : ReactiveError)
  /-- A session knows no thing of the right kind by this name. -/
  | unknownName (name : String)
  deriving DecidableEq, Repr

def Fault.message : Fault → String
  | template e => e.message
  | reactive e => e.message
  | unknownName name => "nothing suitable is called `" ++ name ++ "`"

end LiveTemplate
