import LiveTemplate.Error
import LiveTemplate.Path
import LiveTemplate.Text.Offset
import LiveTemplate.Token

/-!
# Cutting expressions into tokens

Between blanks, each token is the longest piece of the rest that any class of token matches. Text
that no class matches ends the cutting with an error; nothing is dropped silently.
-/
namespace LiveTemplate.Token

/-- The blanks between tokens. -/
def isGap (c : Char) : Bool :=
  c == ' ' || c == '\t' || c == '\n' || c == '\r' || c == '\x0c'

/-- A fraction part: a point and at least one digit, else nothing. -/
def spanFraction (cs : List Char) : List Char × List Char :=
  match cs with
  | '.' :: rest =>
    if (rest.takeWhile Char.isDigit).isEmpty then ([], cs)
    else ('.' :: rest.takeWhile Char.isDigit, rest.dropWhile Char.isDigit)
  | _ => ([], cs)

/-- The sign of an exponent, if there is one. -/
def spanSign : List Char → List Char × List Char
  | '+' :: rest => (['+'], rest)
  | '-' :: rest => (['-'], rest)
  | cs => ([], cs)

/-- An exponent part: a mark, an optional sign and at least one digit, else nothing. -/
def spanExponent (cs : List Char) : List Char × List Char :=
  match cs with
  | c :: rest =>
    if c = 'e' ∨ c = 'E' then
      let (sign, digits) := spanSign rest
      if (digits.takeWhile Char.isDigit).isEmpty then ([], cs)
      else (c :: (sign ++ digits.takeWhile Char.isDigit), digits.dropWhile Char.isDigit)
    else ([], cs)
  | [] => ([], cs)

/-- The longest number at the start of a text. -/
def spanNumber (cs : List Char) : List Char × List Char :=
  let (fraction, rest) := spanFraction (cs.dropWhile Char.isDigit)
  let (exponent, rest) := spanExponent rest
  (cs.takeWhile Char.isDigit ++ fraction ++ exponent, rest)

/-- The inside of a quoted text with its closing quote: whether it is closed, what it takes, and the
rest. A backslash takes the next character with it, but no line break and not the end. -/
def spanQuoted (quote : Char) : List Char → Bool × List Char × List Char
  | [] => (false, [], [])
  | ['\\'] => (false, [], ['\\'])
  | '\\' :: c :: cs =>
    if c = '\n' then (false, [], '\\' :: c :: cs)
    else
      let (closed, taken, rest) := spanQuoted quote cs
      (closed, '\\' :: c :: taken, rest)
  | c :: cs =>
    if c = quote then (true, [c], cs)
    else
      let (closed, taken, rest) := spanQuoted quote cs
      (closed, c :: taken, rest)

/-- The longest fixed spelling of at most `n` characters at the start of a text. -/
def longestSymbol (cs : List Char) : Nat → Option (Token × List Char × List Char)
  | 0 => none
  | n + 1 =>
    match ofSymbol? (cs.take (n + 1)) with
    | some token => some (token, cs.take (n + 1), cs.drop (n + 1))
    | none => longestSymbol cs n

/-- The token at the start of a text with no gap in front, what it takes and the rest; or the piece
that is no token. -/
def first (cs : List Char) : Except (List Char) (Token × List Char × List Char) :=
  match cs with
  | [] => .error []
  | c :: rest =>
    if c.isDigit then .ok (.number, spanNumber cs)
    else if isNameStart c then .ok (.name, cs.takeWhile isNameRest, cs.dropWhile isNameRest)
    else if c = '"' ∨ c = '\'' then
      let (closed, taken, rest) := spanQuoted c rest
      if closed then .ok (if c = '"' then .doubleQuoted else .singleQuoted, c :: taken, rest)
      else .error (c :: taken)
    else
      match longestSymbol cs maxSymbolLength with
      | some result => .ok result
      | none => .error [c]

theorem spanFraction_append (cs : List Char) :
    (spanFraction cs).1 ++ (spanFraction cs).2 = cs := by
  unfold spanFraction
  split
  next rest =>
    split
    next => rfl
    next => simp
  next => rfl

theorem spanSign_append (cs : List Char) : (spanSign cs).1 ++ (spanSign cs).2 = cs := by
  unfold spanSign
  split <;> rfl

theorem spanExponent_append (cs : List Char) :
    (spanExponent cs).1 ++ (spanExponent cs).2 = cs := by
  unfold spanExponent
  split
  next c rest =>
    split
    next =>
      dsimp only
      split
      next => rfl
      next =>
        have h := spanSign_append rest
        simp only [List.cons_append, List.append_assoc, List.takeWhile_append_dropWhile]
        rw [h]
    next => rfl
  next => rfl

theorem spanNumber_append (cs : List Char) : (spanNumber cs).1 ++ (spanNumber cs).2 = cs := by
  simp only [spanNumber, List.append_assoc, spanExponent_append, spanFraction_append,
    List.takeWhile_append_dropWhile]

theorem spanQuoted_append (quote : Char) (cs : List Char) :
    (spanQuoted quote cs).2.1 ++ (spanQuoted quote cs).2.2 = cs := by
  fun_induction spanQuoted quote cs <;> simp_all

theorem longestSymbol_append {cs taken rest : List Char} {n : Nat} {token : Token}
    (h : longestSymbol cs n = some (token, taken, rest)) : taken ++ rest = cs := by
  induction n with
  | zero => simp [longestSymbol] at h
  | succ n ih =>
    simp only [longestSymbol] at h
    split at h
    next =>
      cases h
      exact List.take_append_drop _ _
    next => exact ih h

theorem longestSymbol_ne_nil {c : Char} {cs taken rest : List Char} {n : Nat} {token : Token}
    (h : longestSymbol (c :: cs) n = some (token, taken, rest)) : taken ≠ [] := by
  induction n with
  | zero => simp [longestSymbol] at h
  | succ n ih =>
    simp only [longestSymbol] at h
    split at h
    next =>
      cases h
      simp
    next => exact ih h

/-- The first token and the rest make up the text. -/
theorem first_append {cs taken rest : List Char} {token : Token}
    (h : first cs = .ok (token, taken, rest)) : taken ++ rest = cs := by
  unfold first at h
  split at h
  next => cases h
  next c cs' =>
    split at h
    next =>
      have := spanNumber_append (c :: cs')
      simp_all
    next =>
      split at h
      next =>
        cases h
        exact List.takeWhile_append_dropWhile
      next =>
        split at h
        next =>
          have := spanQuoted_append c cs'
          dsimp only at h
          split at h
          next =>
            cases h
            simp [this]
          next => cases h
        next =>
          split at h
          next result hs =>
            cases h
            exact longestSymbol_append hs
          next => cases h

/-- The first token takes at least one character. -/
theorem first_ne_nil {cs taken rest : List Char} {token : Token}
    (h : first cs = .ok (token, taken, rest)) : taken ≠ [] := by
  unfold first at h
  split at h
  next => cases h
  next c cs' =>
    split at h
    next hd =>
      simp only [spanNumber, Except.ok.injEq, Prod.mk.injEq] at h
      obtain ⟨_, rfl, _⟩ := h
      simp [hd]
    next =>
      split at h
      next hn =>
        cases h
        have : isNameRest c = true := by
          simp only [isNameStart, isNameRest, Char.isAlphanum, Bool.or_eq_true] at hn ⊢
          rcases hn with (hn | hn) | hn <;> simp [hn]
        simp [this]
      next =>
        split at h
        next =>
          dsimp only at h
          split at h
          next =>
            cases h
            simp
          next => cases h
        next =>
          split at h
          next result hs =>
            cases h
            exact longestSymbol_ne_nil hs
          next => cases h

theorem first_length {cs taken rest : List Char} {token : Token}
    (h : first cs = .ok (token, taken, rest)) : rest.length < cs.length := by
  have happ := congrArg List.length (first_append h)
  have hne := List.length_pos_iff.2 (first_ne_nil h)
  simp only [List.length_append] at happ
  omega

/-- Cuts a text that starts at a byte offset. -/
def cut (offset : Nat) (cs : List Char) : Except TemplateError (List Lexeme) :=
  let start := offset + Text.width (cs.takeWhile isGap)
  let rest := cs.dropWhile isGap
  if rest.isEmpty then .ok []
  else
    match h : first rest with
    | .error piece => .error ⟨.unrecognizedToken, String.ofList piece, start⟩
    | .ok (token, taken, rest') =>
      have : rest'.length < cs.length :=
        Nat.lt_of_lt_of_le (first_length h) (List.dropWhile_sublist isGap).length_le
      (cut (start + Text.width taken) rest').map (⟨token, String.ofList taken, start⟩ :: ·)
termination_by cs.length

/-- Cuts an expression into tokens. -/
def tokenize (source : String) : Except TemplateError (List Lexeme) :=
  cut 0 source.toList

end LiveTemplate.Token
