import LiveTemplate.Error
import LiveTemplate.Path
import LiveTemplate.Number.Numeral
import LiveTemplate.Text.Blank
import LiveTemplate.Text.Offset

/-!
# Reading property paths

A path is written as a name and any number of suffixes, `.name`, `[index]` or a quoted key in
brackets, with blanks around the whole. A leading `this` stands for the context and adds no segment.
A failure is reported at the rest of the text that could not be read.
-/
namespace LiveTemplate.Path

/-- A reason, and the rest of the text at which it arose. -/
structure Failure where
  reason : Reason
  rest : List Char

/-- The error of a failure in a source. -/
def Failure.error (source : List Char) (f : Failure) : TemplateError :=
  ⟨f.reason, String.ofList f.rest, Text.width source - Text.width f.rest⟩

/-- A name and the rest after it. -/
def readName (cs : List Char) : Except Failure (List Char × List Char) :=
  match cs with
  | c :: _ =>
    if isNameStart c then .ok (cs.takeWhile isNameRest, cs.dropWhile isNameRest)
    else .error ⟨.identifierMissing, cs⟩
  | [] => .error ⟨.identifierMissing, cs⟩

/-- The characters before the first `quote`, and those after it. -/
def splitAtQuote (quote : Char) : List Char → Option (List Char × List Char)
  | [] => none
  | c :: cs =>
    if c = quote then some ([], cs)
    else (splitAtQuote quote cs).map fun (body, rest) => (c :: body, rest)

/-- The segment inside brackets, and the rest that has to start with the closing bracket. -/
def readSegment (cs : List Char) : Except Failure (Segment × List Char) :=
  match cs with
  | c :: body =>
    if c = '"' ∨ c = '\'' then
      match splitAtQuote c body with
      | some (key, rest) => .ok (.key (String.ofList key), rest)
      | none => .error ⟨.unterminatedKey, cs⟩
    else if c.isDigit then
      match readIndex (cs.takeWhile Char.isDigit) with
      | some i => .ok (.index i, cs.dropWhile Char.isDigit)
      | none => .error ⟨.indexOutOfRange, cs⟩
    else .error ⟨.indexOrKeyMissing, cs⟩
  | [] => .error ⟨.indexOrKeyMissing, cs⟩

/-- A bracket suffix after its opening bracket. -/
def readBracket (cs : List Char) : Except Failure (Segment × List Char) :=
  match readSegment cs with
  | .error f => .error f
  | .ok (segment, ']' :: rest) => .ok (segment, rest)
  | .ok (_, rest) => .error ⟨.closingBracketMissing, rest⟩

/-- One suffix and the rest after it. -/
def readSuffix (cs : List Char) : Except Failure (Segment × List Char) :=
  match cs with
  | '.' :: rest => (readName rest).map fun (name, rest) => (.key (String.ofList name), rest)
  | '[' :: rest => readBracket rest
  | _ => .error ⟨.separatorMissing, cs⟩

theorem length_dropWhile_le (p : Char → Bool) (cs : List Char) :
    (cs.dropWhile p).length ≤ cs.length :=
  (List.dropWhile_sublist p).length_le

theorem length_of_splitAtQuote {quote : Char} {cs key rest : List Char}
    (h : splitAtQuote quote cs = some (key, rest)) : rest.length < cs.length := by
  induction cs generalizing key with
  | nil => simp [splitAtQuote] at h
  | cons c cs ih =>
    simp only [splitAtQuote] at h
    split at h
    next => simp_all
    next =>
      simp only [Option.map_eq_some_iff, Prod.mk.injEq, Prod.exists] at h
      obtain ⟨key', rest', h', _, rfl⟩ := h
      have := ih h'
      simp only [List.length_cons]
      omega

theorem length_of_readName {cs name rest : List Char} (h : readName cs = .ok (name, rest)) :
    rest.length ≤ cs.length := by
  unfold readName at h
  split at h
  next c _ =>
    split at h
    next =>
      cases h
      exact length_dropWhile_le _ _
    next => cases h
  next => cases h

theorem length_of_readSegment {cs rest : List Char} {segment : Segment}
    (h : readSegment cs = .ok (segment, rest)) : rest.length ≤ cs.length := by
  unfold readSegment at h
  split at h
  next c body =>
    split at h
    next =>
      split at h
      next key rest' hq =>
        cases h
        have := length_of_splitAtQuote hq
        simp only [List.length_cons]
        omega
      next => cases h
    next =>
      split at h
      next =>
        split at h
        next =>
          cases h
          exact length_dropWhile_le _ _
        next => cases h
      next => cases h
  next => cases h

theorem length_of_readSuffix {cs rest : List Char} {segment : Segment}
    (h : readSuffix cs = .ok (segment, rest)) : rest.length < cs.length := by
  unfold readSuffix at h
  split at h
  next rest' =>
    cases hn : readName rest' with
    | error f => simp [hn, Except.map] at h
    | ok p =>
      obtain ⟨name, r⟩ := p
      simp only [hn, Except.map, Except.ok.injEq, Prod.mk.injEq] at h
      obtain ⟨_, rfl⟩ := h
      have := length_of_readName hn
      simp only [List.length_cons]
      omega
  next rest' =>
    unfold readBracket at h
    split at h
    next => cases h
    next segment' rest'' hs =>
      cases h
      have := length_of_readSegment hs
      simp only [List.length_cons] at *
      omega
    next => cases h
  next => cases h

/-- Suffixes up to the end, which may be blank. -/
def readSuffixes (cs : List Char) : Except Failure Path :=
  if cs.all Text.isBlank then .ok []
  else
    match h : readSuffix cs with
    | .error f => .error f
    | .ok (segment, rest) =>
      have := length_of_readSuffix h
      (readSuffixes rest).map (segment :: ·)
termination_by cs.length

/-- The segments that a leading name adds. -/
def ofRoot (name : List Char) : Path :=
  if name = "this".toList then [] else [.key (String.ofList name)]

def readChars (source : List Char) : Except Failure Path :=
  let cs := Text.trimStart source
  if cs.isEmpty then .error ⟨.emptyPath, source⟩
  else
    match readName cs with
    | .error f => .error f
    | .ok (name, rest) => (readSuffixes rest).map (ofRoot name ++ ·)

/-- Reads a written path. -/
def parse (source : String) : Except TemplateError Path :=
  (readChars source.toList).mapError (Failure.error source.toList)

end LiveTemplate.Path
