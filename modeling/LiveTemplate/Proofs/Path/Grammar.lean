import Mathlib
import LiveTemplate.Path.Parser
import LiveTemplate.Proofs.Expr.Lexing

/-!
# How paths are written

A path is written as a name and its suffixes with blanks around the whole (`Path.Written`). The readers
accept these texts and no others (`Path.parse_eq_ok_iff`): a name is read up to the first character that
cannot go on with it, and neither a suffix nor a blank begins with one that could.
-/
namespace LiveTemplate

theorem isBlank_of_isNameRest {c : Char} (h : isNameRest c = true) : Text.isBlank c = false := by
  have code : c.toNat = c.val.toNat := rfl
  have letter : c = '_' ∨ c = '$' ∨ (48 ≤ c.toNat ∧ c.toNat ≤ 122) := by
    simp only [isNameRest, Char.isAlphanum, Char.isAlpha, Char.isUpper, Char.isLower, Char.isDigit,
      Bool.or_eq_true, Bool.and_eq_true, decide_eq_true_eq, beq_iff_eq, UInt32.le_iff_toNat_le,
      ge_iff_le, Char.reduceVal, UInt32.reduceToNat,
      ← code] at h
    rcases h with (h | rfl) | rfl
    · exact .inr (.inr (by omega))
    · exact .inl rfl
    · exact .inr (.inl rfl)
  rcases letter with rfl | rfl | ⟨low, high⟩
  · decide
  · decide
  · refine Bool.of_not_eq_true fun blank => ?_
    simp only [Text.isBlank, Bool.or_eq_true, Bool.and_eq_true, decide_eq_true_eq, beq_iff_eq] at blank
    omega

namespace Path

variable {cs rest name piece after : List Char} {segment : Segment} {p : Path}

/-- A letter, `_` or `$`, and after it any number of these and of digits. -/
def IsName (cs : List Char) : Prop :=
  ∃ c rest, cs = c :: rest ∧ isNameStart c = true ∧ ∀ d ∈ rest, isNameRest d = true

/-- The text writes the segment: a name behind a point, or an index or a key in brackets. A key has no
quote of the kind that is around it. -/
inductive Suffix : List Char → Segment → Prop where
  | member {name : List Char} (isName : IsName name) :
      Suffix ('.' :: name) (.key (String.ofList name))
  | index {digits : List Char} (some : digits ≠ []) (each : ∀ c ∈ digits, c.isDigit = true)
      (small : Numeral.ofDigits digits < 2 ^ 64) :
      Suffix ('[' :: (digits ++ [']'])) (.index (Numeral.ofDigits digits))
  | key {quote : Char} {body : List Char} (isQuote : quote = '"' ∨ quote = '\'')
      (free : quote ∉ body) : Suffix ('[' :: quote :: (body ++ [quote, ']'])) (.key (String.ofList body))

/-- The text writes the path: blanks, a name, suffixes and blanks. The name `this` is no segment. -/
inductive Written : List Char → Path → Prop where
  | intro {before name after : List Char} {pieces : List (List Char)} {segments : Path}
      (blankBefore : ∀ c ∈ before, Text.isBlank c = true) (isName : IsName name)
      (suffixes : List.Forall₂ Suffix pieces segments)
      (blankAfter : ∀ c ∈ after, Text.isBlank c = true) :
      Written (before ++ name ++ pieces.flatten ++ after)
        (if name = "this".toList then segments else .key (String.ofList name) :: segments)

/-! ## Names -/

theorem IsName.all (h : IsName name) : ∀ c ∈ name, isNameRest c = true := by
  obtain ⟨c, rest, rfl, start, each⟩ := h
  exact List.forall_mem_cons.2 ⟨Token.isNameRest_of_isNameStart start, each⟩

theorem IsName.isEmpty_append (h : IsName name) (rest : List Char) : (name ++ rest).isEmpty = false := by
  obtain ⟨c, cs, rfl, -⟩ := h
  rfl

/-- No name begins with a blank. -/
theorem IsName.trimStart_append (h : IsName name) {before : List Char}
    (blank : ∀ c ∈ before, Text.isBlank c = true) (rest : List Char) :
    Text.trimStart (before ++ (name ++ rest)) = name ++ rest := by
  obtain ⟨c, cs, rfl, start, -⟩ := h
  have solid : Token.Stops Text.isBlank (c :: cs ++ rest) :=
    Token.stops_cons (isBlank_of_isNameRest (Token.isNameRest_of_isNameStart start)) _
  rw [Text.trimStart, (Token.span_append solid before).2, List.dropWhile_eq_nil_iff.2 blank,
    List.nil_append]

theorem readName_eq_ok (h : readName cs = .ok (name, rest)) :
    ∃ c cs', cs = c :: cs' ∧ isNameStart c = true ∧ cs.takeWhile isNameRest = name ∧
      cs.dropWhile isNameRest = rest := by
  unfold readName at h
  split at h
  next c cs' =>
    split at h
    next start =>
      obtain ⟨htake, hdrop⟩ := Prod.mk.inj (Except.ok.inj h)
      exact ⟨c, cs', rfl, start, htake, hdrop⟩
    next => cases h
  next => cases h

/-- The longest name is read. -/
theorem readName_eq_ok_iff : readName cs = .ok (name, rest) ↔
    IsName name ∧ Token.Stops isNameRest rest ∧ cs = name ++ rest := by
  constructor
  · intro h
    obtain ⟨c, cs', rfl, start, rfl, rfl⟩ := readName_eq_ok h
    refine ⟨⟨c, cs'.takeWhile isNameRest, ?_, start, fun d hd => ?_⟩, Token.stops_dropWhile _ _,
      List.takeWhile_append_dropWhile.symm⟩
    · rw [List.takeWhile_cons_of_pos (Token.isNameRest_of_isNameStart start)]
    · exact List.all_eq_true.1 List.all_takeWhile d hd
  · rintro ⟨isName, stops, rfl⟩
    obtain ⟨htake, hdrop⟩ := Token.span_append stops name
    rw [List.takeWhile_eq_self_iff.2 isName.all] at htake
    rw [List.dropWhile_eq_nil_iff.2 isName.all, List.nil_append] at hdrop
    obtain ⟨c, cs', rfl, start, -⟩ := isName
    rw [List.cons_append, readName, if_pos start, ← List.cons_append, htake, hdrop]

/-! ## Suffixes -/

theorem splitAtQuote_eq_some_iff {quote : Char} {body : List Char} :
    splitAtQuote quote cs = some (body, rest) ↔ quote ∉ body ∧ cs = body ++ quote :: rest := by
  induction cs generalizing body with
  | nil => simp [splitAtQuote]
  | cons c cs ih =>
    rw [splitAtQuote]
    split_ifs with hc
    · subst hc
      cases body with
      | nil => simp [eq_comm]
      | cons d body => simp +contextual [eq_comm]
    · simp only [Option.map_eq_some_iff, Prod.mk.injEq, Prod.exists]
      constructor
      · rintro ⟨body, _, hsplit, rfl, rfl⟩
        obtain ⟨free, rfl⟩ := ih.1 hsplit
        exact ⟨by simp [free, Ne.symm hc], rfl⟩
      · rintro ⟨free, hcs⟩
        cases body with
        | nil => exact absurd (List.cons.inj hcs).1 hc
        | cons d body =>
          obtain ⟨rfl, rfl⟩ := List.cons.inj hcs
          exact ⟨body, rest, ih.2 ⟨fun h => free (List.mem_cons_of_mem _ h), rfl⟩, rfl, rfl⟩

theorem readIndex_of_digits {digits : List Char} (some : digits ≠ [])
    (each : ∀ c ∈ digits, c.isDigit = true) : readIndex digits =
      if Numeral.ofDigits digits < 2 ^ 64 then Option.some (Numeral.ofDigits digits) else none := by
  obtain ⟨c, cs, rfl⟩ := List.exists_cons_of_ne_nil some
  have noSign : c ≠ '+' := by
    rintro rfl
    cases each _ List.mem_cons_self
  have all : (c :: cs).all Char.isDigit = true := List.all_eq_true.2 each
  have bound : ∀ n, n ≤ maxIndex ↔ n < 2 ^ 64 := fun n => Nat.lt_succ_iff.symm
  unfold readIndex
  split
  next heq => exact absurd (List.cons.inj heq).1 noSign
  next => simp [all, bound]

/-- What a segment in brackets is read from. -/
theorem readSegment_eq_ok (h : readSegment cs = .ok (segment, rest)) :
    (∃ quote body, (quote = '"' ∨ quote = '\'') ∧ quote ∉ body ∧ segment = .key (String.ofList body) ∧
      cs = quote :: (body ++ quote :: rest)) ∨
    ∃ digits, digits ≠ [] ∧ (∀ c ∈ digits, c.isDigit = true) ∧ Numeral.ofDigits digits < 2 ^ 64 ∧
      segment = .index (Numeral.ofDigits digits) ∧ cs = digits ++ rest := by
  unfold readSegment at h
  split at h
  next c body =>
    split at h
    next isQuote =>
      split at h
      next hsplit =>
        obtain ⟨free, rfl⟩ := splitAtQuote_eq_some_iff.1 hsplit
        cases h
        exact .inl ⟨_, _, isQuote, free, rfl, rfl⟩
      next => cases h
    next =>
      split at h
      next digit =>
        have some : (c :: body).takeWhile Char.isDigit ≠ [] := by
          rw [List.takeWhile_cons_of_pos digit]
          exact List.cons_ne_nil _ _
        have each : ∀ d ∈ (c :: body).takeWhile Char.isDigit, d.isDigit = true :=
          fun d hd => List.all_eq_true.1 List.all_takeWhile d hd
        rw [readIndex_of_digits some each] at h
        split_ifs at h with small
        cases h
        exact .inr ⟨_, some, each, small, rfl, List.takeWhile_append_dropWhile.symm⟩
      next => cases h
  next => cases h

theorem readSegment_key {quote : Char} {body : List Char} (isQuote : quote = '"' ∨ quote = '\'')
    (free : quote ∉ body) (rest : List Char) :
    readSegment (quote :: (body ++ quote :: rest)) = .ok (.key (String.ofList body), rest) := by
  rw [readSegment, if_pos isQuote, splitAtQuote_eq_some_iff.2 ⟨free, rfl⟩]

theorem readSegment_index {digits : List Char} (some : digits ≠ [])
    (each : ∀ c ∈ digits, c.isDigit = true) (small : Numeral.ofDigits digits < 2 ^ 64)
    (stops : Token.Stops Char.isDigit rest) :
    readSegment (digits ++ rest) = .ok (.index (Numeral.ofDigits digits), rest) := by
  obtain ⟨htake, hdrop⟩ := Token.span_append stops digits
  rw [List.takeWhile_eq_self_iff.2 each] at htake
  rw [List.dropWhile_eq_nil_iff.2 each, List.nil_append] at hdrop
  have value := readIndex_of_digits some each
  rw [if_pos small] at value
  obtain ⟨c, cs, rfl⟩ := List.exists_cons_of_ne_nil some
  have digit := each c List.mem_cons_self
  have noQuote : ¬ (c = '"' ∨ c = '\'') := by
    rintro (rfl | rfl) <;> cases digit
  rw [List.cons_append, readSegment, if_neg noQuote, if_pos digit, ← List.cons_append, htake, hdrop,
    value]

theorem Suffix.exists_cons (h : Suffix piece segment) : ∃ c cs, piece = c :: cs ∧
    isNameRest c = false ∧ Text.isBlank c = false := by
  cases h <;> exact ⟨_, _, rfl, rfl, rfl⟩

/-- A suffix that is written is read, whatever comes after it but the rest of a name. -/
theorem Suffix.readSuffix (h : Suffix piece segment) (stops : Token.Stops isNameRest rest) :
    readSuffix (piece ++ rest) = .ok (segment, rest) := by
  cases h with
  | member isName =>
    rw [List.cons_append, Path.readSuffix, readName_eq_ok_iff.2 ⟨isName, stops, rfl⟩]
    rfl
  | index some each small =>
    have closes : Token.Stops Char.isDigit (']' :: rest) := Token.stops_cons rfl rest
    rw [List.cons_append, List.append_assoc, List.singleton_append, Path.readSuffix, readBracket,
      readSegment_index some each small closes]
    rfl
  | @key quote body isQuote free =>
    have htext : '[' :: quote :: (body ++ [quote, ']']) ++ rest =
        '[' :: quote :: (body ++ quote :: ']' :: rest) := by simp
    rw [htext, Path.readSuffix, readBracket, readSegment_key isQuote free]
    rfl

theorem readSuffix_eq_ok (h : readSuffix cs = .ok (segment, rest)) :
    ∃ piece, Suffix piece segment ∧ cs = piece ++ rest := by
  unfold readSuffix at h
  split at h
  next cs =>
    obtain ⟨⟨name, _⟩, hname, hend⟩ := Expr.map_eq_ok.1 h
    obtain ⟨rfl, rfl⟩ := Prod.mk.inj hend
    obtain ⟨isName, -, rfl⟩ := readName_eq_ok_iff.1 hname
    exact ⟨_, .member isName, rfl⟩
  next cs =>
    unfold readBracket at h
    split at h
    next => cases h
    next hsegment =>
      cases h
      rcases readSegment_eq_ok hsegment with ⟨quote, body, isQuote, free, rfl, rfl⟩ |
        ⟨digits, some, each, small, rfl, rfl⟩
      · exact ⟨_, .key isQuote free, by simp⟩
      · exact ⟨_, .index some each small, by simp⟩
    next => cases h
  next => cases h

/-! ## Whole paths -/

theorem stops_suffixes {pieces : List (List Char)} (h : List.Forall₂ Suffix pieces p)
    (blank : ∀ c ∈ after, Text.isBlank c = true) :
    Token.Stops isNameRest (pieces.flatten ++ after) := by
  cases h with
  | nil =>
    intro c hc
    refine Bool.of_not_eq_true fun isRest => ?_
    have := isBlank_of_isNameRest isRest
    rw [blank c (List.mem_of_mem_head? hc)] at this
    cases this
  | cons suffix _ =>
    obtain ⟨c, cs, rfl, noRest, -⟩ := suffix.exists_cons
    exact Token.stops_cons noRest _

theorem readSuffixes_of_ok (solid : ¬ cs.all Text.isBlank = true)
    (h : readSuffix cs = .ok (segment, rest)) :
    readSuffixes cs = (readSuffixes rest).map (segment :: ·) := by
  rw [readSuffixes, if_neg solid]
  split
  next hfail => cases h.symm.trans hfail
  next hok =>
    obtain ⟨rfl, rfl⟩ := Prod.mk.inj (Except.ok.inj (h.symm.trans hok))
    rfl

theorem readSuffixes_of_error {f : Failure} (solid : ¬ cs.all Text.isBlank = true)
    (h : readSuffix cs = .error f) : readSuffixes cs = .error f := by
  rw [readSuffixes, if_neg solid]
  split
  next hfail => rw [Except.error.inj (h.symm.trans hfail)]
  next hok => cases h.symm.trans hok

theorem readSuffixes_flatten {pieces : List (List Char)} (h : List.Forall₂ Suffix pieces p)
    (blank : ∀ c ∈ after, Text.isBlank c = true) : readSuffixes (pieces.flatten ++ after) = .ok p := by
  induction h with
  | nil =>
    have all : after.all Text.isBlank = true := List.all_eq_true.2 blank
    rw [List.flatten_nil, List.nil_append, readSuffixes, if_pos all]
  | @cons piece segment pieces p suffix suffixes ih =>
    have hread := suffix.readSuffix (stops_suffixes suffixes blank)
    obtain ⟨c, cs, hpiece, -, solid⟩ := suffix.exists_cons
    have notAll : ¬ (piece ++ (pieces.flatten ++ after)).all Text.isBlank = true := by
      simp [hpiece, solid]
    rw [List.flatten_cons, List.append_assoc, readSuffixes_of_ok notAll hread, ih]
    rfl

theorem readSuffixes_eq_ok (h : readSuffixes cs = .ok p) : ∃ pieces after,
    List.Forall₂ Suffix pieces p ∧ (∀ c ∈ after, Text.isBlank c = true) ∧
      cs = pieces.flatten ++ after := by
  fun_induction readSuffixes cs generalizing p with
  | case1 cs blank =>
    cases h
    exact ⟨[], cs, .nil, List.all_eq_true.1 blank, rfl⟩
  | case2 => cases h
  | case3 cs _ segment rest hsuffix _ ih =>
    obtain ⟨p, hrest, rfl⟩ := Expr.map_eq_ok.1 h
    obtain ⟨piece, suffix, rfl⟩ := readSuffix_eq_ok hsuffix
    obtain ⟨pieces, after, suffixes, blank, rfl⟩ := ih hrest
    exact ⟨piece :: pieces, after, .cons suffix suffixes, blank, by simp⟩

theorem parse_eq_ok {source : String} (h : parse source = .ok p) :
    ∃ name rest p', readName (Text.trimStart source.toList) = .ok (name, rest) ∧
      readSuffixes rest = .ok p' ∧ p = ofRoot name ++ p' := by
  cases hread : readChars source.toList with
  | error f => simp [parse, hread, Except.mapError] at h
  | ok p =>
    rw [parse, hread] at h
    obtain rfl := Except.ok.inj h
    unfold readChars at hread
    dsimp only at hread
    split at hread
    next => cases hread
    next =>
      split at hread
      next => cases hread
      next name rest hname =>
        obtain ⟨p', hp', hend⟩ := Expr.map_eq_ok.1 hread
        exact ⟨name, rest, p', hname, hp', hend.symm⟩

theorem ofRoot_append (name : List Char) (p : Path) :
    ofRoot name ++ p = if name = "this".toList then p else .key (String.ofList name) :: p := by
  unfold ofRoot
  split_ifs <;> rfl

theorem Written.parse {source : String} (h : Written source.toList p) : parse source = .ok p := by
  generalize hsource : source.toList = cs at h
  cases h with
  | @intro before name after pieces p blankBefore isName suffixes blankAfter =>
    have hread := readName_eq_ok_iff.2 ⟨isName, stops_suffixes suffixes blankAfter, rfl⟩
    have htrim := isName.trimStart_append blankBefore (pieces.flatten ++ after)
    rw [← List.append_assoc, ← List.append_assoc, ← List.append_assoc] at htrim
    have hchars : readChars source.toList = .ok (ofRoot name ++ p) := by
      rw [hsource, readChars, htrim, List.append_assoc, isName.isEmpty_append, hread]
      dsimp only
      rw [readSuffixes_flatten suffixes blankAfter]
      rfl
    rw [Path.parse, hchars, ofRoot_append]
    rfl

theorem written_of_parse {source : String} (h : parse source = .ok p) : Written source.toList p := by
  obtain ⟨name, rest, p', hname, hsuffixes, rfl⟩ := parse_eq_ok h
  obtain ⟨isName, -, hcs⟩ := readName_eq_ok_iff.1 hname
  obtain ⟨pieces, after, suffixes, blankAfter, rfl⟩ := readSuffixes_eq_ok hsuffixes
  have blankBefore : ∀ c ∈ source.toList.takeWhile Text.isBlank, Text.isBlank c = true :=
    fun c hc => List.all_eq_true.1 List.all_takeWhile c hc
  have hsource : source.toList =
      source.toList.takeWhile Text.isBlank ++ name ++ pieces.flatten ++ after := by
    rw [List.append_assoc, List.append_assoc, ← hcs, Text.trimStart, List.takeWhile_append_dropWhile]
  rw [hsource, ofRoot_append]
  exact .intro blankBefore isName suffixes blankAfter

/-- A text is read as a path exactly if it is written as one. -/
theorem parse_eq_ok_iff {source : String} : parse source = .ok p ↔ Written source.toList p :=
  ⟨written_of_parse, Written.parse⟩

end Path

end LiveTemplate
