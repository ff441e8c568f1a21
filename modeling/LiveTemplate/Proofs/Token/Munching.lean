import Mathlib
import LiveTemplate.Proofs.Text.Place
import LiveTemplate.Proofs.Token.Patterns

/-!
# Cutting by longest words

Tokens cover a stretch of a source if they stand in it one after the other, with nothing but blanks
between them, and each is the longest word of the rest of the source from where it begins
(`Token.Covers`). The lexer covers the whole source, or all of it up to the place where no word of any
class begins (`Token.tokenize_covers`).
-/
namespace LiveTemplate.Token

variable {c : Char} {cs gap before rest w : List Char} {t token : Token} {ts : List Lexeme}
  {offset stop : Nat} {source : String}

/-! ## Blanks -/

theorem isGap_of_starts (h : starts t c = true) : isGap c = false := by
  cases t with
  | number =>
    have digit : c.isDigit = true := h
    exact isGap_of_isNameRest (by simp [isNameRest, Char.isAlphanum, digit])
  | name => exact isGap_of_isNameRest (isNameRest_of_isNameStart h)
  | doubleQuoted | singleQuoted =>
    obtain rfl := eq_of_beq h
    rfl
  | _ =>
    simp only [starts, beginsSymbol, Bool.and_eq_true, Bool.not_eq_true'] at h
    exact h.2

theorem Munches.stops (h : Munches cs token w) : Stops isGap cs := by
  obtain ⟨c, v, rfl, hc⟩ := exists_start h.matched
  obtain ⟨rest, rfl⟩ := h.front
  exact stops_cons (isGap_of_starts hc) _

theorem Munches.ne_nil (h : Munches cs token w) : w ≠ [] := by
  obtain ⟨c, v, rfl, -⟩ := exists_start h.matched
  exact nofun

/-- The blanks in front of a text that does not begin with one. -/
theorem span_gap (blank : ∀ c ∈ gap, isGap c = true) (stops : Stops isGap rest) :
    (gap ++ rest).takeWhile isGap = gap ∧ (gap ++ rest).dropWhile isGap = rest := by
  obtain ⟨take, drop⟩ := span_append stops gap
  rw [take, drop, List.takeWhile_eq_self_iff.2 blank, List.dropWhile_eq_nil_iff.2 blank]
  exact ⟨rfl, rfl⟩

/-- Each byte of some blanks is a blank of its own. -/
theorem exists_blank (blank : ∀ c ∈ gap, isGap c = true) {i : Nat} (inside : i < Text.width gap) :
    ∃ before c after, gap = before ++ [c] ++ after ∧ Text.width before = i ∧ isGap c = true := by
  induction gap generalizing i with
  | nil => simp at inside
  | cons c gap ih =>
    obtain ⟨hc, hgap⟩ := List.forall_mem_cons.1 blank
    have single : c.utf8Size = 1 := by
      simp only [isGap, Bool.or_eq_true, beq_iff_eq] at hc
      rcases hc with (((rfl | rfl) | rfl) | rfl) | rfl <;> rfl
    cases i with
    | zero => exact ⟨[], c, gap, rfl, rfl, hc⟩
    | succ i =>
      rw [Text.width_cons, single] at inside
      obtain ⟨before, d, after, rfl, hi, hd⟩ := ih hgap (i := i) (by omega)
      exact ⟨c :: before, d, after, rfl, by rw [Text.width_cons, hi, single, Nat.add_comm], hd⟩

/-! ## Cutting step by step -/

/-- From a byte offset on, what stands before the rest is cut into the tokens. -/
inductive Lexes : Nat → List Char → List Char → List Lexeme → Prop where
  | stop {offset : Nat} {gap rest : List Char} (blank : ∀ c ∈ gap, isGap c = true) :
      Lexes offset gap rest []
  | token {offset : Nat} {gap word before rest : List Char} {token : Token} {ts : List Lexeme}
      (blank : ∀ c ∈ gap, isGap c = true) (munches : Munches (word ++ (before ++ rest)) token word)
      (later : Lexes (offset + Text.width gap + Text.width word) before rest ts) :
      Lexes offset (gap ++ (word ++ before)) rest
        (⟨token, String.ofList word, offset + Text.width gap⟩ :: ts)

/-- Without the rest it is cut into the same tokens. -/
theorem Lexes.cut (h : Lexes offset before rest ts) : cut offset before = .ok ts := by
  induction h with
  | stop blank =>
    rw [Token.cut]
    simp [List.dropWhile_eq_nil_iff.2 blank]
  | @token offset gap word before rest token ts blank munches later ih =>
    have truncated : Munches (word ++ before) token word := by
      refine munches.truncate (List.prefix_append _ _) ?_
      rw [← List.append_assoc]
      exact List.prefix_append _ _
    obtain ⟨take, drop⟩ := span_gap blank truncated.stops
    have hcut := @cut_of_first offset (gap ++ (word ++ before)) word before token ts
    rw [take, drop] at hcut
    exact hcut (by simp [truncated.ne_nil]) truncated.first_eq ih

/-- What a cut comes to: the tokens of the whole text, or of what stands before a rest that no word of any
class begins. -/
def Result (offset : Nat) (cs : List Char) : Except TemplateError (List Lexeme) → Prop
  | .ok ts => Lexes offset cs [] ts
  | .error e => ∃ before rest ts, cs = before ++ rest ∧ e.offset = offset + Text.width before ∧
      Lexes offset before rest ts ∧ rest ≠ [] ∧ Stops isGap rest ∧ ∀ t w, w ∈ pattern t → ¬ w <+: rest

/-- One token and the result for what follows it. -/
theorem Result.prepend {gap word : List Char} (blank : ∀ c ∈ gap, isGap c = true)
    (munches : Munches (word ++ cs) token word) {r : Except TemplateError (List Lexeme)}
    (h : Result (offset + Text.width gap + Text.width word) cs r) :
    Result offset (gap ++ (word ++ cs))
      (r.map (⟨token, String.ofList word, offset + Text.width gap⟩ :: ·)) := by
  cases r with
  | ok ts => exact .token blank (by simpa using munches) h
  | error e =>
    obtain ⟨before, rest, ts, rfl, hoffset, lexes, unmatched⟩ := h
    refine ⟨gap ++ (word ++ before), rest, _, by simp, ?_, .token blank munches lexes, unmatched⟩
    rw [hoffset, Text.width_append, Text.width_append]
    omega

theorem cut_result (offset : Nat) (cs : List Char) : Result offset cs (Token.cut offset cs) := by
  induction hn : cs.length using Nat.strong_induction_on generalizing offset cs with
  | _ n ih =>
  have whole := List.takeWhile_append_dropWhile (p := isGap) (l := cs)
  have blank : ∀ c ∈ cs.takeWhile isGap, isGap c = true := fun c hc => List.mem_takeWhile_imp hc
  rw [Token.cut]
  dsimp only
  split
  next nothing =>
    rw [List.isEmpty_iff.1 nothing, List.append_nil] at whole
    rw [whole] at blank
    exact .stop blank
  next some =>
    have spec := first_spec (cs.dropWhile isGap)
    split
    next piece failed =>
      rw [failed] at spec
      exact ⟨_, _, [], whole.symm, rfl, .stop blank, by simpa using some, stops_dropWhile _ _, spec⟩
    next token taken rest found =>
      rw [found] at spec
      have munches : Munches (taken ++ rest) token taken := (first_append found).symm ▸ spec
      have shorter : rest.length < n := by
        have := first_length found
        have := congrArg List.length whole
        simp only [List.length_append] at this
        omega
      have result := Result.prepend blank munches (ih rest.length shorter
        (offset + Text.width (cs.takeWhile isGap) + Text.width taken) rest rfl)
      rwa [first_append found, whole] at result

/-! ## Covered stretches -/

/-- The tokens stand in the source from one byte to another one, and only blanks are between them. -/
structure Covers (source : String) (start stop : Nat) (ts : List Lexeme) : Prop where
  apart : ts.Pairwise fun t u => t.offset + t.text.utf8ByteSize ≤ u.offset
  within : ∀ t ∈ ts, start ≤ t.offset ∧ t.text ≠ "" ∧ t.offset + t.text.utf8ByteSize ≤ stop
  slices : ∀ t ∈ ts, Text.Stands source t.offset t.text
  /-- A byte that belongs to no token is a blank. -/
  blanks : ∀ i, start ≤ i → i < stop →
    (∀ t ∈ ts, ¬ (t.offset ≤ i ∧ i < t.offset + t.text.utf8ByteSize)) →
      ∃ blank ∈ [" ", "\t", "\n", "\r", "\x0c"], Text.Stands source i blank
  /-- Each token is the longest word of what is left of the source from there on. -/
  munches : ∀ t ∈ ts, ∃ before rest, source.toList = before ++ rest ∧ Text.width before = t.offset ∧
    Munches rest t.token t.text.toList

theorem stands_blank {front after : List Char} (hsource : source.toList = front ++ (gap ++ after))
    (blank : ∀ c ∈ gap, isGap c = true) {i : Nat} (low : Text.width front ≤ i)
    (high : i < Text.width front + Text.width gap) :
    ∃ blank ∈ [" ", "\t", "\n", "\r", "\x0c"], Text.Stands source i blank := by
  obtain ⟨before, c, behind, rfl, hi, hc⟩ := exists_blank blank (i := i - Text.width front) (by omega)
  refine ⟨String.singleton c, ?_, Text.stands_iff.2 ⟨front ++ before, behind ++ after, ?_, ?_⟩⟩
  · simp only [isGap, Bool.or_eq_true, beq_iff_eq] at hc
    rcases hc with (((rfl | rfl) | rfl) | rfl) | rfl <;> decide
  · simp [hsource]
  · rw [Text.width_append]
    omega

theorem Lexes.covers {front : List Char} (h : Lexes offset before rest ts)
    (hsource : source.toList = front ++ (before ++ rest)) (hoffset : Text.width front = offset) :
    Covers source offset (offset + Text.width before) ts := by
  induction h generalizing front with
  | stop blank =>
    refine ⟨.nil, nofun, nofun, fun i low high _ => ?_, nofun⟩
    exact stands_blank hsource blank (by omega) (by omega)
  | @token offset gap word before rest token ts blank munches later ih =>
    subst hoffset
    have covers := @ih (front ++ (gap ++ word)) (by simp [hsource]) (by simp [Nat.add_assoc])
    have size : (String.ofList word).utf8ByteSize = Text.width word := Text.width_ofList word
    have stop : Text.width front + Text.width gap + Text.width word + Text.width before =
        Text.width front + Text.width (gap ++ (word ++ before)) := by
      simp [Nat.add_assoc]
    rw [stop] at covers
    have hrest : source.toList = front ++ gap ++ (word ++ (before ++ rest)) := by simp [hsource]
    have hwidth : Text.width (front ++ gap) = Text.width front + Text.width gap := Text.width_append _ _
    refine ⟨.cons (fun u hu => ?_) covers.apart, List.forall_mem_cons.2 ⟨?_, fun u hu => ?_⟩,
      List.forall_mem_cons.2 ⟨?_, covers.slices⟩, fun i low high outside => ?_,
      List.forall_mem_cons.2 ⟨?_, covers.munches⟩⟩
    · rw [size]
      exact (covers.within u hu).1
    · refine ⟨by simp, by simpa using munches.ne_nil, ?_⟩
      simp only [size, ← stop]
      omega
    · obtain ⟨low, nonempty, high⟩ := covers.within u hu
      exact ⟨by omega, nonempty, high⟩
    · exact Text.stands_iff.2 ⟨_, _, by simpa using hrest, hwidth⟩
    · obtain ⟨apart, others⟩ := List.forall_mem_cons.1 outside
      simp only [size] at apart
      by_cases early : i < Text.width front + Text.width gap
      · exact stands_blank (by simpa using hsource) blank low early
      · exact covers.blanks i (by omega) high others
    · exact ⟨_, _, hrest, hwidth, by simpa using munches⟩

/-- The tokens of a source cover all of it. Where a source has no tokens, those of what stands before the
reported offset cover that, and no word of any class begins the rest. -/
theorem tokenize_covers (source : String) :
    match tokenize source with
    | .ok ts => Covers source 0 source.utf8ByteSize ts
    | .error e => ∃ before rest ts, source.toList = before ++ rest ∧ Text.width before = e.offset ∧
        tokenize (String.ofList before) = .ok ts ∧ Covers source 0 e.offset ts ∧
        rest ≠ [] ∧ Stops isGap rest ∧ ∀ t w, w ∈ pattern t → ¬ w <+: rest := by
  have result := cut_result 0 source.toList
  rw [← tokenize] at result
  split
  next ts found =>
    rw [found] at result
    have hsource : source.toList = [] ++ (source.toList ++ []) := by simp
    have covers := Lexes.covers result hsource rfl
    rwa [Nat.zero_add, Text.width_toList] at covers
  next e failed =>
    rw [failed] at result
    obtain ⟨before, rest, ts, hsource, hoffset, lexes, unmatched⟩ := result
    rw [Nat.zero_add] at hoffset
    have hfront : source.toList = [] ++ (before ++ rest) := hsource
    have covers := lexes.covers hfront rfl
    rw [Nat.zero_add, ← hoffset] at covers
    refine ⟨before, rest, ts, hsource, hoffset.symm, ?_, covers, unmatched⟩
    rw [tokenize, String.toList_ofList]
    exact lexes.cut

end LiveTemplate.Token
