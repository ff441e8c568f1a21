import Mathlib
import LiveTemplate.Proofs.Expr.Paths

/-!
# The patterns of tokens

Every class of token is a language of its own, written down apart from the lexer: digits with an optional
fraction and exponent, characters and escapes between quotes, a letter and what can follow it, a fixed
spelling (`Token.pattern`). The lexer does not try them one after the other: it looks at the first
character and takes what it can. That comes to the same (`Token.first_spec`): of all words of all
patterns that begin the text it takes the longest, and it takes nothing exactly if no such word begins
the text.
-/
namespace LiveTemplate.Token

open Computability

/-! ## Languages -/

/-- The words of a single character of the class. -/
def one (p : Char → Bool) : Language Char := {w | ∃ c, p c = true ∧ w = [c]}

/-- One digit or more. -/
def digits : Language Char := one Char.isDigit * (one Char.isDigit)∗

def fraction : Language Char := 1 + one (· == '.') * digits

def sign : Language Char := 1 + one fun c => c == '+' || c == '-'

def exponent : Language Char := 1 + one (fun c => c == 'e' || c == 'E') * (sign * digits)

/-- What can stand between two quotes: any character but the quote, and a backslash with the next one,
unless that is a line break. -/
def inside (quote : Char) : Language Char :=
  one (fun c => c != quote && c != '\\') + one (· == '\\') * one (· != '\n')

def quoted (quote : Char) : Language Char := one (· == quote) * ((inside quote)∗ * one (· == quote))

/-- The fixed spelling of a class of token, if it has one. -/
def spelled (t : Token) : Language Char := {w | (String.ofList w, t) ∈ symbols}

/-- The words of a class of token. -/
def pattern : Token → Language Char
  | number => digits * fraction * exponent
  | doubleQuoted => quoted '"'
  | singleQuoted => quoted '\''
  | name => one isNameStart * (one isNameRest)∗
  | symbol => spelled symbol

variable {p q : Char → Bool} {L M : Language Char} {c quote : Char} {cs w taken rest : List Char}
  {t token : Token}

theorem ne_of_class {c d : Char} (hc : p c = true) (hd : p d = false) : c ≠ d := by
  rintro rfl
  cases hc.symm.trans hd

theorem mem_one_mul : w ∈ one p * L ↔ ∃ c v, w = c :: v ∧ p c = true ∧ v ∈ L := by
  constructor
  · rintro ⟨_, ⟨c, hc, rfl⟩, v, hv, rfl⟩
    exact ⟨c, v, rfl, hc, hv⟩
  · rintro ⟨c, v, rfl, hc, hv⟩
    have hone : [c] ∈ one p := ⟨c, hc, rfl⟩
    exact Language.append_mem_mul hone hv

theorem cons_mem_one_mul : c :: w ∈ one p * L ↔ p c = true ∧ w ∈ L := by
  rw [mem_one_mul]
  grind

theorem mem_one_kstar : w ∈ (one p)∗ ↔ ∀ c ∈ w, p c = true := by
  constructor
  · rw [Language.mem_kstar]
    rintro ⟨words, rfl, each⟩ c hc
    obtain ⟨word, hword, hc⟩ := List.mem_flatten.1 hc
    obtain ⟨d, hd, rfl⟩ := each word hword
    obtain rfl := List.mem_singleton.1 hc
    exact hd
  · intro each
    induction w with
    | nil => exact Language.nil_mem_kstar _
    | cons c w ih =>
      rw [← Language.one_add_self_mul_kstar_eq_kstar]
      exact .inr (cons_mem_one_mul.2 ⟨each c List.mem_cons_self, ih fun d hd => each d (.tail _ hd)⟩)

theorem mem_digits : w ∈ digits ↔ w ≠ [] ∧ ∀ c ∈ w, c.isDigit = true := by
  cases w with
  | nil => simp [digits, mem_one_mul]
  | cons c w => simp [digits, cons_mem_one_mul, mem_one_kstar]

/-! ## The longest word in front -/

/-- The longest word of the language that begins a text is taken off it. -/
structure Greedy (L : Language Char) (span : List Char → List Char × List Char) : Prop where
  splits (cs : List Char) : (span cs).1 ++ (span cs).2 = cs
  longest {cs w : List Char} (word : w ∈ L) (front : w <+: cs) :
    (span cs).1 ∈ L ∧ w <+: (span cs).1

theorem greedy_run (within : ∀ c, p c = true → q c = true) :
    Greedy (one p * (one q)∗) fun cs => (cs.takeWhile q, cs.dropWhile q) where
  splits _ := List.takeWhile_append_dropWhile
  longest {cs w} word front := by
    obtain ⟨c, v, rfl, hc, hv⟩ := mem_one_mul.1 word
    obtain ⟨rest, rfl⟩ := front
    have all : ∀ d ∈ c :: v, q d = true := List.forall_mem_cons.2 ⟨within c hc, mem_one_kstar.1 hv⟩
    simp only [List.takeWhile_append_of_pos all]
    refine ⟨cons_mem_one_mul.2 ⟨hc, mem_one_kstar.2 fun d hd => ?_⟩, List.prefix_append _ _⟩
    rcases List.mem_append.1 hd with hd | hd
    · exact all d (.tail _ hd)
    · exact List.mem_takeWhile_imp hd

theorem greedy_name : Greedy (pattern name) fun cs =>
    (cs.takeWhile isNameRest, cs.dropWhile isNameRest) :=
  greedy_run fun _ h => isNameRest_of_isNameStart h

theorem greedy_digits : Greedy digits fun cs => (cs.takeWhile Char.isDigit, cs.dropWhile Char.isDigit) :=
  greedy_run fun _ h => h

/-- A word and an optional second one: the first is not cut short for the sake of the second, since no
second one begins as a longer first one goes on. -/
theorem Greedy.append {first second : List Char → List Char × List Char} (h : Greedy L first)
    (h' : Greedy M second) (skip : [] ∈ M)
    (apart : ∀ a c more v, a ++ c :: more ∈ L → c :: v ∈ M → a ∉ L) :
    Greedy (L * M) fun cs => ((first cs).1 ++ (second (first cs).2).1, (second (first cs).2).2) where
  splits cs := by rw [List.append_assoc, h'.splits, h.splits]
  longest {cs w} word front := by
    obtain ⟨a, ha, b, hb, rfl⟩ := Language.mem_mul.1 word
    obtain ⟨whole, ⟨extra, hextra⟩⟩ := h.longest ha ((List.prefix_append a b).trans front)
    refine ⟨Language.append_mem_mul whole (h'.longest skip (List.nil_prefix)).1, ?_⟩
    rw [← h.splits cs, ← hextra, List.append_assoc, List.prefix_append_right_inj] at front
    rw [← hextra] at whole ⊢
    rw [List.append_assoc, List.prefix_append_right_inj]
    cases extra with
    | nil => exact (h'.longest hb front).2
    | cons c more =>
      cases b with
      | nil => exact List.nil_prefix
      | cons d v =>
        obtain rfl : d = c := (List.cons_prefix_cons.1 front).1
        exact absurd ha (apart a d more v whole hb)

/-! ## Numbers -/

theorem nil_mem_fraction : [] ∈ fraction := .inl rfl

theorem nil_mem_exponent : [] ∈ exponent := .inl rfl

theorem greedy_fraction : Greedy fraction spanFraction where
  splits := spanFraction_append
  longest {cs w} word front := by
    have taken : (spanFraction cs).1 ∈ fraction := by
      unfold spanFraction
      split
      next rest =>
        split
        next => exact .inl rfl
        next some =>
          refine .inr (cons_mem_one_mul.2 ⟨rfl, mem_digits.2 ⟨by simpa using some, ?_⟩⟩)
          exact fun c hc => List.mem_takeWhile_imp hc
      next => exact .inl rfl
    refine ⟨taken, ?_⟩
    rcases word with rfl | word
    · exact List.nil_prefix
    · obtain ⟨c, d, rfl, hc, hd⟩ := mem_one_mul.1 word
      obtain rfl : c = '.' := by simpa using hc
      obtain ⟨rest, rfl⟩ := front
      obtain ⟨some, within⟩ := greedy_digits.longest hd (List.prefix_append d rest)
      have nonempty : ((d ++ rest).takeWhile Char.isDigit).isEmpty = false := by
        simpa using (mem_digits.1 some).1
      simp only [List.cons_append, spanFraction, nonempty]
      exact List.cons_prefix_cons.2 ⟨rfl, within⟩

theorem spanSign_of_mem (word : w ∈ sign) {d : List Char} (hd : d ∈ digits) (rest : List Char) :
    spanSign (w ++ (d ++ rest)) = (w, d ++ rest) := by
  rcases word with rfl | ⟨c, hc, rfl⟩
  · obtain ⟨c, v, rfl, hc, -⟩ := mem_one_mul.1 hd
    have plus : c ≠ '+' := ne_of_class hc rfl
    have minus : c ≠ '-' := ne_of_class hc rfl
    simp [spanSign, plus, minus]
  · obtain rfl | rfl : c = '+' ∨ c = '-' := by simpa using hc
    · rfl
    · rfl

theorem greedy_exponent : Greedy exponent spanExponent where
  splits := spanExponent_append
  longest {cs w} word front := by
    have taken : (spanExponent cs).1 ∈ exponent := by
      unfold spanExponent
      split
      next c rest =>
        split
        next mark =>
          dsimp only
          split
          next => exact .inl rfl
          next some =>
            refine .inr (cons_mem_one_mul.2 ⟨by simpa using mark, Language.append_mem_mul ?_ ?_⟩)
            · unfold spanSign
              split
              · exact .inr ⟨'+', rfl, rfl⟩
              · exact .inr ⟨'-', rfl, rfl⟩
              · exact .inl rfl
            · exact mem_digits.2 ⟨by simpa using some, fun c hc => List.mem_takeWhile_imp hc⟩
        next => exact .inl rfl
      next => exact .inl rfl
    refine ⟨taken, ?_⟩
    rcases word with rfl | word
    · exact List.nil_prefix
    · obtain ⟨c, v, rfl, hc, hv⟩ := mem_one_mul.1 word
      obtain ⟨s, hs, d, hd, rfl⟩ := Language.mem_mul.1 hv
      obtain ⟨rest, rfl⟩ := front
      have mark : c = 'e' ∨ c = 'E' := by simpa using hc
      obtain ⟨some, within⟩ := greedy_digits.longest hd (List.prefix_append d rest)
      have nonempty : ((d ++ rest).takeWhile Char.isDigit).isEmpty = false := by
        simpa using (mem_digits.1 some).1
      simp only [List.cons_append, List.append_assoc, spanExponent, if_pos mark,
        spanSign_of_mem hs hd rest, nonempty]
      exact List.cons_prefix_cons.2 ⟨rfl, (List.prefix_append_right_inj s).2 within⟩

/-- In front of the exponent there are only digits and the point. -/
theorem decimal_of_mem (word : w ∈ digits * fraction) : ∀ c ∈ w, c.isDigit = true ∨ c = '.' := by
  obtain ⟨d, hd, f, hf, rfl⟩ := Language.mem_mul.1 word
  refine List.forall_mem_append.2 ⟨fun c hc => .inl ((mem_digits.1 hd).2 c hc), ?_⟩
  rcases hf with rfl | hf
  · exact nofun
  · obtain ⟨c, v, rfl, hc, hv⟩ := mem_one_mul.1 hf
    refine List.forall_mem_cons.2 ⟨.inr (by simpa using hc), fun d hd => ?_⟩
    exact .inl ((mem_digits.1 hv).2 d hd)

theorem greedy_number : Greedy (pattern .number) spanNumber := by
  have whole := greedy_digits.append greedy_fraction nil_mem_fraction fun a c more v long word _ => by
    have digit : c.isDigit = true := (mem_digits.1 long).2 c (by simp)
    rcases word with word | word
    · cases word
    · exact ne_of_class digit rfl (by simpa using (cons_mem_one_mul.1 word).1)
  exact whole.append greedy_exponent nil_mem_exponent fun a c more v long word _ => by
    have decimal : c.isDigit = true ∨ c = '.' := decimal_of_mem long c (by simp)
    rcases word with word | word
    · cases word
    · have mark : c = 'e' ∨ c = 'E' := by simpa using (cons_mem_one_mul.1 word).1
      rcases mark with rfl | rfl <;> revert decimal <;> decide

/-! ## Quoted texts -/

theorem spanQuoted_cons (escape : c ≠ '\\') (cs : List Char) : spanQuoted quote (c :: cs) =
    if c = quote then (true, [c], cs)
    else ((spanQuoted quote cs).1, c :: (spanQuoted quote cs).2.1, (spanQuoted quote cs).2.2) := by
  rw [spanQuoted.eq_4]
  · exact fun h _ => escape h
  · exact fun _ _ h _ => escape h

theorem mem_inside : w ∈ inside quote ↔
    (∃ c, c ≠ quote ∧ c ≠ '\\' ∧ w = [c]) ∨ ∃ c, c ≠ '\n' ∧ w = ['\\', c] := by
  constructor
  · rintro (⟨c, hc, rfl⟩ | word)
    · exact .inl ⟨c, by simpa using hc⟩
    · obtain ⟨c, _, rfl, hc, d, hd, rfl⟩ := mem_one_mul.1 word
      obtain rfl : c = '\\' := by simpa using hc
      exact .inr ⟨d, by simpa using hd⟩
  · rintro (⟨c, free, escape, rfl⟩ | ⟨c, line, rfl⟩)
    · exact .inl ⟨c, by simp [free, escape]⟩
    · exact .inr (cons_mem_one_mul.2 ⟨rfl, c, by simp [line]⟩)

/-- What stands between the quotes can only be read in one way, to the quote that closes it. -/
theorem spanQuoted_of_mem (isQuote : quote ≠ '\\') (word : w ∈ (inside quote)∗ * one (· == quote))
    (rest : List Char) : spanQuoted quote (w ++ rest) = (true, w, rest) := by
  obtain ⟨v, hv, _, ⟨d, hd, rfl⟩, rfl⟩ := Language.mem_mul.1 word
  obtain rfl : d = quote := by simpa using hd
  obtain ⟨words, rfl, each⟩ := Language.mem_kstar.1 hv
  clear word hv
  induction words with
  | nil => simp [spanQuoted_cons isQuote]
  | cons piece words ih =>
    obtain ⟨hpiece, hwords⟩ := List.forall_mem_cons.1 each
    have step := ih hwords
    simp only [List.append_assoc, List.singleton_append] at step
    rcases mem_inside.1 hpiece with ⟨c, free, escape, rfl⟩ | ⟨c, line, rfl⟩
    · simp [spanQuoted_cons escape, free, step]
    · simp [spanQuoted, line, step]

theorem append_mem_inside {piece : List Char} (hpiece : piece ∈ inside quote)
    (hw : w ∈ (inside quote)∗ * L) : piece ++ w ∈ (inside quote)∗ * L := by
  obtain ⟨v, hv, u, hu, rfl⟩ := Language.mem_mul.1 hw
  rw [← List.append_assoc, ← Language.one_add_self_mul_kstar_eq_kstar]
  exact Language.append_mem_mul (.inr (Language.append_mem_mul hpiece hv)) hu

theorem mem_of_spanQuoted (h : spanQuoted quote cs = (true, taken, rest)) :
    taken ∈ (inside quote)∗ * one (· == quote) := by
  fun_induction spanQuoted quote cs generalizing taken with
  | case1 | case2 | case3 => cases h
  | case4 c cs line closed taken' rest' span ih =>
    cases h
    exact append_mem_inside (mem_inside.2 (.inr ⟨c, line, rfl⟩)) (ih span)
  | case5 cs =>
    cases h
    have hone : [quote] ∈ one (· == quote) := ⟨quote, by simp, rfl⟩
    exact Language.append_mem_mul (Language.nil_mem_kstar _) hone
  | case6 c cs last escape free closed taken' rest' span ih =>
    cases h
    have plain : c ≠ '\\' := by
      rintro rfl
      cases cs with
      | nil => exact last rfl rfl
      | cons d cs => exact escape d cs rfl rfl
    exact append_mem_inside (mem_inside.2 (.inl ⟨c, free, plain, rfl⟩)) (ih span)

/-! ## Symbols -/

theorem toList_mem_spelled {text : String} (listed : (text, t) ∈ symbols) : text.toList ∈ spelled t := by
  have : (String.ofList text.toList, t) ∈ symbols := by rwa [String.ofList_toList]
  exact this

theorem spelled_length_le (word : w ∈ spelled t) : w.length ≤ maxSymbolLength := by
  simpa using (symbols_begin _ word).1

theorem mem_pattern_of_mem_spelled (word : w ∈ spelled t) : w ∈ pattern t := by
  obtain ⟨number, name, double, single⟩ := symbols_symbolic _ word
  cases t <;> first | exact word | contradiction

/-- A spelling is that of one class. -/
theorem spelled_unique (word : w ∈ spelled t) (word' : w ∈ spelled token) : t = token :=
  Option.some.inj ((ofSymbol?_of_mem _ word).symm.trans (ofSymbol?_of_mem _ word'))

/-- Of the fixed spellings that begin the text, and are not too long, the longest one is found. -/
theorem longestSymbol_spec (cs : List Char) (n : Nat) :
    match longestSymbol cs n with
    | some (token, taken, _) => taken ∈ spelled token ∧
        ∀ t w, w ∈ spelled t → w <+: cs → w.length ≤ n → w.length ≤ taken.length
    | none => ∀ t w, w ∈ spelled t → w <+: cs → n < w.length := by
  induction n with
  | zero =>
    intro t w listed _
    obtain ⟨c, v, hv, -⟩ := exists_of_mem_symbols listed
    rw [String.toList_ofList] at hv
    simp [hv]
  | succ n ih =>
    rw [longestSymbol]
    cases found : ofSymbol? (cs.take (n + 1)) with
    | some token =>
      obtain ⟨⟨text, _⟩, listed, htext, rfl⟩ := mem_symbols_of_ofSymbol? found
      refine ⟨?_, fun t w _ front short => ?_⟩
      · exact htext ▸ toList_mem_spelled listed
      · exact (List.prefix_take_iff.2 ⟨front, short⟩).length_le
    | none =>
      -- no spelling is as long as that, so it is one of the shorter ones
      have shorter {t : Token} {w : List Char} (listed : w ∈ spelled t) (front : w <+: cs) :
          w.length ≠ n + 1 := by
        intro exact_length
        have known := ofSymbol?_of_mem _ listed
        rw [String.toList_ofList, List.prefix_iff_eq_take.1 front, exact_length, found] at known
        cases known
      dsimp only
      split at ih
      · refine ⟨ih.1, fun t w listed front short => ih.2 t w listed front ?_⟩
        have := shorter listed front
        omega
      · intro t w listed front
        have := shorter listed front
        have := ih t w listed front
        omega

/-! ## The first token -/

/-- The characters that a word of the class can begin with. -/
def starts : Token → Char → Bool
  | number => Char.isDigit
  | doubleQuoted => (· == '"')
  | singleQuoted => (· == '\'')
  | name => isNameStart
  | _ => beginsSymbol

theorem exists_start (word : w ∈ pattern t) : ∃ c v, w = c :: v ∧ starts t c = true := by
  cases t with
  | number =>
    obtain ⟨_, ⟨d, hd, f, -, rfl⟩, e, -, rfl⟩ := word
    obtain ⟨c, v, rfl, hc, -⟩ := mem_one_mul.1 hd
    exact ⟨c, v ++ f ++ e, rfl, hc⟩
  | doubleQuoted | singleQuoted | name =>
    obtain ⟨c, v, rfl, hc, -⟩ := mem_one_mul.1 word
    exact ⟨c, v, rfl, hc⟩
  | _ =>
    obtain ⟨c, v, hv, begins⟩ := exists_of_mem_symbols word
    exact ⟨c, v, by simpa using hv, begins⟩

/-- The first character tells the class, but for the fixed spellings. -/
theorem class_of_starts (h : starts t c = true) :
    if c.isDigit then t = number
    else if isNameStart c then t = name
    else if c = '"' ∨ c = '\'' then t = if c = '"' then doubleQuoted else singleQuoted
    else pattern t = spelled t := by
  cases t with
  | number =>
    have digit : c.isDigit = true := h
    simp [digit]
  | name =>
    have start : isNameStart c = true := h
    simp [isDigit_of_isNameStart start, start]
  | doubleQuoted | singleQuoted =>
    obtain rfl := eq_of_beq h
    rfl
  | _ =>
    simp only [starts, beginsSymbol, Bool.and_eq_true, Bool.not_eq_true', bne_iff_ne] at h
    simp [h]
    rfl

/-- The word is the longest one that begins the text, of all words of all classes, and is one of this
class only. -/
structure Munches (cs : List Char) (token : Token) (word : List Char) : Prop where
  front : word <+: cs
  matched : word ∈ pattern token
  longest : ∀ t w, w ∈ pattern t → w <+: cs → w.length ≤ word.length
  sole : ∀ t, word ∈ pattern t → t = token

theorem Greedy.munches {span : List Char → List Char × List Char} (greedy : Greedy (pattern token) span)
    (only : ∀ t w, w ∈ pattern t → w <+: cs → t = token) (word : w ∈ pattern token)
    (front : w <+: cs) : Munches cs token (span cs).1 := by
  have taken : (span cs).1 <+: cs := ⟨_, greedy.splits cs⟩
  refine ⟨taken, (greedy.longest word front).1, fun t v hv hfront => ?_, fun t ht => only t _ ht taken⟩
  obtain rfl := only t v hv hfront
  exact (greedy.longest hv hfront).2.length_le

/-- What a lexer of the first token comes to: it takes the longest word in front, or there is none. -/
def Finds (cs : List Char) : Except (List Char) (Token × List Char × List Char) → Prop
  | .ok (token, taken, _) => Munches cs token taken
  | .error _ => ∀ t w, w ∈ pattern t → ¬ w <+: cs

section First

variable {cs : List Char}

theorem starts_of_front (word : w ∈ pattern t) (front : w <+: c :: cs) : starts t c = true := by
  obtain ⟨d, v, rfl, hd⟩ := exists_start word
  obtain rfl := (List.cons_prefix_cons.1 front).1
  exact hd

theorem finds_number (digit : c.isDigit = true) : Finds (c :: cs) (first (c :: cs)) := by
  have only (t w) (word : w ∈ pattern t) (front : w <+: c :: cs) : t = number := by
    simpa [digit] using class_of_starts (starts_of_front word front)
  have alone : [c] ∈ pattern number := by
    have whole : [c] ∈ digits := mem_digits.2 (by simp [digit])
    exact Language.append_mem_mul (Language.append_mem_mul whole nil_mem_fraction) nil_mem_exponent
  simp only [first, digit, if_true]
  exact greedy_number.munches only alone (by simp)

theorem finds_name (noDigit : ¬ c.isDigit = true) (start : isNameStart c = true) :
    Finds (c :: cs) (first (c :: cs)) := by
  have only (t w) (word : w ∈ pattern t) (front : w <+: c :: cs) : t = name := by
    simpa [noDigit, start] using class_of_starts (starts_of_front word front)
  have alone : [c] ∈ pattern name := cons_mem_one_mul.2 ⟨start, Language.nil_mem_kstar _⟩
  simp only [first, noDigit, start, if_true, Bool.false_eq_true, if_false]
  exact greedy_name.munches only alone (by simp)

theorem finds_quoted (noDigit : ¬ c.isDigit = true) (noName : ¬ isNameStart c = true)
    (isQuote : c = '"' ∨ c = '\'') : Finds (c :: cs) (first (c :: cs)) := by
  let token := if c = '"' then doubleQuoted else singleQuoted
  have kind : pattern token = quoted c := by
    rcases isQuote with rfl | rfl <;> rfl
  have escape : c ≠ '\\' := by
    rcases isQuote with rfl | rfl <;> decide
  -- every word that begins the text is what the lexer takes
  have body {t w} (word : w ∈ pattern t) (front : w <+: c :: cs) : t = token ∧
      ∃ v more, w = c :: v ∧ spanQuoted c cs = (true, v, more) := by
    have htoken : t = token := by
      simpa [noDigit, noName, isQuote] using class_of_starts (starts_of_front word front)
    rw [htoken, kind] at word
    obtain ⟨d, v, rfl, hd, hv⟩ := mem_one_mul.1 word
    obtain ⟨rfl, more, rfl⟩ := List.cons_prefix_cons.1 front
    exact ⟨htoken, v, more, rfl, spanQuoted_of_mem escape hv more⟩
  simp only [first, noDigit, noName, isQuote, if_true, Bool.false_eq_true, if_false]
  rcases span : spanQuoted c cs with ⟨_ | _, taken, more⟩
  · intro t w word front
    obtain ⟨-, v, more', -, closed⟩ := body word front
    cases span.symm.trans closed
  · have front : c :: taken <+: c :: cs := by
      have whole := spanQuoted_append c cs
      rw [span] at whole
      exact ⟨more, congrArg _ whole⟩
    have matched : c :: taken ∈ pattern token :=
      kind ▸ cons_mem_one_mul.2 ⟨by simp, mem_of_spanQuoted span⟩
    refine ⟨front, matched, fun t w word hfront => ?_, fun t word => (body word front).1⟩
    obtain ⟨-, v, more', rfl, closed⟩ := body word hfront
    cases span.symm.trans closed
    exact le_rfl

theorem finds_symbol (noDigit : ¬ c.isDigit = true) (noName : ¬ isNameStart c = true)
    (noQuote : ¬ (c = '"' ∨ c = '\'')) : Finds (c :: cs) (first (c :: cs)) := by
  have only {t w} (word : w ∈ pattern t) (front : w <+: c :: cs) : w ∈ spelled t := by
    have kind := class_of_starts (starts_of_front word front)
    rw [if_neg noDigit, if_neg noName, if_neg noQuote] at kind
    exact kind ▸ word
  have spec := longestSymbol_spec (c :: cs) maxSymbolLength
  simp only [first, noDigit, noName, noQuote, Bool.false_eq_true, if_false]
  split at spec
  next token taken rest found =>
    rw [found]
    obtain ⟨listed, longest⟩ := spec
    have front : taken <+: c :: cs := ⟨rest, longestSymbol_append found⟩
    refine ⟨front, mem_pattern_of_mem_spelled listed, fun t w word hfront => ?_, fun t word => ?_⟩
    · exact longest t w (only word hfront) hfront (spelled_length_le (only word hfront))
    · exact spelled_unique (only word front) listed
  next found =>
    rw [found]
    intro t w word front
    have short := spelled_length_le (only word front)
    have long := spec t w (only word front) front
    omega

/-- The lexer takes the longest word in front, and fails only if there is none. -/
theorem first_spec (cs : List Char) : Finds cs (first cs) := by
  cases cs with
  | nil =>
    intro t w word front
    obtain ⟨c, v, rfl, -⟩ := exists_start word
    simp at front
  | cons c cs =>
    by_cases digit : c.isDigit = true
    · exact finds_number digit
    by_cases start : isNameStart c = true
    · exact finds_name digit start
    by_cases isQuote : c = '"' ∨ c = '\''
    · exact finds_quoted digit start isQuote
    · exact finds_symbol digit start isQuote

example : first "1.e+".toList = .ok (.number, ['1'], ['.', 'e', '+']) := by decide

end First

/-! ## Longest words -/

theorem Munches.unique {w' : List Char} (h : Munches cs token w) (h' : Munches cs t w') :
    token = t ∧ w = w' := by
  have same : w = w' := by
    have le := h.longest t w' h'.matched h'.front
    have ge := h'.longest token w h.matched h.front
    exact List.IsPrefix.eq_of_length (List.prefix_of_prefix_length_le h.front h'.front ge) (by omega)
  subst same
  exact ⟨h'.sole token h.matched, rfl⟩

/-- The longest word in front stays the longest if less follows it. -/
theorem Munches.truncate {more : List Char} (h : Munches cs token w) (front : w <+: more)
    (less : more <+: cs) : Munches more token w where
  front := front
  matched := h.matched
  longest t v hv hfront := h.longest t v hv (hfront.trans less)
  sole := h.sole

/-- Whatever the longest word in front is, the lexer finds it. -/
theorem Munches.first_eq (h : Munches (w ++ rest) token w) :
    first (w ++ rest) = .ok (token, w, rest) := by
  have spec := first_spec (w ++ rest)
  cases found : first (w ++ rest) with
  | error piece =>
    rw [found] at spec
    exact absurd h.front (spec token w h.matched)
  | ok result =>
    obtain ⟨t, taken, rest'⟩ := result
    rw [found] at spec
    obtain ⟨rfl, rfl⟩ := h.unique spec
    rw [List.append_cancel_left (first_append found)]

end LiveTemplate.Token
