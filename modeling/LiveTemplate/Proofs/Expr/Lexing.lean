import Mathlib
import LiveTemplate.Proofs.Template.Region

/-!
# What written tokens are cut into

A token is cut off a text as it was written if what follows cannot go on with it: no letter or digit
behind a name, nothing that a number could take behind a number, no character that makes a longer
symbol behind a symbol (`Token.first_name`, `Token.first_number`, `Token.first_symbol`). So a text
that is put together from tokens is cut into these, from the last one to the first (`Token.Cuts`).
-/
namespace LiveTemplate.Token

/-- The text does not begin with a character of the class. -/
def Stops (p : Char → Bool) (cs : List Char) : Prop := ∀ c ∈ cs.head?, p c = false

theorem stops_nil (p : Char → Bool) : Stops p [] := nofun

theorem stops_cons {p : Char → Bool} {c : Char} (h : p c = false) (cs : List Char) :
    Stops p (c :: cs) := by
  rintro _ ⟨⟩
  exact h

theorem stops_dropWhile (p : Char → Bool) (cs : List Char) : Stops p (cs.dropWhile p) := by
  intro c hc
  have first := List.head?_dropWhile_not p cs
  rw [Option.mem_def.1 hc] at first
  exact first

/-- The characters that can follow a phrase. -/
def isCloser (c : Char) : Bool :=
  [' ', ')', ']', ',', '\x7d', ':'].contains c

/-- The text is at its end, or goes on with what can follow a phrase. -/
def Closes (cs : List Char) : Prop := Stops (fun c => !isCloser c) cs

theorem closes_nil : Closes [] := stops_nil _

theorem closes_cons {c : Char} (h : isCloser c = true) (cs : List Char) : Closes (c :: cs) :=
  stops_cons (by simp [h]) cs

theorem Closes.stops {cs : List Char} (h : Closes cs) {p : Char → Bool}
    (apart : [' ', ')', ']', ',', '\x7d', ':'].all (fun c => !p c) = true) :
    Stops p cs := fun c hc => by
  have closer := h c hc
  simp only [isCloser, Bool.not_eq_false', List.contains_eq_mem, decide_eq_true_eq] at closer
  simpa using List.all_eq_true.1 apart c closer

/-- A run of a class ends where the class stops. -/
theorem span_append {p : Char → Bool} {rest : List Char} (stops : Stops p rest)
    (cs : List Char) : (cs ++ rest).takeWhile p = cs.takeWhile p ∧
      (cs ++ rest).dropWhile p = cs.dropWhile p ++ rest := by
  induction cs with
  | nil =>
    cases rest with
    | nil => exact ⟨rfl, rfl⟩
    | cons c rest => simp [stops c rfl]
  | cons c cs ih =>
    by_cases h : p c = true
    · simpa [h] using ih
    · simp [h]

/-! ## The first token -/

/-- The fixed spellings are symbols and no other kind of token. -/
theorem symbols_symbolic : ∀ entry ∈ symbols,
    entry.2 ≠ .number ∧ entry.2 ≠ .name ∧ entry.2 ≠ .doubleQuoted ∧ entry.2 ≠ .singleQuoted := by
  decide

theorem mem_symbols_of_ofSymbol? {cs : List Char} {token : Token} (h : ofSymbol? cs = some token) :
    ∃ entry ∈ symbols, entry.1.toList = cs ∧ entry.2 = token := by
  obtain ⟨entry, hfind, rfl⟩ := Option.map_eq_some_iff.1 h
  exact ⟨entry, List.mem_of_find?_eq_some hfind, by simpa using List.find?_some hfind, rfl⟩

/-- What the first token of a text can be. -/
inductive FirstOf : List Char → Token → List Char → List Char → Prop where
  | number {c : Char} {cs taken rest : List Char} (digit : c.isDigit = true)
      (span : spanNumber (c :: cs) = (taken, rest)) : FirstOf (c :: cs) .number taken rest
  | name {c : Char} {cs : List Char} (start : isNameStart c = true) (noDigit : c.isDigit = false) :
      FirstOf (c :: cs) .name ((c :: cs).takeWhile isNameRest) ((c :: cs).dropWhile isNameRest)
  | quoted {quote : Char} {token : Token} {cs body rest : List Char}
      (isQuote : quote = '"' ∧ token = .doubleQuoted ∨ quote = '\'' ∧ token = .singleQuoted)
      (span : spanQuoted quote cs = (true, body, rest)) :
      FirstOf (quote :: cs) token (quote :: body) rest
  | symbol {cs taken rest : List Char} {token : Token}
      (longest : longestSymbol cs maxSymbolLength = some (token, taken, rest)) :
      FirstOf cs token taken rest

theorem firstOf_of_first {cs taken rest : List Char} {token : Token}
    (h : first cs = .ok (token, taken, rest)) : FirstOf cs token taken rest := by
  unfold first at h
  split at h
  next => cases h
  next c cs =>
    split at h
    next digit =>
      obtain ⟨rfl, span⟩ := Prod.mk.inj (Except.ok.inj h)
      exact .number digit span
    next noDigit =>
      split at h
      next start =>
        cases h
        exact .name start (by simpa using noDigit)
      next =>
        split at h
        next isQuote =>
          dsimp only at h
          split at h
          next closed =>
            cases h
            refine .quoted ?_ (Prod.ext closed rfl)
            rcases isQuote with rfl | rfl <;> simp
          next => cases h
        next =>
          split at h
          next longest =>
            cases h
            exact .symbol longest
          next => cases h

theorem symbolic_of_longestSymbol {cs taken rest : List Char} {n : Nat} {token : Token}
    (h : longestSymbol cs n = some (token, taken, rest)) :
    token ≠ .number ∧ token ≠ .name ∧ token ≠ .doubleQuoted ∧ token ≠ .singleQuoted := by
  obtain ⟨entry, listed, -, rfl⟩ := mem_symbols_of_ofSymbol? (Chunk.ofSymbol?_of_longestSymbol h)
  exact symbols_symbolic entry listed

theorem first_eq_name {cs taken rest : List Char} (h : first cs = .ok (.name, taken, rest)) :
    ∃ c cs', cs = c :: cs' ∧ isNameStart c = true ∧ c.isDigit = false ∧
      cs.takeWhile isNameRest = taken ∧ cs.dropWhile isNameRest = rest := by
  cases firstOf_of_first h with
  | name start noDigit => exact ⟨_, _, rfl, start, noDigit, rfl, rfl⟩
  | quoted isQuote => simp at isQuote
  | symbol longest => exact absurd rfl (symbolic_of_longestSymbol longest).2.1

theorem first_eq_number {cs taken rest : List Char} (h : first cs = .ok (.number, taken, rest)) :
    ∃ c cs', cs = c :: cs' ∧ c.isDigit = true ∧ spanNumber cs = (taken, rest) := by
  cases firstOf_of_first h with
  | number digit span => exact ⟨_, _, rfl, digit, span⟩
  | quoted isQuote => simp at isQuote
  | symbol longest => exact absurd rfl (symbolic_of_longestSymbol longest).1

/-! ## Names and numbers -/

/-- The text is one token of the kind. -/
def Is (token : Token) (text : String) : Prop := first text.toList = .ok (token, text.toList, [])

instance (token : Token) (text : String) : Decidable (Is token text) :=
  inferInstanceAs (Decidable (first text.toList = .ok (token, text.toList, [])))

theorem first_name {text : String} (h : Is .name text) {rest : List Char}
    (stops : Stops isNameRest rest) :
    first (text.toList ++ rest) = .ok (.name, text.toList, rest) := by
  obtain ⟨c, cs, hcs, start, noDigit, htake, hdrop⟩ := first_eq_name h
  obtain ⟨take_append, drop_append⟩ := span_append stops text.toList
  rw [htake] at take_append
  rw [hdrop, List.nil_append] at drop_append
  rw [hcs, List.cons_append] at take_append drop_append ⊢
  simp only [first, noDigit, start, Bool.false_eq_true, if_false, if_true, take_append, drop_append]

theorem spanFraction_closes {rest : List Char} (closes : Closes rest) (cs : List Char) :
    spanFraction (cs ++ rest) = ((spanFraction cs).1, (spanFraction cs).2 ++ rest) := by
  have digits := span_append (closes.stops (p := Char.isDigit) (by decide))
  cases cs with
  | nil =>
    have point : Stops (· == '.') rest := closes.stops (by decide)
    cases rest with
    | nil => rfl
    | cons c rest =>
      have hc : c ≠ '.' := by simpa using point c rfl
      simp [spanFraction, hc]
  | cons c cs =>
    by_cases hc : c = '.'
    · subst hc
      simp only [List.cons_append, spanFraction, (digits cs).1, (digits cs).2]
      split <;> rfl
    · simp [spanFraction, hc]

theorem spanSign_closes {rest : List Char} (closes : Closes rest) (cs : List Char) :
    spanSign (cs ++ rest) = ((spanSign cs).1, (spanSign cs).2 ++ rest) := by
  cases cs with
  | nil =>
    have sign : Stops (fun c => c == '+' || c == '-') rest := closes.stops (by decide)
    cases rest with
    | nil => rfl
    | cons c rest =>
      have hc : c ≠ '+' ∧ c ≠ '-' := by simpa using sign c rfl
      simp [spanSign, hc]
  | cons c cs =>
    rw [List.cons_append]
    unfold spanSign
    split <;> simp_all

theorem spanExponent_closes {rest : List Char} (closes : Closes rest) (cs : List Char) :
    spanExponent (cs ++ rest) = ((spanExponent cs).1, (spanExponent cs).2 ++ rest) := by
  have digits := span_append (closes.stops (p := Char.isDigit) (by decide))
  cases cs with
  | nil =>
    have mark : Stops (fun c => c == 'e' || c == 'E') rest := closes.stops (by decide)
    cases rest with
    | nil => rfl
    | cons c rest =>
      have hc : c ≠ 'e' ∧ c ≠ 'E' := by simpa using mark c rfl
      simp [spanExponent, hc]
  | cons c cs =>
    by_cases hc : c = 'e' ∨ c = 'E'
    · simp only [List.cons_append, spanExponent, hc, if_true, spanSign_closes closes, (digits _).1,
        (digits _).2]
      split <;> rfl
    · simp [spanExponent, hc]

theorem spanNumber_closes {rest : List Char} (closes : Closes rest) (cs : List Char) :
    spanNumber (cs ++ rest) = ((spanNumber cs).1, (spanNumber cs).2 ++ rest) := by
  obtain ⟨whole, after⟩ := span_append (closes.stops (p := Char.isDigit) (by decide)) cs
  simp only [spanNumber, whole, after, spanFraction_closes closes, spanExponent_closes closes]

theorem first_number {text : String} (h : Is .number text) {rest : List Char} (closes : Closes rest) :
    first (text.toList ++ rest) = .ok (.number, text.toList, rest) := by
  obtain ⟨c, cs, hcs, digit, hspan⟩ := first_eq_number h
  have hclosed := spanNumber_closes closes text.toList
  rw [hspan, List.nil_append] at hclosed
  rw [hcs, List.cons_append] at hclosed ⊢
  simp only [first, digit, if_true, hclosed]

/-! ## Symbols -/

/-- The characters that make a longer symbol of a symbol. -/
def joins (c : Char) : Bool :=
  ['=', '&', '|', '*'].contains c

/-- The characters that begin a symbol and no other token. -/
def beginsSymbol (c : Char) : Bool :=
  !c.isDigit && !isNameStart c && c != '"' && c != '\'' && !isGap c

theorem symbols_begin : ∀ entry ∈ symbols, entry.1.toList.length ≤ maxSymbolLength ∧
    entry.1.toList.head?.any beginsSymbol = true := by
  decide

theorem exists_of_mem_symbols {text : String} {token : Token} (listed : (text, token) ∈ symbols) :
    ∃ c cs, text.toList = c :: cs ∧ beginsSymbol c = true := by
  obtain ⟨c, hc, begins⟩ := (Option.any_eq_true _ _).1 (symbols_begin _ listed).2
  exact ⟨c, _, (List.cons_head?_tail hc).symm, begins⟩

theorem ofSymbol?_of_mem : ∀ entry ∈ symbols, ofSymbol? entry.1.toList = some entry.2 := by
  decide +kernel

set_option maxRecDepth 20000 in
/-- What is longer than a symbol and begins with it goes on with a joining character. -/
theorem symbols_apart : ∀ entry ∈ symbols, ∀ entry' ∈ symbols,
    entry.1.toList.isPrefixOf entry'.1.toList = true → entry.1 = entry'.1 ∨
      (entry'.1.toList.drop entry.1.toList.length).head?.any joins = true := by
  decide +kernel

/-- No symbol that begins the text and what follows is longer than the text. -/
def Apart (text : String) (rest : List Char) : Prop :=
  ∀ entry ∈ symbols, entry.1.toList <+: text.toList ++ rest →
    entry.1.toList.length ≤ text.toList.length

/-- No symbol begins with another one of this text. -/
def isAlone (text : String) : Bool :=
  symbols.all fun entry => !text.toList.isPrefixOf entry.1.toList || entry.1 == text

theorem apart_of_isAlone {text : String} (alone : isAlone text = true) (rest : List Char) :
    Apart text rest := fun entry listed begins => by
  by_contra longer
  have within : text.toList <+: entry.1.toList :=
    List.prefix_of_prefix_length_le (List.prefix_append _ _) begins (by omega)
  have same : entry.1 = text := by
    simpa [List.isPrefixOf_iff_prefix.2 within] using List.all_eq_true.1 alone entry listed
  exact longer (by rw [same])

theorem apart_of_stops {text : String} {token : Token} (listed : (text, token) ∈ symbols)
    {rest : List Char} (stops : Stops joins rest) : Apart text rest := fun entry listed' begins => by
  by_contra longer
  have within : text.toList <+: entry.1.toList :=
    List.prefix_of_prefix_length_le (List.prefix_append _ _) begins (by omega)
  obtain ⟨more, hmore⟩ := within
  rcases symbols_apart _ listed _ listed' (List.isPrefixOf_iff_prefix.2 ⟨more, hmore⟩) with same | hjoins
  · exact longer (by rw [← show text = entry.1 from same])
  · have follows : more <+: rest := by
      rw [← hmore] at begins
      exact (List.prefix_append_right_inj _).1 begins
    rw [← hmore, List.drop_left] at hjoins
    cases more with
    | nil => cases hjoins
    | cons c more =>
      obtain ⟨after, rfl⟩ := follows
      exact absurd hjoins (by simpa using stops c rfl)

theorem longestSymbol_of_mem {text : String} {token : Token} (listed : (text, token) ∈ symbols)
    {rest : List Char} (apart : Apart text rest) {n : Nat} (enough : text.toList.length ≤ n) :
    longestSymbol (text.toList ++ rest) n = some (token, text.toList, rest) := by
  have known : ofSymbol? text.toList = some token := ofSymbol?_of_mem _ listed
  induction n with
  | zero =>
    obtain ⟨c, cs, hcs, -⟩ := exists_of_mem_symbols listed
    simp [hcs] at enough
  | succ n ih =>
    rw [longestSymbol]
    by_cases all : (text.toList ++ rest).take (n + 1) = text.toList
    · have hdrop : (text.toList ++ rest).drop (n + 1) = rest := by
        have whole := List.take_append_drop (n + 1) (text.toList ++ rest)
        rw [all] at whole
        exact List.append_cancel_left whole
      rw [all, known, hdrop]
    · have none_longer : ofSymbol? ((text.toList ++ rest).take (n + 1)) = none := by
        refine Option.eq_none_iff_forall_ne_some.2 fun token' h => all ?_
        obtain ⟨entry, listed', hentry, -⟩ := mem_symbols_of_ofSymbol? h
        have short := apart entry listed' (hentry ▸ List.take_prefix _ _)
        rw [hentry] at short
        rw [List.take_append, List.take_of_length_le enough] at short ⊢
        have nothing : (rest.take (n + 1 - text.toList.length)).length = 0 := by
          rw [List.length_append] at short
          omega
        rw [List.length_eq_zero_iff.1 nothing, List.append_nil]
      rw [none_longer]
      refine ih (Nat.le_of_lt_succ (Nat.lt_of_le_of_ne enough fun exact => all ?_))
      rw [show n + 1 = text.toList.length from exact.symm, List.take_left]

theorem first_symbol {text : String} {token : Token} (listed : (text, token) ∈ symbols)
    {rest : List Char} (apart : Apart text rest) :
    first (text.toList ++ rest) = .ok (token, text.toList, rest) := by
  have longest := longestSymbol_of_mem listed apart (symbols_begin _ listed).1
  obtain ⟨c, cs, hcs, begins⟩ := exists_of_mem_symbols listed
  simp only [beginsSymbol, Bool.and_eq_true, Bool.not_eq_true', bne_iff_ne] at begins
  obtain ⟨⟨⟨⟨digit, start⟩, double⟩, single⟩, -⟩ := begins
  rw [hcs, List.cons_append] at longest ⊢
  simp only [first, digit, start, double, single, or_self, Bool.false_eq_true, if_false, longest]

/-! ## Quoted texts -/

theorem first_quoted {body rest : List Char}
    (span : spanQuoted '"' (body ++ '"' :: rest) = (true, body ++ ['"'], rest)) :
    first ('"' :: (body ++ '"' :: rest)) = .ok (.doubleQuoted, '"' :: (body ++ ['"']), rest) := by
  have start : isNameStart '"' = false ∧ Char.isDigit '"' = false := by decide
  simp [first, start, span]

/-! ## Cutting -/

/-- A text that tokenizes has no token, or a first one in front of a text that tokenizes. -/
theorem cut_eq_ok {offset : Nat} {cs : List Char} {ts : List Lexeme} (h : cut offset cs = .ok ts) :
    (cs.dropWhile isGap = [] ∧ ts = []) ∨ ∃ token taken rest us,
      first (cs.dropWhile isGap) = .ok (token, taken, rest) ∧
      cut (offset + Text.width (cs.takeWhile isGap) + Text.width taken) rest = .ok us ∧
      ts = ⟨token, String.ofList taken, offset + Text.width (cs.takeWhile isGap)⟩ :: us := by
  rw [cut] at h
  dsimp only at h
  split at h
  next hrest => exact .inl ⟨List.isEmpty_iff.1 hrest, (Except.ok.inj h).symm⟩
  next =>
    split at h
    next => cases h
    next token taken rest hfirst =>
      obtain ⟨us, hcut, hus⟩ := Expr.map_eq_ok.1 h
      exact .inr ⟨token, taken, rest, us, hfirst, hcut, hus.symm⟩

/-- A text without a gap in front that tokenizes has its first token in front. -/
theorem cut_cons {offset : Nat} {cs taken rest : List Char} {token : Token} {ts : List Lexeme}
    (noGap : Stops isGap cs) (hfirst : first cs = .ok (token, taken, rest))
    (h : cut offset cs = .ok ts) :
    ∃ t us later, ts = t :: us ∧ t.token = token ∧ t.text = String.ofList taken ∧
      cut later rest = .ok us := by
  have whole : cs.dropWhile isGap = cs := by simpa using (span_append noGap []).2
  rcases cut_eq_ok h with ⟨hnil, -⟩ | ⟨token', taken', rest', us, hfirst', hcut, rfl⟩
  · rw [← whole, hnil] at hfirst
    cases hfirst
  · rw [whole, hfirst] at hfirst'
    cases hfirst'
    exact ⟨_, us, _, rfl, rfl, rfl, hcut⟩

/-- Every token is the first one of its text and what follows. -/
theorem first_of_mem_cut {offset : Nat} {cs : List Char} {ts : List Lexeme}
    (h : cut offset cs = .ok ts) :
    ∀ t ∈ ts, ∃ rest, first (t.text.toList ++ rest) = .ok (t.token, t.text.toList, rest) := by
  induction ts generalizing offset cs with
  | nil => exact nofun
  | cons t ts ih =>
    rcases cut_eq_ok h with ⟨-, hnil⟩ | ⟨token, taken, rest, us, hfirst, hcut, hcons⟩
    · cases hnil
    · obtain ⟨rfl, rfl⟩ := List.cons.inj hcons
      refine List.forall_mem_cons.2 ⟨⟨rest, ?_⟩, ih hcut⟩
      rw [String.toList_ofList, first_append hfirst]
      exact hfirst

/-- Wherever it starts, the text is cut into tokens with the property. -/
def Cuts (cs : List Char) (P : List Lexeme → Prop) : Prop :=
  ∀ offset, ∃ ts, cut offset cs = .ok ts ∧ P ts

/-- The first of the tokens, and the property of the others. -/
def Heads (token : Token) (text : List Char) (P : List Lexeme → Prop) (ts : List Lexeme) : Prop :=
  ∃ t us, ts = t :: us ∧ t.token = token ∧ t.text = String.ofList text ∧ P us

/-- In front of what can follow a phrase, the text is cut into tokens with the property. -/
def Spells (cs : List Char) (Q : List Lexeme → Prop) : Prop :=
  ∀ ⦃rest P⦄, Closes rest → Cuts rest P →
    Cuts (cs ++ rest) fun ts => ∃ us vs, ts = us ++ vs ∧ Q us ∧ P vs

variable {P Q : List Lexeme → Prop} {cs taken rest : List Char} {token : Token}

theorem Cuts.imp (h : Cuts cs P) (imp : ∀ ts, P ts → Q ts) : Cuts cs Q := fun offset => by
  obtain ⟨ts, hcut, hts⟩ := h offset
  exact ⟨ts, hcut, imp ts hts⟩

/-- A whole text is cut into such tokens. -/
theorem Spells.tokenize {source : String} (h : Spells source.toList Q) :
    ∃ ts, tokenize source = .ok ts ∧ Q ts := by
  have nothing : Cuts [] (· = []) := fun offset => ⟨[], by simp [cut], rfl⟩
  obtain ⟨_, hcut, us, _, rfl, hQ, rfl⟩ := h closes_nil nothing 0
  rw [List.append_nil, List.append_nil] at hcut
  exact ⟨us, hcut, hQ⟩

theorem Cuts.gap (h : Cuts cs P) {c : Char} (isGap : isGap c = true) : Cuts (c :: cs) P :=
    fun offset => by
  obtain ⟨ts, hcut, hts⟩ := h (offset + c.utf8Size)
  refine ⟨ts, ?_, hts⟩
  have drop : (c :: cs).dropWhile Token.isGap = cs.dropWhile Token.isGap :=
    List.dropWhile_cons_of_pos isGap
  rw [← hcut, cut, cut, List.takeWhile_cons_of_pos isGap, Text.width_cons, ← Nat.add_assoc]
  dsimp only
  generalize (c :: cs).dropWhile Token.isGap = left at drop ⊢
  rw [drop]

theorem Cuts.cons (h : Cuts rest P) (noGap : Stops isGap cs)
    (hfirst : first cs = .ok (token, taken, rest)) : Cuts cs (Heads token taken P) :=
    fun offset => by
  obtain ⟨ts, hcut, hts⟩ := h (offset + Text.width taken)
  have whole : cs.takeWhile isGap = [] ∧ cs.dropWhile isGap = cs := by
    simpa using span_append noGap []
  have inside : cs.dropWhile isGap ≠ [] := by
    rw [whole.2]
    rintro rfl
    cases hfirst
  have hcut' : cut (offset + Text.width (cs.takeWhile isGap) + Text.width taken) rest = .ok ts := by
    rwa [whole.1, Text.width_nil, Nat.add_zero]
  rw [← whole.2] at hfirst
  exact ⟨_, cut_of_first inside hfirst hcut', _, ts, rfl, rfl, rfl, hts⟩

theorem isGap_of_isNameRest {c : Char} (h : isNameRest c = true) : isGap c = false := by
  refine Bool.of_not_eq_true fun gap => ?_
  simp only [isGap, Bool.or_eq_true, beq_iff_eq] at gap
  rcases gap with (((rfl | rfl) | rfl) | rfl) | rfl <;> revert h <;> decide

theorem isNameRest_of_isNameStart {c : Char} (h : isNameStart c = true) : isNameRest c = true := by
  simp only [isNameStart, isNameRest, Char.isAlphanum, Bool.or_eq_true] at h ⊢
  rcases h with (h | h) | h <;> simp [h]

theorem Cuts.name (h : Cuts rest P) {text : String} (isName : Is .name text)
    (stops : Stops isNameRest rest) : Cuts (text.toList ++ rest) (Heads .name text.toList P) := by
  refine h.cons ?_ (first_name isName stops)
  obtain ⟨c, cs, hcs, start, -⟩ := first_eq_name isName
  exact hcs ▸ stops_cons (isGap_of_isNameRest (isNameRest_of_isNameStart start)) _

theorem Cuts.number (h : Cuts rest P) {text : String} (isNumber : Is .number text)
    (closes : Closes rest) : Cuts (text.toList ++ rest) (Heads .number text.toList P) := by
  refine h.cons ?_ (first_number isNumber closes)
  obtain ⟨c, cs, hcs, digit, -⟩ := first_eq_number isNumber
  have isRest : isNameRest c = true := by simp [isNameRest, Char.isAlphanum, digit]
  exact hcs ▸ stops_cons (isGap_of_isNameRest isRest) _

theorem Cuts.symbol (h : Cuts rest P) {text : String} (listed : (text, token) ∈ symbols)
    (apart : Apart text rest) : Cuts (text.toList ++ rest) (Heads token text.toList P) := by
  refine h.cons ?_ (first_symbol listed apart)
  obtain ⟨c, cs, hcs, begins⟩ := exists_of_mem_symbols listed
  simp only [beginsSymbol, Bool.and_eq_true, Bool.not_eq_true'] at begins
  exact hcs ▸ stops_cons begins.2 _

/-- A symbol that begins no other one is cut off in front of anything. -/
theorem Cuts.alone (h : Cuts rest P) (text : String) (token : Token)
    (alone : (text, token) ∈ symbols ∧ isAlone text = true) :
    Cuts (text.toList ++ rest) (Heads token text.toList P) :=
  h.symbol alone.1 (apart_of_isAlone alone.2 rest)

theorem Cuts.quoted (h : Cuts rest P) {body : List Char}
    (span : spanQuoted '"' (body ++ '"' :: rest) = (true, body ++ ['"'], rest)) :
    Cuts ('"' :: (body ++ '"' :: rest)) (Heads .doubleQuoted ('"' :: (body ++ ['"'])) P) :=
  h.cons (stops_cons (by decide) _) (first_quoted span)

end LiveTemplate.Token
