import Mathlib
import LiveTemplate.Path.Parser
import LiveTemplate.Evaluation
import LiveTemplate.Proofs.Expr.Display
import LiveTemplate.Proofs.Path.Grammar

/-!
# Paths alone and paths in expressions

A path is read twice: on its own, where a quoted key ends at the next quote, and as an expression, where
a backslash in quotes takes the next character with it and the content is unescaped. A text that both
accept is cut at the same quotes, for readers that disagree once on being inside quotes disagree to the
end of the text (`Quoting.lasting`). So both find the same segments, but for the escapes of the keys
(`Expr.parse_path`).
-/
namespace LiveTemplate

/-! ## Two views of quotes -/

namespace Quoting

def isQuote (c : Char) : Bool := c == '"' || c == '\''

/-- The quote that is open after a character, if it was open before it or not. -/
def step (state : Option Char) (c : Char) : Option Char :=
  match state with
  | none => if isQuote c then some c else none
  | some quote => if c = quote then none else some quote

/-- Whether all quotes are closed at the end, with no escapes; outside quotes there is no backslash. -/
def plain (state : Option Char) : List Char → Bool
  | [] => state.isNone
  | c :: cs => (state.isSome || c != '\\') && plain (step state c) cs

/-- Whether all quotes are closed at the end, with a backslash in quotes taking the next character along
with it. -/
def escaped (state : Option Char) : List Char → Bool
  | [] => state.isNone
  | c :: cs =>
    if state.isSome ∧ c = '\\' then
      match cs with
      | [] => false
      | d :: cs => d != '\n' && escaped state cs
    else escaped (step state c) cs

theorem escaped_cons {state : Option Char} {c : Char} (h : state = none ∨ c ≠ '\\') (cs : List Char) :
    escaped state (c :: cs) = escaped (step state c) cs := by
  have alone : ¬ (state.isSome = true ∧ c = '\\') := by
    rintro ⟨hsome, rfl⟩
    rcases h with rfl | h
    · cases hsome
    · exact h rfl
  rw [escaped.eq_def]
  exact if_neg alone

theorem escaped_pair (quote d : Char) (cs : List Char) :
    escaped (some quote) ('\\' :: d :: cs) = (d != '\n' && escaped (some quote) cs) := by
  rw [escaped.eq_def]
  rfl

/-- The open quote is a quote. -/
def Valid (state : Option Char) : Prop := ∀ c ∈ state, isQuote c = true

theorem valid_none : Valid none := nofun

theorem valid_some {c : Char} (h : isQuote c = true) : Valid (some c) := by
  rintro _ ⟨⟩
  exact h

theorem ne_backslash {c : Char} (h : isQuote c = true) : c ≠ '\\' := by
  rintro rfl
  cases h

theorem Valid.step {state : Option Char} (h : Valid state) (c : Char) : Valid (step state c) := by
  unfold Quoting.step
  split
  · split
    next hc => exact valid_some hc
    next => exact valid_none
  · split
    · exact valid_none
    · exact h

theorem step_some (quote c : Char) : step (some quote) c = none ∨ step (some quote) c = some quote := by
  unfold step
  dsimp only
  split <;> simp

/-- A character keeps the inside and the outside of quotes apart. -/
theorem step_inside_ne {quote : Char} (h : isQuote quote = true) (c : Char) :
    step (some quote) c ≠ step none c := by
  unfold step
  dsimp only
  split_ifs with hquote hc hc
  · nofun
  · exact absurd (hquote ▸ h) hc
  · exact fun h => hquote (Option.some.inj h).symm
  · nofun

theorem step_ne {p e : Option Char} (hp : Valid p) (he : Valid e) (ne : p ≠ e) (c : Char) :
    step p c ≠ step e c := by
  rcases p with _ | r <;> rcases e with _ | q
  · exact absurd rfl ne
  · exact (step_inside_ne (he q rfl) c).symm
  · exact step_inside_ne (hp r rfl) c
  · have hrq : r ≠ q := fun h => ne (by rw [h])
    by_cases hcr : c = r <;> by_cases hcq : c = q <;> simp_all [step]

/-- Views that differ at one point differ to the end, where both have to be outside quotes. -/
theorem lasting {p e : Option Char} (ne : p ≠ e) (hp : Valid p) (he : Valid e) {cs : List Char}
    (closed : escaped e cs = true) : plain p cs = false := by
  fun_induction escaped e cs generalizing p with
  | case1 e => cases p <;> cases e <;> simp_all [plain]
  | case2 => cases closed
  | case3 e c inside d cs ih =>
    obtain ⟨hsome, rfl⟩ := inside
    simp only [Bool.and_eq_true] at closed
    cases p with
    | none => rfl
    | some r =>
      have hr := ne_backslash (hp r rfl)
      have hstep : step (some r) '\\' = some r := if_neg hr.symm
      have hne : step (some r) d ≠ e := by
        rcases step_some r d with h | h
        · rw [h]
          rintro rfl
          cases hsome
        · rwa [h]
      have := ih hne (hp.step d) he closed.2
      simp [plain, hstep, this]
  | case4 e c cs _ ih =>
    rw [plain, ih (step_ne hp he ne c) (hp.step c) (he.step c) closed, Bool.and_false]

/-! ### What a path reads -/

theorem plain_append {cs : List Char} (free : ∀ c ∈ cs, isQuote c = false ∧ c ≠ '\\') (rest : List Char) :
    plain none (cs ++ rest) = plain none rest := by
  induction cs with
  | nil => rfl
  | cons c cs ih =>
    obtain ⟨⟨hquote, hescape⟩, hcs⟩ := List.forall_mem_cons.1 free
    simp [plain, step, hquote, hescape, ih hcs]

theorem splitAtQuote_cons {quote c : Char} {cs key rest : List Char} (ne : c ≠ quote)
    (h : Path.splitAtQuote quote (c :: cs) = some (key, rest)) :
    ∃ key', key = c :: key' ∧ Path.splitAtQuote quote cs = some (key', rest) := by
  rw [Path.splitAtQuote, if_neg ne] at h
  obtain ⟨⟨key', _⟩, hsplit, hend⟩ := Option.map_eq_some_iff.1 h
  obtain ⟨rfl, rfl⟩ := Prod.mk.inj hend
  exact ⟨key', rfl, hsplit⟩

theorem plain_of_splitAtQuote {quote : Char} {cs key rest : List Char}
    (h : Path.splitAtQuote quote cs = some (key, rest)) : plain (some quote) cs = plain none rest := by
  induction cs generalizing key with
  | nil => cases h
  | cons c cs ih =>
    by_cases hc : c = quote
    · obtain ⟨-, rfl⟩ := by simpa [Path.splitAtQuote, hc] using h
      simp [plain, step, hc]
    · obtain ⟨key', -, hsplit⟩ := splitAtQuote_cons hc h
      simp [plain, step, hc, ih hsplit]

/-! ### What the lexer takes -/

theorem escaped_append {cs : List Char} (free : ∀ c ∈ cs, isQuote c = false) (rest : List Char) :
    escaped none (cs ++ rest) = escaped none rest := by
  induction cs with
  | nil => rfl
  | cons c cs ih =>
    obtain ⟨hquote, hcs⟩ := List.forall_mem_cons.1 free
    rw [List.cons_append, escaped_cons (.inl rfl)]
    simp [step, hquote, ih hcs]

theorem escaped_of_spanQuoted {quote : Char} (isQuote : isQuote quote = true)
    {cs taken rest : List Char} (h : Token.spanQuoted quote cs = (true, taken, rest)) :
    escaped (some quote) cs = escaped none rest := by
  fun_induction Token.spanQuoted quote cs generalizing taken rest with
  | case1 | case2 | case3 => cases h
  | case4 c cs hc closed taken' rest' heq ih =>
    obtain ⟨rfl, -, rfl⟩ := by simpa using h
    simp [escaped_pair, hc, ih heq]
  | case5 cs =>
    obtain ⟨-, rfl⟩ := by simpa using h
    rw [escaped_cons (.inr (ne_backslash isQuote)), step, if_pos rfl]
  | case6 c cs hlast hpair hc closed taken' rest' heq ih =>
    obtain ⟨rfl, -, rfl⟩ := by simpa using h
    have hescape : c ≠ '\\' := by
      rintro rfl
      cases cs <;> simp_all
    rw [escaped_cons (.inr hescape), step, if_neg hc, ih heq]

/-- Where a text that both accept has a quoted key, the lexer takes the same characters. -/
theorem spanQuoted_of_splitAtQuote {quote : Char} (isQuote : isQuote quote = true)
    {cs key rest : List Char} (h : Path.splitAtQuote quote cs = some (key, rest))
    (hescaped : escaped (some quote) cs = true) (hplain : plain none rest = true) :
    Token.spanQuoted quote cs = (true, key ++ [quote], rest) := by
  have noEscape := ne_backslash isQuote
  fun_induction Token.spanQuoted quote cs generalizing key with
  | case1 => cases h
  | case2 => simp [escaped] at hescaped
  | case3 => simp [escaped] at hescaped
  | case4 c cs hc closed taken rest' heq ih =>
    rw [escaped_pair, Bool.and_eq_true] at hescaped
    obtain ⟨key, hkey, behind⟩ := splitAtQuote_cons noEscape.symm h
    by_cases hquote : c = quote
    · -- the escaped quote ends the key but not the token
      have hrest : cs = rest := by
        rw [hquote, Path.splitAtQuote, if_pos rfl] at behind
        exact (Prod.mk.inj (Option.some.inj behind)).2
      have apart := lasting (Option.some_ne_none quote).symm valid_none (valid_some isQuote) hescaped.2
      rw [← hrest, apart] at hplain
      cases hplain
    · obtain ⟨key', hkey', within⟩ := splitAtQuote_cons hquote behind
      obtain ⟨rfl, rfl, rfl⟩ := by simpa using heq.symm.trans (ih within hescaped.2)
      rw [hkey, hkey']
      rfl
  | case5 cs =>
    obtain ⟨rfl, rfl⟩ := by simpa [Path.splitAtQuote] using h
    rfl
  | case6 c cs hlast hpair hc closed taken rest' heq ih =>
    have hescape : c ≠ '\\' := by
      rintro rfl
      cases cs <;> simp_all
    rw [escaped_cons (.inr hescape), step, if_neg hc] at hescaped
    obtain ⟨key', hkey, behind⟩ := splitAtQuote_cons hc h
    obtain ⟨rfl, rfl, rfl⟩ := by simpa using heq.symm.trans (ih behind hescaped)
    rw [hkey]
    rfl

/-! ### What both accept -/

theorem isQuote_of_isPlain {c : Char} (h : Chunk.isPlain c = true) : isQuote c = false := by
  refine Bool.of_not_eq_true fun hquote => ?_
  simp only [isQuote, Bool.or_eq_true, beq_iff_eq] at hquote
  rcases hquote with rfl | rfl <;> cases h

theorem free_of_isNameRest {c : Char} (h : isNameRest c = true) : isQuote c = false ∧ c ≠ '\\' := by
  refine ⟨isQuote_of_isPlain (Chunk.isPlain_of_isNameRest h), ?_⟩
  rintro rfl
  cases h

theorem free_of_isBlank {c : Char} (h : Text.isBlank c = true) : isQuote c = false ∧ c ≠ '\\' := by
  refine ⟨Bool.of_not_eq_true fun hquote => ?_, ?_⟩
  · simp only [isQuote, Bool.or_eq_true, beq_iff_eq] at hquote
    rcases hquote with rfl | rfl <;> cases h
  · rintro rfl
    cases h

theorem plain_takeWhile {f : Char → Bool} (free : ∀ c, f c = true → isQuote c = false ∧ c ≠ '\\')
    (cs : List Char) : plain none cs = plain none (cs.dropWhile f) := by
  have inside : ∀ c ∈ cs.takeWhile f, isQuote c = false ∧ c ≠ '\\' := fun c hc =>
    free c (List.all_eq_true.1 List.all_takeWhile c hc)
  rw [← plain_append inside (cs.dropWhile f), List.takeWhile_append_dropWhile]

theorem plain_of_readSegment {cs rest : List Char} {segment : Segment}
    (h : Path.readSegment cs = .ok (segment, rest)) : plain none cs = plain none rest := by
  unfold Path.readSegment at h
  split at h
  next c body =>
    split at h
    next hquote =>
      split at h
      next key rest' hsplit =>
        cases h
        have hc : isQuote c = true := by rcases hquote with rfl | rfl <;> rfl
        simp [plain, step, hc, ne_backslash hc, plain_of_splitAtQuote hsplit]
      next => cases h
    next =>
      split at h
      next =>
        split at h
        next =>
          cases h
          exact plain_takeWhile (fun c hc => free_of_isNameRest
            (by simp [isNameRest, Char.isAlphanum, hc])) _
        next => cases h
      next => cases h
  next => cases h

theorem plain_of_readSuffix {cs rest : List Char} {segment : Segment}
    (h : Path.readSuffix cs = .ok (segment, rest)) : plain none cs = plain none rest := by
  unfold Path.readSuffix at h
  split at h
  next behind =>
    obtain ⟨⟨name, _⟩, hname, hend⟩ := Expr.map_eq_ok.1 h
    obtain ⟨-, rfl⟩ := Prod.mk.inj hend
    obtain ⟨_, _, -, -, -, rfl⟩ := Path.readName_eq_ok hname
    exact plain_takeWhile (fun c hc => free_of_isNameRest hc) behind
  next behind =>
    unfold Path.readBracket at h
    split at h
    next => cases h
    next hsegment =>
      cases h
      exact (plain_of_readSegment hsegment : plain none behind = _)
    next => cases h
  next => cases h

theorem plain_of_readSuffixes {cs : List Char} {p : Path} (h : Path.readSuffixes cs = .ok p) :
    plain none cs = true := by
  fun_induction Path.readSuffixes cs generalizing p with
  | case1 cs blank =>
    have free : ∀ c ∈ cs, isQuote c = false ∧ c ≠ '\\' := fun c hc =>
      free_of_isBlank (List.all_eq_true.1 blank c hc)
    simpa [plain] using plain_append free []
  | case2 => cases h
  | case3 cs _ segment rest hsuffix _ ih =>
    obtain ⟨p', hp', -⟩ := Expr.map_eq_ok.1 h
    rw [plain_of_readSuffix hsuffix]
    exact ih hp'

theorem symbols_free : ∀ entry ∈ Token.symbols,
    entry.1.toList.all (fun c => !isQuote c && !Text.isBlank c) = true := by
  decide

theorem escaped_of_firstOf {cs taken rest : List Char} {token : Token}
    (h : Token.FirstOf cs token taken rest) : escaped none cs = escaped none rest := by
  cases h with
  | @number c cs _ _ digit span =>
    have whole := Token.spanNumber_append (c :: cs)
    have free := Chunk.plain_spanNumber (c :: cs)
    rw [span] at whole free
    rw [← whole, escaped_append fun d hd => isQuote_of_isPlain (free d hd)]
  | @name c cs =>
    have free := Chunk.plain_takeWhile (fun _ => Chunk.isPlain_of_isNameRest) (c :: cs)
    conv_lhs => rw [← List.takeWhile_append_dropWhile (p := isNameRest) (l := c :: cs)]
    exact escaped_append (fun d hd => isQuote_of_isPlain (free d hd)) _
  | @quoted quote _ _ _ _ hquote span =>
    have hstep : isQuote quote = true := by rcases hquote with ⟨rfl, -⟩ | ⟨rfl, -⟩ <;> rfl
    rw [escaped_cons (.inl rfl), step, if_pos hstep, escaped_of_spanQuoted hstep span]
  | symbol longest =>
    obtain ⟨entry, listed, htaken, -⟩ :=
      Token.mem_symbols_of_ofSymbol? (Chunk.ofSymbol?_of_longestSymbol longest)
    rw [← Token.longestSymbol_append longest, ← htaken]
    refine escaped_append (fun d hd => ?_) _
    have free := List.all_eq_true.1 (symbols_free entry listed) d hd
    rw [Bool.and_eq_true, Bool.not_eq_true'] at free
    exact free.1

theorem escaped_gap (cs : List Char) : escaped none cs = escaped none (cs.dropWhile Token.isGap) := by
  have free := Chunk.plain_takeWhile (fun _ => Chunk.isPlain_of_isGap) cs
  conv_lhs => rw [← List.takeWhile_append_dropWhile (p := Token.isGap) (l := cs)]
  exact escaped_append (fun d hd => isQuote_of_isPlain (free d hd)) _

/-- What tokenizes has closed its quotes at the end. -/
theorem escaped_of_cut {offset : Nat} {cs : List Char} {ts : List Lexeme}
    (h : Token.cut offset cs = .ok ts) : escaped none cs = true := by
  induction ts generalizing offset cs with
  | nil =>
    rcases Token.cut_eq_ok h with ⟨hnil, -⟩ | ⟨_, _, _, _, -, -, hcons⟩
    · rw [escaped_gap, hnil]
      rfl
    · cases hcons
  | cons t ts ih =>
    rcases Token.cut_eq_ok h with ⟨-, hnil⟩ | ⟨token, taken, rest, us, hfirst, hcut, hcons⟩
    · cases hnil
    · obtain ⟨-, rfl⟩ := List.cons.inj hcons
      rw [escaped_gap, escaped_of_firstOf (Token.firstOf_of_first hfirst)]
      exact ih hcut

end Quoting

/-! ## The segments of both -/

/-- The segment with the escapes of its key resolved. -/
def Segment.unescaped : Segment → Segment
  | .key name => .key (String.ofList (Expr.unescape name.toList))
  | .index i => .index i

namespace Expr

theorem length_unescape_le (cs : List Char) : (unescape cs).length ≤ cs.length := by
  fun_induction unescape cs with
  | case1 c cs ih =>
    simp only [List.length_cons]
    omega
  | case2 => exact Nat.zero_le _
  | case3 c cs _ _ ih => exact Nat.succ_le_succ ih
  | case4 => exact Nat.le_refl _

/-- Each escape loses a character. -/
theorem length_unescape_lt {cs : List Char} (h : '\\' ∈ cs) : (unescape cs).length < cs.length := by
  fun_induction unescape cs with
  | case1 c cs =>
    have := length_unescape_le cs
    simp only [List.length_cons]
    omega
  | case2 => exact Nat.zero_lt_one
  | case3 c cs hpair hlast ih =>
    have hc : '\\' ≠ c := by
      rintro rfl
      cases cs <;> simp_all
    exact Nat.succ_lt_succ (ih ((List.mem_cons.1 h).resolve_left hc))
  | case4 => cases h

theorem unescape_of_free {cs : List Char} (h : '\\' ∉ cs) : unescape cs = cs := by
  fun_induction unescape cs with
  | case1 | case2 => exact absurd List.mem_cons_self h
  | case3 c cs _ _ ih => rw [ih fun hcs => h (List.mem_cons_of_mem c hcs)]
  | case4 => rfl

end Expr

theorem Segment.unescaped_eq_self {segment : Segment} :
    segment.unescaped = segment ↔ ∀ key, segment = .key key → '\\' ∉ key.toList := by
  cases segment with
  | index i => simp [unescaped]
  | key name =>
    refine ⟨?_, fun free => ?_⟩
    · rintro h _ ⟨⟩ escape
      have same := congrArg String.toList (Segment.key.inj h)
      rw [String.toList_ofList] at same
      exact absurd (Expr.length_unescape_lt escape) (by rw [same]; exact Nat.lt_irrefl _)
    · rw [unescaped, Expr.unescape_of_free (free name rfl), String.ofList_toList]

theorem unescaped_of_name {name : List Char} (h : ∀ c ∈ name, isNameRest c = true) :
    (Segment.key (String.ofList name)).unescaped = .key (String.ofList name) := by
  refine Segment.unescaped_eq_self.2 ?_
  rintro _ ⟨⟩ escape
  rw [String.toList_ofList] at escape
  cases h _ escape

theorem isDigit_of_isNameStart {c : Char} (h : isNameStart c = true) : c.isDigit = false := by
  refine Bool.of_not_eq_true fun digit => ?_
  simp only [isNameStart, Bool.or_eq_true, beq_iff_eq] at h
  rcases h with (h | rfl) | rfl
  · simp only [Char.isAlpha, Char.isUpper, Char.isLower, Bool.or_eq_true, Bool.and_eq_true,
      decide_eq_true_eq, UInt32.le_iff_toNat_le, ge_iff_le, Char.reduceVal, UInt32.reduceToNat] at h
    simp only [Char.isDigit, Bool.and_eq_true, decide_eq_true_eq, UInt32.le_iff_toNat_le, ge_iff_le,
      Char.reduceVal, UInt32.reduceToNat] at digit
    omega
  · cases digit
  · cases digit

/-- No token begins with a blank. -/
theorem Token.FirstOf.head_not_blank {c : Char} {cs taken rest : List Char} {token : Token}
    (h : FirstOf (c :: cs) token taken rest) : Text.isBlank c = false := by
  generalize htext : c :: cs = text at h
  cases h with
  | @number d _ _ _ digit =>
    obtain ⟨rfl, -⟩ := List.cons.inj htext
    exact isBlank_of_isNameRest (by simp [isNameRest, Char.isAlphanum, digit])
  | name start =>
    obtain ⟨rfl, -⟩ := List.cons.inj htext
    exact isBlank_of_isNameRest (isNameRest_of_isNameStart start)
  | quoted isQuote =>
    obtain ⟨rfl, -⟩ := List.cons.inj htext
    rcases isQuote with ⟨rfl, -⟩ | ⟨rfl, -⟩ <;> decide
  | symbol longest =>
    obtain ⟨entry, listed, htaken, -⟩ :=
      mem_symbols_of_ofSymbol? (Chunk.ofSymbol?_of_longestSymbol longest)
    obtain ⟨d, ds, hds, -⟩ := exists_of_mem_symbols listed
    have whole := longestSymbol_append longest
    rw [← htaken, hds, ← htext] at whole
    obtain ⟨rfl, -⟩ := List.cons.inj whole
    have free := List.all_eq_true.1 (Quoting.symbols_free entry listed) d (hds ▸ List.mem_cons_self)
    rw [Bool.and_eq_true, Bool.not_eq_true', Bool.not_eq_true'] at free
    exact free.2

namespace Expr

variable {cs rest : List Char} {ts : List Lexeme} {offset : Nat} {q : Path} {segment : Segment}

theorem nil_of_blank (blank : ∀ c ∈ cs, Text.isBlank c = true) (h : Token.cut offset cs = .ok ts) :
    ts = [] := by
  rcases Token.cut_eq_ok h with ⟨-, hnil⟩ | ⟨token, taken, rest, us, hfirst, -⟩
  · exact hnil
  · obtain ⟨c, cs', hcs⟩ : ∃ c cs', cs.dropWhile Token.isGap = c :: cs' := by
      cases hdrop : cs.dropWhile Token.isGap with
      | nil => simp [hdrop, Token.first] at hfirst
      | cons c cs' => exact ⟨c, cs', rfl⟩
    rw [hcs] at hfirst
    have inside : c ∈ cs := (List.dropWhile_sublist _).subset (hcs ▸ List.mem_cons_self)
    have := (Token.firstOf_of_first hfirst).head_not_blank
    rw [blank c inside] at this
    cases this

/-- The lexer takes a symbol that begins no other one, whatever follows. -/
theorem cut_alone (text : String) (token : Token)
    (alone : (text, token) ∈ Token.symbols ∧ Token.isAlone text = true)
    (h : Token.cut offset (text.toList ++ rest) = .ok ts) :
    ∃ t us later, ts = t :: us ∧ t.token = token ∧ Token.cut later rest = .ok us := by
  obtain ⟨c, cs', hcs, begins⟩ := Token.exists_of_mem_symbols alone.1
  simp only [Token.beginsSymbol, Bool.and_eq_true, Bool.not_eq_true'] at begins
  obtain ⟨t, us, later, hts, htoken, -, hcut⟩ := Token.cut_cons (hcs ▸ Token.stops_cons begins.2 _)
    (Token.first_symbol alone.1 (Token.apart_of_isAlone alone.2 rest)) h
  exact ⟨t, us, later, hts, htoken, hcut⟩

/-- The lexer takes the names that a path takes. -/
theorem first_readName {name : List Char} (hname : Path.readName cs = .ok (name, rest)) :
    Token.first cs = .ok (.name, name, rest) := by
  obtain ⟨c, cs', rfl, start, rfl, rfl⟩ := Path.readName_eq_ok hname
  simp [Token.first, isDigit_of_isNameStart start, start]

theorem cut_readName {name : List Char} (hname : Path.readName cs = .ok (name, rest))
    (h : Token.cut offset cs = .ok ts) : ∃ t us later, ts = t :: us ∧ t.token = .name ∧
      t.text = String.ofList name ∧ Token.cut later rest = .ok us := by
  have hfirst := first_readName hname
  obtain ⟨c, cs', rfl, start, -⟩ := Path.readName_eq_ok hname
  have isRest := Token.isNameRest_of_isNameStart start
  exact Token.cut_cons (Token.stops_cons (Token.isGap_of_isNameRest isRest) _) hfirst h

theorem quotedContent_enclosed (quote : Char) (key : List Char) :
    quotedContent (String.ofList (quote :: (key ++ [quote]))) = String.ofList (unescape key) := by
  rw [quotedContent, String.toList_ofList, List.drop_one, List.tail_cons, List.dropLast_concat]

/-- The lexer takes the quoted keys that a path takes. -/
theorem cut_splitAtQuote {quote : Char} (isQuote : Quoting.isQuote quote = true) {key : List Char}
    (hsplit : Path.splitAtQuote quote cs = some (key, rest)) (hplain : Quoting.plain none rest = true)
    (h : Token.cut offset (quote :: cs) = .ok ts) : ∃ t us later, ts = t :: us ∧
      Token.cut later rest = .ok us ∧ IsQuoted t ∧ t.text = String.ofList (quote :: (key ++ [quote])) := by
  have hescaped : Quoting.escaped (some quote) cs = true := by
    have whole := Quoting.escaped_of_cut h
    rwa [Quoting.escaped_cons (.inl rfl), Quoting.step, if_pos isQuote] at whole
  have span := Quoting.spanQuoted_of_splitAtQuote isQuote hsplit hescaped hplain
  simp only [Quoting.isQuote, Bool.or_eq_true, beq_iff_eq] at isQuote
  obtain ⟨token, hquoted, hfirst⟩ : ∃ token, (token = .doubleQuoted ∨ token = .singleQuoted) ∧
      Token.first (quote :: cs) = .ok (token, quote :: (key ++ [quote]), rest) := by
    rcases isQuote with rfl | rfl
    · have start : isNameStart '"' = false ∧ Char.isDigit '"' = false := by decide
      exact ⟨.doubleQuoted, .inl rfl, by simp [Token.first, start, span]⟩
    · have start : isNameStart '\'' = false ∧ Char.isDigit '\'' = false := by decide
      exact ⟨.singleQuoted, .inr rfl, by simp [Token.first, start, span]⟩
  have noGap : Token.isGap quote = false := by rcases isQuote with rfl | rfl <;> decide
  obtain ⟨t, us, later, hts, rfl, htext, hcut⟩ :=
    Token.cut_cons (Token.stops_cons noGap _) hfirst h
  exact ⟨t, us, later, hts, hcut, hquoted, htext⟩

/-- The lexer takes the digits that a path takes. -/
theorem cut_digits {c : Char} (digit : c.isDigit = true)
    (hdrop : (c :: cs).dropWhile Char.isDigit = ']' :: rest)
    (h : Token.cut offset (c :: cs) = .ok ts) : ∃ t us later, ts = t :: us ∧ t.token = .number ∧
      t.text = String.ofList ((c :: cs).takeWhile Char.isDigit) ∧
      Token.cut later (']' :: rest) = .ok us := by
  have isRest : isNameRest c = true := by simp [isNameRest, Char.isAlphanum, digit]
  have isNumber : Token.Is .number (String.ofList ((c :: cs).takeWhile Char.isDigit)) :=
    is_number_of_digits [] (by simp [digit]) (fun d hd => List.all_eq_true.1 List.all_takeWhile d hd)
      (List.forall_mem_nil _) (.inl String.toList_ofList)
  have hfirst := Token.first_number isNumber (Token.closes_cons (c := ']') (by decide) rest)
  rw [String.toList_ofList, ← hdrop, List.takeWhile_append_dropWhile, hdrop] at hfirst
  exact Token.cut_cons (Token.stops_cons (Token.isGap_of_isNameRest isRest) _) hfirst h

/-- The lexer takes what a path takes in brackets, and both read the same segment but for escapes. -/
theorem cut_readSegment (hsegment : Path.readSegment cs = .ok (segment, ']' :: rest))
    (hplain : Quoting.plain none rest = true) (h : Token.cut offset cs = .ok ts) :
    ∃ t us later, ts = t :: us ∧ Token.cut later (']' :: rest) = .ok us ∧
      segmentOf t = .ok segment.unescaped := by
  unfold Path.readSegment at hsegment
  split at hsegment
  next c body =>
    split at hsegment
    next hquote =>
      split at hsegment
      next key rest' hsplit =>
        cases hsegment
        have isQuote : Quoting.isQuote c = true := by rcases hquote with rfl | rfl <;> rfl
        obtain ⟨t, us, later, hts, hcut, hquoted, htext⟩ := cut_splitAtQuote isQuote hsplit hplain h
        refine ⟨t, us, later, hts, hcut, ?_⟩
        rw [segmentOf_quoted hquoted, htext, quotedContent_enclosed, Segment.unescaped,
          String.toList_ofList]
      next => cases hsegment
    next noQuote =>
      split at hsegment
      next digit =>
        split at hsegment
        next i hindex =>
          obtain ⟨rfl, hdrop⟩ := Prod.mk.inj (Except.ok.inj hsegment)
          obtain ⟨t, us, later, hts, hnumber, htext, hcut⟩ := cut_digits digit hdrop h
          refine ⟨t, us, later, hts, hcut, segmentOf_number hnumber ?_⟩
          rw [htext, String.toList_ofList, hindex]
        next => cases hsegment
      next => cases hsegment
  next => cases hsegment

theorem Suffixes.member_inv {dot name : Lexeme} (isDot : dot.token = .dot)
    (h : Suffixes (dot :: name :: ts) q) : ∃ q', Suffixes ts q' ∧ q = .key name.text :: q' := by
  cases h with
  | member _ _ rest => exact ⟨_, rest, rfl⟩
  | index opens | key opens => simp [isDot] at opens

theorem Suffixes.bracket_inv {opening inner closing : Lexeme} (opens : opening.token = .openBracket)
    (hinner : segmentOf inner = .ok segment) (h : Suffixes (opening :: inner :: closing :: ts) q) :
    ∃ q', Suffixes ts q' ∧ q = segment :: q' := by
  cases h with
  | member isDot => simp [opens] at isDot
  | index _ isNumber whole _ rest =>
    obtain rfl := Except.ok.inj (hinner.symm.trans (segmentOf_number isNumber whole))
    exact ⟨_, rest, rfl⟩
  | key _ isQuoted _ rest =>
    obtain rfl := Except.ok.inj (hinner.symm.trans (segmentOf_quoted isQuoted))
    exact ⟨_, rest, rfl⟩

/-- The first suffix that a path reads is the first one of its tokens. -/
theorem Suffixes.readSuffix (hsuffix : Path.readSuffix cs = .ok (segment, rest))
    (hplain : Quoting.plain none rest = true) (hcut : Token.cut offset cs = .ok ts)
    (h : Suffixes ts q) : ∃ later us q', Token.cut later rest = .ok us ∧ Suffixes us q' ∧
      q = segment.unescaped :: q' := by
  unfold Path.readSuffix at hsuffix
  split at hsuffix
  next behind =>
    obtain ⟨⟨name, _⟩, hname, hend⟩ := map_eq_ok.1 hsuffix
    obtain ⟨rfl, rfl⟩ := Prod.mk.inj hend
    obtain ⟨dot, us, _, rfl, isDot, hcut⟩ := cut_alone "." .dot (by decide) hcut
    obtain ⟨t, us, later, rfl, -, htext, hcut⟩ := cut_readName hname hcut
    obtain ⟨q', h', rfl⟩ := h.member_inv isDot
    obtain ⟨_, _, -, -, rfl, -⟩ := Path.readName_eq_ok hname
    refine ⟨later, us, q', hcut, h', ?_⟩
    rw [htext, unescaped_of_name (fun c hc => List.all_eq_true.1 List.all_takeWhile c hc)]
  next behind =>
    unfold Path.readBracket at hsuffix
    split at hsuffix
    next => cases hsuffix
    next hsegment =>
      cases hsuffix
      obtain ⟨opening, us, _, rfl, opens, hcut⟩ := cut_alone "[" .openBracket (by decide) hcut
      obtain ⟨t, us, _, rfl, hcut, hinner⟩ := cut_readSegment hsegment hplain hcut
      obtain ⟨closing, us, later, rfl, -, hcut⟩ := cut_alone "]" .closeBracket (by decide) hcut
      obtain ⟨q', h', rfl⟩ := h.bracket_inv opens hinner
      exact ⟨later, us, q', hcut, h', rfl⟩
    next => cases hsuffix
  next => cases hsuffix

/-- The suffixes that a path reads are those of its tokens. -/
theorem Suffixes.readSuffixes {p : Path} (hpath : Path.readSuffixes cs = .ok p)
    (hcut : Token.cut offset cs = .ok ts) (h : Suffixes ts q) : q = p.map Segment.unescaped := by
  fun_induction Path.readSuffixes cs generalizing p ts offset q with
  | case1 cs blank =>
    obtain rfl := Except.ok.inj hpath
    obtain rfl := nil_of_blank (List.all_eq_true.1 blank) hcut
    cases h
    rfl
  | case2 => cases hpath
  | case3 cs _ segment rest hsuffix _ ih =>
    obtain ⟨p', hp', rfl⟩ := map_eq_ok.1 hpath
    obtain ⟨later, us, q', hcut, h', rfl⟩ :=
      h.readSuffix hsuffix (Quoting.plain_of_readSuffixes hp') hcut
    rw [List.map_cons, ih hp' hcut h']

/-- An expression that is a path begins with a parenthesis or is a name and its suffixes. -/
theorem Derives.path_inv {phrase : Phrase} (h : Derives phrase ts (.path q)) :
    (∃ t us, ts = t :: us ∧ t.token = .openParenthesis) ∨ ∃ t us q', ts = t :: us ∧
      t.token = .name ∧ Suffixes us q' ∧ q = rootOf t.text ++ q' := by
  generalize he : Expr.path q = e at h
  induction h with
  | operation _ ih | tighter _ ih | operand _ ih | primary _ ih => exact ih he
  | path isName _ suffixes =>
    obtain rfl := Expr.path.inj he
    exact .inr ⟨_, _, _, rfl, isName, suffixes, rfl⟩
  | group opens => exact .inl ⟨_, _, rfl, opens⟩
  | _ => cases he

/-- A path and the lexer skip the same blanks in front of a token. -/
theorem trimStart_of_first {taken : List Char} {token : Token}
    (h : Token.first (cs.dropWhile Token.isGap) = .ok (token, taken, rest)) :
    Text.trimStart cs = cs.dropWhile Token.isGap := by
  induction cs with
  | nil => rfl
  | cons c cs ih =>
    by_cases gap : Token.isGap c = true
    · have blank : Text.isBlank c = true := by
        simp only [Token.isGap, Bool.or_eq_true, beq_iff_eq] at gap
        rcases gap with (((rfl | rfl) | rfl) | rfl) | rfl <;> rfl
      rw [List.dropWhile_cons_of_pos gap] at h ⊢
      rw [Text.trimStart, List.dropWhile_cons_of_pos blank]
      exact ih h
    · rw [List.dropWhile_cons_of_neg gap] at h ⊢
      have solid := (Token.firstOf_of_first h).head_not_blank
      rw [Text.trimStart, List.dropWhile_cons_of_neg (by simp [solid])]

theorem rootOf_ofList {name : List Char} (h : ∀ c ∈ name, isNameRest c = true) :
    rootOf (String.ofList name) = (Path.ofRoot name).map Segment.unescaped := by
  have this : String.ofList name = "this" ↔ name = "this".toList := by
    rw [← String.toList_inj, String.toList_ofList]
  by_cases hthis : name = "this".toList
  · rw [rootOf, if_pos (this.2 hthis), Path.ofRoot, if_pos hthis, List.map_nil]
  · rw [rootOf, if_neg (this.not.2 hthis), Path.ofRoot, if_neg hthis, List.map_singleton,
      unescaped_of_name h]

/-- The path of a text has the segments of the expression, but for the escapes of its keys. -/
theorem eq_map_unescaped {source : String} {p : Path} (hpath : Path.parse source = .ok p)
    (hexpr : parse source = .ok (.path q)) : q = p.map Segment.unescaped := by
  obtain ⟨ts, tokenized, derives⟩ := derives_of_parse hexpr
  obtain ⟨t, us, rfl, -⟩ := derives.begins ⟨nofun, nofun⟩
  obtain ⟨name, rest, p', hname, hsuffixes, rfl⟩ := Path.parse_eq_ok hpath
  rcases Token.cut_eq_ok tokenized with ⟨-, hnil⟩ | ⟨token, taken, rest', us, hfirst, hcut, hcons⟩
  · cases hnil
  · rw [trimStart_of_first hfirst] at hname
    obtain ⟨rfl, rfl, rfl⟩ := by simpa using hfirst.symm.trans (first_readName hname)
    obtain ⟨_, _, -, -, rfl, -⟩ := Path.readName_eq_ok hname
    obtain ⟨rfl, rfl⟩ := List.cons.inj hcons
    rcases derives.path_inv with ⟨t, us, hts, opens⟩ | ⟨t, us, q', hts, -, suffixes, rfl⟩
    · obtain ⟨rfl, -⟩ := List.cons.inj hts
      cases opens
    · obtain ⟨rfl, rfl⟩ := List.cons.inj hts
      rw [suffixes.readSuffixes hsuffixes hcut, List.map_append,
        rootOf_ofList fun c hc => List.all_eq_true.1 List.all_takeWhile c hc]

/-! ## Paths alone and in expressions -/

theorem map_unescaped_eq_self {p : Path} :
    p.map Segment.unescaped = p ↔ ∀ key, .key key ∈ p → '\\' ∉ key.toList := by
  induction p with
  | nil => simp
  | cons segment p ih =>
    rw [List.map_cons, List.cons.injEq, Segment.unescaped_eq_self, ih]
    simp only [List.mem_cons, eq_comm, forall_and, or_imp]

/-- A text that is both a path and an expression that is a path has the same segments in both, but that
the expression resolves the escapes of a quoted key. So the two paths are the same, and lead to the same
result from any context, if and only if no key has a backslash. -/
theorem parse_path {source : String} {p : Path} (hpath : Path.parse source = .ok p)
    (hexpr : parse source = .ok (.path q)) :
    q = p.map Segment.unescaped ∧
    (p = q ↔ ∀ key, .key key ∈ p → '\\' ∉ key.toList) ∧
    ((∀ key, .key key ∈ p → '\\' ∉ key.toList) → ∀ (σ : Type) (context : Value),
      (Path.resolveText source context : Reactive.Program σ) = evaluate context (.path q)) := by
  have segments := eq_map_unescaped hpath hexpr
  have same : p = q ↔ ∀ key, .key key ∈ p → '\\' ∉ key.toList := by
    rw [segments, eq_comm]
    exact map_unescaped_eq_self
  refine ⟨segments, same, fun free σ context => ?_⟩
  rw [Path.resolveText, hpath, evaluate, same.2 free]

/-- A member, an index with a leading zero and a quoted key that has a quote of the other kind. -/
def suffixed : Path := [.key "a", .index 7, .key "it's"]

def suffixedSource : String := " this.a[07][\"it's\"] "

def suffixedTokens : List Lexeme :=
  [⟨.name, "this", 1⟩, ⟨.dot, ".", 5⟩, ⟨.name, "a", 6⟩, ⟨.openBracket, "[", 7⟩, ⟨.number, "07", 8⟩,
    ⟨.closeBracket, "]", 10⟩, ⟨.openBracket, "[", 11⟩, ⟨.doubleQuoted, "\"it's\"", 12⟩,
    ⟨.closeBracket, "]", 18⟩]

theorem parse_suffixedSource : Path.parse suffixedSource = .ok suffixed ∧
    parse suffixedSource = .ok (.path suffixed) := by
  have tokenized : Token.tokenize suffixedSource = .ok suffixedTokens := by decide +kernel
  refine ⟨by decide +kernel, ?_⟩
  rw [parse, tokenized]
  rfl

theorem parse_path_suffixed : Path.parse suffixedSource = .ok suffixed ∧
    parse suffixedSource = .ok (.path suffixed) ∧ suffixed = suffixed.map Segment.unescaped ∧
    (suffixed = suffixed ↔ ∀ key, .key key ∈ suffixed → '\\' ∉ key.toList) ∧
    ((∀ key, .key key ∈ suffixed → '\\' ∉ key.toList) → ∀ (σ : Type) (context : Value),
      (Path.resolveText suffixedSource context : Reactive.Program σ) =
        evaluate context (.path suffixed)) :=
  ⟨parse_suffixedSource.1, parse_suffixedSource.2,
    parse_path parse_suffixedSource.1 parse_suffixedSource.2⟩

/-- In quotes, a backslash is a character of the key of a path, and the start of an escape in an
expression. -/
def tabKey : String := "m[\"x\\ty\"]"

theorem paths_disagree : Path.parse tabKey = .ok [.key "m", .key "x\\ty"] ∧
    parse tabKey = .ok (.path [.key "m", .key "x\ty"]) ∧
    ([.key "m", .key "x\\ty"] : Path) ≠ [.key "m", .key "x\ty"] := by
  have tokenized : Token.tokenize tabKey = .ok [⟨.name, "m", 0⟩, ⟨.openBracket, "[", 1⟩,
      ⟨.doubleQuoted, "\"x\\ty\"", 2⟩, ⟨.closeBracket, "]", 8⟩] := by decide +kernel
  refine ⟨by decide +kernel, ?_, by decide⟩
  rw [parse, tokenized]
  rfl

end Expr

end LiveTemplate
