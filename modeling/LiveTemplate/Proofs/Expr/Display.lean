import Mathlib
import LiveTemplate.Proofs.Expr.Completeness
import LiveTemplate.Proofs.Expr.Lexing
import LiveTemplate.Proofs.Number.Reading

/-!
# The text of an expression reads back

The text of a tree is cut into tokens that derive the tree as a primary, wherever the text stands
(`Expr.cuts_toText`): every operator has its parentheses, so nothing can regroup. This needs names that
are names, texts whose characters all have a form of one or two characters, and numbers that are
written without a sign, as those that come from a source are.

So a displayed expression parses to the tree again, unless its parentheses nest too deeply
(`Expr.parse_toText`).
-/
namespace LiveTemplate

/-! ## Quoted texts -/

namespace Text

/-- The character stands in a quoted text as itself or behind a backslash. -/
def isLegible (c : Char) : Bool :=
  ['\t', '\r', '\n', Char.ofNat 0, '\\', '"'].contains c || !isHidden c

theorem escape_cases {c : Char} (legible : isLegible c = true) :
    (∃ d, escape c = ['\\', d] ∧ d ≠ '\n' ∧
      ∀ cs, Expr.unescape ('\\' :: d :: cs) = c :: Expr.unescape cs) ∨
    escape c = [c] ∧ c ≠ '\\' ∧ c ≠ '"' := by
  by_cases special : c ∈ ['\t', '\r', '\n', Char.ofNat 0, '\\', '"']
  · left
    simp only [List.mem_cons, List.not_mem_nil, or_false] at special
    rcases special with rfl | rfl | rfl | rfl | rfl | rfl
    all_goals exact ⟨_, rfl, by decide, fun _ => rfl⟩
  · right
    have shown : isHidden c = false := by simpa [isLegible, special] using legible
    have hzero : c.toNat ≠ 0 := fun h => special (by rw [← Char.ofNat_toNat c, h]; simp)
    simp only [List.mem_cons, List.not_mem_nil, or_false, not_or] at special
    exact ⟨by simp [escape, special, hzero, shown], special.2.2.2.2.1, special.2.2.2.2.2⟩

theorem unescape_escape {c : Char} (legible : isLegible c = true) (cs : List Char) :
    Expr.unescape (escape c ++ cs) = c :: Expr.unescape cs := by
  rcases escape_cases legible with ⟨d, h, -, hunescape⟩ | ⟨h, noEscape, -⟩
  · rw [h]
    exact hunescape cs
  · rw [h, List.singleton_append, Expr.unescape.eq_3]
    · exact fun _ _ h _ => noEscape h
    · exact fun h _ => noEscape h

theorem unescape_flatMap_escape {cs : List Char} (legible : ∀ c ∈ cs, isLegible c = true) :
    Expr.unescape (cs.flatMap escape) = cs := by
  induction cs with
  | nil => rfl
  | cons c cs ih =>
    obtain ⟨hc, hcs⟩ := List.forall_mem_cons.1 legible
    rw [List.flatMap_cons, unescape_escape hc, ih hcs]

theorem spanQuoted_escape {c : Char} (legible : isLegible c = true) {cs taken rest : List Char}
    (h : Token.spanQuoted '"' cs = (true, taken, rest)) :
    Token.spanQuoted '"' (escape c ++ cs) = (true, escape c ++ taken, rest) := by
  rcases escape_cases legible with ⟨d, hescape, hd, -⟩ | ⟨hescape, noEscape, noQuote⟩
  · rw [hescape]
    simp [Token.spanQuoted, hd, h]
  · rw [hescape, List.singleton_append, Token.spanQuoted.eq_4]
    · simp [noQuote, h]
    · exact fun h _ => noEscape h
    · exact fun _ _ h _ => noEscape h

theorem spanQuoted_flatMap_escape {cs : List Char} (legible : ∀ c ∈ cs, isLegible c = true)
    (rest : List Char) : Token.spanQuoted '"' (cs.flatMap escape ++ '"' :: rest) =
      (true, cs.flatMap escape ++ ['"'], rest) := by
  induction cs with
  | nil => rfl
  | cons c cs ih =>
    obtain ⟨hc, hcs⟩ := List.forall_mem_cons.1 legible
    rw [List.flatMap_cons, List.append_assoc, spanQuoted_escape hc (ih hcs), List.append_assoc]

end Text

namespace Expr

open Token (Cuts Closes Heads Is)

/-- Every literal, every path and every key of an object in the tree has a property. -/
inductive Throughout (L : Value → Prop) (S : Path → Prop) (K : String → Prop) : Expr → Prop where
  | literal {v : Value} (value : L v) : Throughout L S K (.literal v)
  | path {p : Path} (segments : S p) : Throughout L S K (.path p)
  | array {items : List Expr} (each : ∀ e ∈ items, Throughout L S K e) : Throughout L S K (.array items)
  | object {fields : List (String × Expr)} (keys : ∀ p ∈ fields, K p.1)
      (each : ∀ p ∈ fields, Throughout L S K p.2) : Throughout L S K (.object fields)
  | unary {op : UnaryOperator} {e : Expr} (operand : Throughout L S K e) :
      Throughout L S K (.unary op e)
  | binary {op : BinaryOperator} {l r : Expr} (left : Throughout L S K l)
      (right : Throughout L S K r) : Throughout L S K (.binary op l r)
  | conditional {c t f : Expr} (condition : Throughout L S K c) (whenTrue : Throughout L S K t)
      (whenFalse : Throughout L S K f) : Throughout L S K (.conditional c t f)

variable {L L' M : Value → Prop} {S S' T : Path → Prop} {K K' J : String → Prop} {e : Expr}

theorem Throughout.zip (h : Throughout L S K e) (h' : Throughout L' S' K' e)
    (literals : ∀ v, L v → L' v → M v) (paths : ∀ p, S p → S' p → T p)
    (keys : ∀ k, K k → K' k → J k) : Throughout M T J e := by
  induction h with
  | literal value =>
    cases h' with | literal value' => exact .literal (literals _ value value')
  | path segments =>
    cases h' with | path segments' => exact .path (paths _ segments segments')
  | array _ ih =>
    cases h' with | array each' => exact .array fun e he => ih e he (each' e he)
  | object hkeys _ ih =>
    cases h' with
    | object hkeys' each' =>
      exact .object (fun p hp => keys _ (hkeys p hp) (hkeys' p hp)) fun p hp => ih p hp (each' p hp)
  | unary _ ih =>
    cases h' with | unary operand' => exact .unary (ih operand')
  | binary _ _ ihl ihr =>
    cases h' with | binary left' right' => exact .binary (ihl left') (ihr right')
  | conditional _ _ _ ihc iht ihf =>
    cases h' with
    | conditional condition' whenTrue' whenFalse' =>
      exact .conditional (ihc condition') (iht whenTrue') (ihf whenFalse')

/-! ## What comes from a source -/

/-- The literals that a source can write. -/
inductive Sourced : Value → Prop where
  | undefined : Sourced .undefined
  | null : Sourced .null
  | bool (b : Bool) : Sourced (.bool b)
  | text (s : String) : Sourced (.text s)
  | number {x : Float} (unsigned : Unsigned x) : Sourced (.number x)

/-- The indices of the path are within the bound. -/
def Within (p : Path) : Prop := ∀ i, Segment.index i ∈ p → i ≤ maxIndex

theorem sourced_keyword {name : String} {v : Value} (h : keywords.lookup name = some v) : Sourced v := by
  have each : ∀ entry ∈ keywords, Sourced entry.2 := by
    intro entry hentry
    simp only [keywords, List.mem_cons, List.not_mem_nil, or_false] at hentry
    rcases hentry with rfl | rfl | rfl | rfl | rfl | rfl
    · exact .bool _
    · exact .bool _
    · exact .null
    · exact .undefined
    · exact .number (by decide +kernel)
    · exact .number (by decide +kernel)
  obtain ⟨_, _, hsplit, -⟩ := List.lookup_eq_some_iff.1 h
  exact each (name, v) (by simp [hsplit])

theorem le_of_readIndex {cs : List Char} {i : Nat} (h : readIndex cs = some i) : i ≤ maxIndex := by
  unfold readIndex at h
  dsimp only at h
  split at h <;> split at h
  all_goals first
    | cases h
    | (split at h
       · exact Option.some.inj h ▸ ‹_›
       · cases h)

theorem Suffixes.within {ts : List Lexeme} {p : Path} (h : Suffixes ts p) : Within p := by
  induction h with
  | nil => exact nofun
  | member _ _ _ ih | key _ _ _ _ ih =>
    intro i hi
    exact ih i (by simpa using hi)
  | index _ _ whole _ _ ih =>
    intro i hi
    rcases List.mem_cons.1 hi with heq | hi
    · exact Segment.index.inj heq ▸ le_of_readIndex whole
    · exact ih i hi

/-- A number begins with a digit. -/
def Begun (t : Lexeme) : Prop :=
  t.token = .number → ∃ c cs, t.text.toList = c :: cs ∧ c.isDigit = true

theorem begun_of_mem_tokenize {source : String} {ts : List Lexeme}
    (h : Token.tokenize source = .ok ts) : ∀ t ∈ ts, Begun t := by
  intro t ht isNumber
  obtain ⟨rest, hfirst⟩ := Token.first_of_mem_cut h t ht
  rw [isNumber] at hfirst
  obtain ⟨c, cs, hcs, digit, -⟩ := Token.first_eq_number hfirst
  cases htext : t.text.toList with
  | nil => exact absurd htext (Token.first_ne_nil hfirst)
  | cons d ds =>
    rw [htext] at hcs
    exact ⟨d, ds, rfl, (List.cons.inj hcs).1 ▸ digit⟩

theorem Derives.sourced {phrase : Phrase} {ts : List Lexeme} (h : Derives phrase ts e)
    (begun : ∀ t ∈ ts, Begun t) : e.Throughout Sourced Within fun _ => True := by
  induction h with
  | operation _ ih | tighter _ ih | operand _ ih | primary _ ih => exact ih begun
  | conditional _ _ _ _ _ ihc iht ihf =>
    exact .conditional (ihc fun t ht => begun t (by simp [ht])) (iht fun t ht => begun t (by simp [ht]))
      (ihf fun t ht => begun t (by simp [ht]))
  | binary _ _ _ ihl ihr =>
    exact .binary (ihl fun t ht => begun t (by simp [ht])) (ihr fun t ht => begun t (by simp [ht]))
  | unary _ _ ih => exact .unary (ih fun t ht => begun t (by simp [ht]))
  | number isNumber =>
    obtain ⟨c, cs, htext, digit⟩ := begun _ (by simp) isNumber
    exact .literal (.number (unsigned_numberContent htext digit))
  | text => exact .literal (.text _)
  | keyword _ listed => exact .literal (sourced_keyword listed)
  | path _ _ suffixes =>
    refine .path fun i hi => suffixes.within i ?_
    rcases List.mem_append.1 hi with hi | hi
    · unfold rootOf at hi
      split at hi <;> simp at hi
    · exact hi
  | group _ _ _ ih | array _ _ _ ih | object _ _ _ ih => exact ih fun t ht => begun t (by simp [ht])
  | noItem => exact .array nofun
  | item _ ih => exact .array (List.forall_mem_singleton.2 (ih begun))
  | nextItem _ _ _ ih ihrest =>
    cases ihrest fun t ht => begun t (by simp [ht]) with
    | array each =>
      exact .array (List.forall_mem_cons.2 ⟨ih fun t ht => begun t (by simp [ht]), each⟩)
  | noField => exact .object nofun nofun
  | field _ _ _ ih =>
    exact .object (fun _ _ => trivial)
      (List.forall_mem_singleton.2 (ih fun t ht => begun t (by simp [ht])))
  | nextField _ _ _ _ _ ih ihrest =>
    cases ihrest fun t ht => begun t (by simp [ht]) with
    | object _ each =>
      exact .object (fun _ _ => trivial)
        (List.forall_mem_cons.2 ⟨ih fun t ht => begun t (by simp [ht]), each⟩)

/-! ## What reads back -/

def LegibleLiteral (v : Value) : Prop := ∀ s, v = .text s → ∀ c ∈ s.toList, Text.isLegible c = true

def LegiblePath (p : Path) : Prop := ∀ key, Segment.key key ∈ p → Is .name key

def LegibleKey (key : String) : Prop := Is .name key ∨ Is .number key

/-- The keys are names, or numbers in objects, and the texts have no character that is written by its
code point. -/
def Legible (e : Expr) : Prop := e.Throughout LegibleLiteral LegiblePath LegibleKey

def LiteralReadsBack (v : Value) : Prop :=
  ∀ x, v = .number x → x.isFinite = true → numberContent (numberText x) = x

/-- The text of every finite number in the tree reads back to the number. -/
def NumbersReadBack (e : Expr) : Prop :=
  e.Throughout LiteralReadsBack (fun _ => True) (fun _ => True)

/-- What a literal needs to read back. -/
structure PlainLiteral (v : Value) : Prop where
  sourced : Sourced v
  legible : LegibleLiteral v
  readsBack : LiteralReadsBack v

/-- What a path needs to read back. -/
structure PlainPath (p : Path) : Prop where
  within : Within p
  legible : LegiblePath p

variable {P : List Lexeme → Prop} {rest : List Char}

theorem is_number_of_digits {ds : List Char} (fs : List Char) (some : ds ≠ [])
    (digits : ∀ c ∈ ds, c.isDigit = true) (fraction : ∀ c ∈ fs, c.isDigit = true) {text : String}
    (h : text.toList = ds ∨ fs ≠ [] ∧ text.toList = ds ++ '.' :: fs) : Is .number text := by
  obtain ⟨d, ds, rfl⟩ := List.exists_cons_of_ne_nil some
  have hd := digits d (by simp)
  have point : Token.Stops Char.isDigit ('.' :: fs) := Token.stops_cons rfl _
  have hspan : Token.spanNumber text.toList = (text.toList, []) := by
    have whole : (d :: ds).takeWhile Char.isDigit = d :: ds ∧ (d :: ds).dropWhile Char.isDigit = [] :=
      ⟨List.takeWhile_eq_self_iff.2 digits, List.dropWhile_eq_nil_iff.2 digits⟩
    have after : fs.takeWhile Char.isDigit = fs ∧ fs.dropWhile Char.isDigit = [] :=
      ⟨List.takeWhile_eq_self_iff.2 fraction, List.dropWhile_eq_nil_iff.2 fraction⟩
    rcases h with h | ⟨hfs, h⟩
    · simp only [h, Token.spanNumber, whole, Token.spanFraction, Token.spanExponent, List.append_nil]
    · obtain ⟨take, drop⟩ := Token.span_append point (d :: ds)
      rw [h]
      simp only [Token.spanNumber, take, drop, whole, List.nil_append, Token.spanFraction, after,
        List.isEmpty_iff, hfs, if_false, Token.spanExponent, List.append_nil]
  obtain ⟨cs, hcs⟩ : ∃ cs, text.toList = d :: cs := by
    rcases h with h | ⟨-, h⟩ <;> exact ⟨_, h⟩
  rw [hcs] at hspan
  simp only [Is, hcs, Token.first, hd, if_true, hspan]

theorem toList_toString (i : Nat) : (toString i).toList = Nat.toDigits 10 i :=
  Nat.toList_repr

theorem isDigit_of_mem_toDigits {i : Nat} : ∀ c ∈ Nat.toDigits 10 i, c.isDigit = true :=
  fun _ hc => Nat.isDigit_of_mem_toDigits (by decide) (by decide) hc

theorem is_number_toString (i : Nat) : Is .number (toString i) :=
  is_number_of_digits [] Nat.toDigits_ne_nil isDigit_of_mem_toDigits nofun
    (.inl (toList_toString i))

theorem readIndex_toString {i : Nat} (h : i ≤ maxIndex) : readIndex (toString i).toList = some i := by
  have value : Numeral.ofDigits (Nat.toDigits 10 i) = i := Nat.ofDigitChars_ten_toDigits
  obtain ⟨c, cs, hcs⟩ := List.exists_cons_of_ne_nil (Nat.toDigits_ne_nil (n := i) (b := 10))
  have digits := isDigit_of_mem_toDigits (i := i)
  rw [hcs] at value digits
  rw [toList_toString, hcs]
  unfold readIndex
  split
  next heq =>
    cases heq
    exact absurd (digits '+' (by simp)) (by decide)
  next => simp [List.all_eq_true.2 digits, value, h]

/-- A literal is written as a word, as a number or in quotes. -/
theorem literalText_cases {v : Value} (h : PlainLiteral v) :
    (Is .name (literalText v) ∧ keywords.lookup (literalText v) = some v) ∨
      (Is .number (literalText v) ∧ v = .number (numberContent (literalText v))) ∨
      ∃ s : String, v = .text s ∧ ∀ c ∈ s.toList, Text.isLegible c = true := by
  obtain ⟨sourced, legible, readsBack⟩ := h
  cases sourced with
  | undefined | null => exact .inl ⟨by decide, rfl⟩
  | bool b => exact .inl (by cases b <;> exact ⟨by decide, rfl⟩)
  | text s => exact .inr (.inr ⟨s, rfl, legible s rfl⟩)
  | @number x unsigned =>
    show (Is .name (numberText x) ∧ keywords.lookup (numberText x) = _) ∨ (Is .number (numberText x) ∧
      Value.number x = .number (numberContent (numberText x))) ∨ _
    rcases numberText_cases unsigned with ⟨rfl, h⟩ | ⟨rfl, h⟩ | ⟨finite, h⟩
    · exact .inl (by rw [h]; exact ⟨by decide, rfl⟩)
    · exact .inl (by rw [h]; exact ⟨by decide, rfl⟩)
    · refine .inr (.inl ⟨?_, by rw [readsBack x rfl finite]⟩)
      rcases h with h | ⟨d, h⟩
      · rw [h]
        decide
      · obtain ⟨ds, fs, some, digits, fraction, hd⟩ := positional_eq d
        rw [h]
        exact is_number_of_digits fs some digits fraction (by simpa using hd)

/-! ## How the text is cut -/

/-- The text is cut into a phrase of the tree. -/
def Shows (phrase : Phrase) (e : Expr) (text : String) : Prop :=
  Token.Spells text.toList (Derives phrase · e)

theorem shows_literal {v : Value} (h : PlainLiteral v) :
    Shows .primary (.literal v) (literalText v) := by
  intro rest P closes hrest
  rcases literalText_cases h with ⟨isName, listed⟩ | ⟨isNumber, hv⟩ | ⟨s, rfl, legible⟩
  · refine (hrest.name isName (closes.stops (by decide))).imp ?_
    rintro _ ⟨t, us, rfl, htoken, htext, hP⟩
    rw [String.ofList_toList] at htext
    exact ⟨[t], us, rfl, .keyword htoken (htext ▸ listed), hP⟩
  · refine (hrest.number isNumber closes).imp ?_
    rintro _ ⟨t, us, rfl, htoken, htext, hP⟩
    rw [String.ofList_toList] at htext
    rw [hv, ← htext]
    exact ⟨[t], us, rfl, .number htoken, hP⟩
  · have hquoted := hrest.quoted (Text.spanQuoted_flatMap_escape legible rest)
    have htext : (literalText (.text s)).toList ++ rest =
        '"' :: (s.toList.flatMap Text.escape ++ '"' :: rest) := by
      simp [literalText, Text.quoted]
    rw [htext]
    refine hquoted.imp ?_
    rintro _ ⟨t, us, rfl, htoken, htext, hP⟩
    have content : quotedContent t.text = s := by
      simp [quotedContent, htext, Text.unescape_flatMap_escape legible]
    exact ⟨[t], us, rfl, content ▸ .text (.inl htoken), hP⟩

theorem cuts_segments {p : Path} (plain : PlainPath p) (closes : Closes rest) (h : Cuts rest P) :
    Cuts (p.flatMap (fun segment => segment.text.toList) ++ rest)
      (fun ts => ∃ us vs, ts = us ++ vs ∧ Suffixes us p ∧ P vs) ∧
    Token.Stops isNameRest (p.flatMap (fun segment => segment.text.toList) ++ rest) := by
  induction p with
  | nil =>
    exact ⟨h.imp fun ts hts => ⟨[], ts, rfl, .nil, hts⟩, closes.stops (by decide)⟩
  | cons segment p ih =>
    obtain ⟨within, legible⟩ := plain
    obtain ⟨hcuts, hstops⟩ := ih
      ⟨fun i hi => within i (List.mem_cons_of_mem _ hi),
        fun key hkey => legible key (List.mem_cons_of_mem _ hkey)⟩
    cases segment with
    | key name =>
      have hname := hcuts.name (legible name (by simp)) hstops
      have hdot := hname.alone "." .dot (by decide)
      have htext : (Segment.key name :: p).flatMap (fun segment => segment.text.toList) ++ rest =
          ".".toList ++ (name.toList ++ (p.flatMap (fun segment => segment.text.toList) ++ rest)) := by
        simp [Segment.text]
      rw [htext]
      refine ⟨hdot.imp ?_, Token.stops_cons (by decide) _⟩
      rintro _ ⟨t, _, rfl, isDot, -, u, _, rfl, isName, hname, us, vs, rfl, suffixes, hP⟩
      rw [String.ofList_toList] at hname
      exact ⟨t :: u :: us, vs, rfl, hname ▸ .member isDot isName suffixes, hP⟩
    | index i =>
      have hclose := hcuts.alone "]" .closeBracket (by decide)
      have hindex := hclose.number (is_number_toString i) (Token.closes_cons (by decide) _)
      have hopen := hindex.alone "[" .openBracket (by decide)
      have htext : (Segment.index i :: p).flatMap (fun segment => segment.text.toList) ++ rest =
          "[".toList ++ ((toString i).toList ++
            ("]".toList ++ (p.flatMap (fun segment => segment.text.toList) ++ rest))) := by
        simp [Segment.text]
      rw [htext]
      refine ⟨hopen.imp ?_, Token.stops_cons (by decide) _⟩
      rintro _ ⟨t, _, rfl, opens, -, u, _, rfl, isNumber, hindex, v, _, rfl, closes, -, us, vs, rfl,
        suffixes, hP⟩
      have whole : readIndex u.text.toList = some i := by
        rw [hindex, String.ofList_toList, readIndex_toString (within i (by simp))]
      exact ⟨t :: u :: v :: us, vs, rfl, .index opens isNumber whole closes suffixes, hP⟩

theorem toList_pathText (p : Path) :
    p.text.toList = "this".toList ++ p.flatMap fun segment => segment.text.toList := by
  have from_start (start : String) : (p.foldl (fun text segment => text ++ segment.text) start).toList =
      start.toList ++ p.flatMap fun segment => segment.text.toList := by
    induction p generalizing start with
    | nil => simp
    | cons segment p ih => rw [List.foldl_cons, ih, String.toList_append]; simp
  exact from_start "this"

theorem shows_path {p : Path} (plain : PlainPath p) : Shows .primary (.path p) p.text := by
  intro rest P closes hrest
  obtain ⟨hcuts, hstops⟩ := cuts_segments plain closes hrest
  rw [toList_pathText, List.append_assoc]
  refine (hcuts.name (show Is .name "this" by decide) hstops).imp ?_
  rintro _ ⟨t, _, rfl, isName, hthis, us, vs, rfl, suffixes, hP⟩
  have name : t.text = "this" := by rw [hthis]; rfl
  have derives := Derives.path isName (by rw [name]; rfl) suffixes
  rw [name] at derives
  exact ⟨t :: us, vs, rfl, derives, hP⟩

section Compound

variable {text text' text'' : String} {phrase : Phrase} {f g : Expr}

theorem shows_enclosed (opening closing : String) {left right : Token}
    (opens : (opening, left) ∈ Token.symbols ∧ Token.isAlone opening = true)
    (closes : (closing, right) ∈ Token.symbols ∧ Token.isAlone closing = true)
    (closer : ∀ rest, Closes (closing.toList ++ rest)) (inner : Shows phrase e text)
    (derives : ∀ {t u : Lexeme} {us : List Lexeme}, t.token = left → Derives phrase us e →
      u.token = right → Derives .primary (t :: (us ++ [u])) e) :
    Shows .primary e (opening ++ text ++ closing) := by
  intro rest P _ hrest
  have hinner := inner (closer rest) (hrest.alone _ _ closes)
  have htext : (opening ++ text ++ closing).toList ++ rest =
      opening.toList ++ (text.toList ++ (closing.toList ++ rest)) := by simp
  rw [htext]
  refine (hinner.alone _ _ opens).imp ?_
  rintro _ ⟨t, _, rfl, ht, -, us, _, rfl, hus, u, vs, rfl, hu, -, hP⟩
  exact ⟨t :: (us ++ [u]), vs, by simp, derives ht hus hu, hP⟩

theorem shows_group (inner : Shows .conditional e text) : Shows .primary e ("(" ++ text ++ ")") :=
  shows_enclosed "(" ")" (by decide) (by decide) (fun _ => Token.closes_cons (by decide) _) inner .group

theorem Derives.whole {ts : List Lexeme} (h : Derives .unary ts e) : Derives .conditional ts e :=
  .operation ((Derives.operand h).looser (by decide))

theorem Derives.operandOf {ts : List Lexeme} (h : Derives .primary ts e) {tier : Nat}
    (le : tier ≤ 7) : Derives (.binary tier) ts e :=
  (Derives.operand (.primary h)).looser le

theorem shows_unary (op : UnaryOperator) (operand : Shows .primary e text)
    (stops : ∀ rest, Token.Stops Token.joins (text.toList ++ rest)) :
    Shows .conditional (.unary op e) (op.symbol ++ text) := by
  intro rest P closes hrest
  obtain ⟨token, listed, isOperator⟩ : ∃ token, (op.symbol, token) ∈ Token.symbols ∧
      Level.prefixOf token = some op := by
    cases op
    · exact ⟨.operator .subtract, by decide, rfl⟩
    · exact ⟨.operator .add, by decide, rfl⟩
    · exact ⟨.bang, by decide, rfl⟩
  rw [String.toList_append, List.append_assoc]
  refine ((operand closes hrest).symbol listed (Token.apart_of_stops listed (stops rest))).imp ?_
  rintro _ ⟨t, _, rfl, rfl, -, us, vs, rfl, derives, hP⟩
  exact ⟨t :: us, vs, rfl, .whole (.unary isOperator (.primary derives)), hP⟩

theorem shows_binary (op : BinaryOperator) (left : Shows .primary e text)
    (right : Shows .primary f text') :
    Shows .conditional (.binary op e f) (text ++ " " ++ op.symbol ++ " " ++ text') := by
  intro rest P closes hrest
  have listed : (op.symbol, Token.operator op) ∈ Token.symbols :=
    List.mem_append_left _ (List.mem_map.2 ⟨op, BinaryOperator.mem_all op, rfl⟩)
  have hright := (right closes hrest).gap (c := ' ') rfl
  have hop := hright.symbol listed (Token.apart_of_stops listed (Token.stops_cons rfl _))
  have hleft := left (Token.closes_cons (by decide) _) (hop.gap (c := ' ') rfl)
  have htext : (text ++ " " ++ op.symbol ++ " " ++ text').toList ++ rest =
      text.toList ++ ' ' :: (op.symbol.toList ++ ' ' :: (text'.toList ++ rest)) := by simp
  rw [htext]
  refine hleft.imp ?_
  rintro _ ⟨us, _, rfl, hus, t, _, rfl, ht, -, vs, ws, rfl, hvs, hP⟩
  have htier := tier_le op
  have chain := Derives.binary (hus.operandOf (by omega)) ht (hvs.operandOf (by omega))
  exact ⟨us ++ t :: vs, ws, by simp, .operation (chain.looser (by cases op <;> decide)), hP⟩

theorem shows_conditional (condition : Shows .primary e text) (whenTrue : Shows .primary f text')
    (whenFalse : Shows .primary g text'') :
    Shows .conditional (.conditional e f g) (text ++ " ? " ++ text' ++ " : " ++ text'') := by
  intro rest P closes hrest
  have hfalse := (whenFalse closes hrest).gap (c := ' ') rfl
  have hcolon := (hfalse.alone ":" .colon (by decide)).gap (c := ' ') rfl
  have htrue := (whenTrue (Token.closes_cons (by decide) _) hcolon).gap (c := ' ') rfl
  have hquestion := (htrue.alone "?" .question (by decide)).gap (c := ' ') rfl
  have hcondition := condition (Token.closes_cons (by decide) _) hquestion
  have htext : (text ++ " ? " ++ text' ++ " : " ++ text'').toList ++ rest =
      text.toList ++ ' ' :: ("?".toList ++ ' ' :: (text'.toList ++
        ' ' :: (":".toList ++ ' ' :: (text''.toList ++ rest)))) := by simp
  rw [htext]
  refine hcondition.imp ?_
  rintro _ ⟨us, _, rfl, hus, t, _, rfl, ht, -, vs, _, rfl, hvs, u, _, rfl, hu, -, ws, xs, rfl, hws, hP⟩
  exact ⟨us ++ t :: (vs ++ u :: ws), xs, by simp,
    .conditional (hus.operandOf (by decide)) ht (.whole (.primary hvs)) hu (.whole (.primary hws)), hP⟩

theorem shows_itemsText {items : List Expr} (each : ∀ e ∈ items, Shows .primary e e.toText) :
    Shows .items (.array items) (itemsText items) := by
  induction items with
  | nil => exact fun _ _ _ hrest => hrest.imp fun ts hts => ⟨[], ts, rfl, .noItem, hts⟩
  | cons e items ih =>
    obtain ⟨first, others⟩ := List.forall_mem_cons.1 each
    intro rest P closes hrest
    cases items with
    | nil =>
      refine (first closes hrest).imp ?_
      rintro _ ⟨us, vs, rfl, hus, hP⟩
      exact ⟨us, vs, rfl, .item (.whole (.primary hus)), hP⟩
    | cons f items =>
      have hcomma := ((ih others closes hrest).gap (c := ' ') rfl).alone "," .comma (by decide)
      have hfirst := first (Token.closes_cons (by decide) _) hcomma
      have htext : (itemsText (e :: f :: items)).toList ++ rest =
          e.toText.toList ++ (",".toList ++ ' ' :: ((itemsText (f :: items)).toList ++ rest)) := by
        simp [itemsText]
      rw [htext]
      refine hfirst.imp ?_
      rintro _ ⟨us, _, rfl, hus, t, _, rfl, ht, -, vs, ws, rfl, hvs, hP⟩
      exact ⟨us ++ t :: vs, ws, by simp, .nextItem (.whole (.primary hus)) ht hvs, hP⟩

/-- A key, a colon and a value in front of the rest of the fields. -/
theorem cuts_field {key : String} (isKey : LegibleKey key) (value : Shows .primary e text)
    (closes : Closes rest) (hrest : Cuts rest P) :
    Cuts (key.toList ++ (":".toList ++ ' ' :: (text.toList ++ rest))) fun ts =>
      ∃ t u us vs, ts = t :: u :: (us ++ vs) ∧ FieldKey t key ∧ u.token = .colon ∧
        Derives .conditional us e ∧ P vs := by
  have hcolon := ((value closes hrest).gap (c := ' ') rfl).alone ":" .colon (by decide)
  have colon : Closes (":".toList ++ ' ' :: (text.toList ++ rest)) := Token.closes_cons (by decide) _
  rcases isKey with isName | isNumber
  · refine (hcolon.name isName (colon.stops (by decide))).imp ?_
    rintro _ ⟨t, _, rfl, ht, hkey, u, _, rfl, hu, -, us, vs, rfl, hus, hP⟩
    rw [String.ofList_toList] at hkey
    exact ⟨t, u, us, vs, rfl, hkey ▸ .plain (.inl ht), hu, .whole (.primary hus), hP⟩
  · refine (hcolon.number isNumber colon).imp ?_
    rintro _ ⟨t, _, rfl, ht, hkey, u, _, rfl, hu, -, us, vs, rfl, hus, hP⟩
    rw [String.ofList_toList] at hkey
    exact ⟨t, u, us, vs, rfl, hkey ▸ .plain (.inr ht), hu, .whole (.primary hus), hP⟩

theorem shows_fieldsText {fields : List (String × Expr)} (keys : ∀ p ∈ fields, LegibleKey p.1)
    (each : ∀ p ∈ fields, Shows .primary p.2 p.2.toText) :
    Shows .fields (.object fields) (fieldsText fields) := by
  induction fields with
  | nil => exact fun _ _ _ hrest => hrest.imp fun ts hts => ⟨[], ts, rfl, .noField, hts⟩
  | cons field fields ih =>
    obtain ⟨key, e⟩ := field
    obtain ⟨first, others⟩ := List.forall_mem_cons.1 each
    obtain ⟨isKey, otherKeys⟩ := List.forall_mem_cons.1 keys
    intro rest P closes hrest
    cases fields with
    | nil =>
      have htext : (fieldsText [(key, e)]).toList ++ rest =
          key.toList ++ (":".toList ++ ' ' :: (e.toText.toList ++ rest)) := by
        simp [fieldsText]
      rw [htext]
      refine (cuts_field isKey first closes hrest).imp ?_
      rintro _ ⟨t, u, us, vs, rfl, ht, hu, hus, hP⟩
      exact ⟨t :: u :: us, vs, rfl, .field ht hu hus, hP⟩
    | cons next fields =>
      have hcomma :=
        ((ih otherKeys others closes hrest).gap (c := ' ') rfl).alone "," .comma (by decide)
      have hfield := cuts_field isKey first (Token.closes_cons (by decide) _) hcomma
      have htext : (fieldsText ((key, e) :: next :: fields)).toList ++ rest =
          key.toList ++ (":".toList ++ ' ' :: (e.toText.toList ++
            (",".toList ++ ' ' :: ((fieldsText (next :: fields)).toList ++ rest)))) := by
        simp [fieldsText]
      rw [htext]
      refine hfield.imp ?_
      rintro _ ⟨t, u, us, _, rfl, ht, hu, hus, v, _, rfl, hv, -, vs, ws, rfl, hvs, hP⟩
      exact ⟨t :: u :: (us ++ v :: vs), ws, by simp, .nextField ht hu hus hv hvs, hP⟩

end Compound

/-- What a tree needs to read back. -/
def Plain (e : Expr) : Prop := e.Throughout PlainLiteral PlainPath LegibleKey

theorem stops_of_is {text : String} (h : Is .name text ∨ Is .number text) (rest : List Char) :
    Token.Stops Token.joins (text.toList ++ rest) := by
  have begins : ∃ c cs, text.toList = c :: cs ∧ isNameRest c = true := by
    rcases h with h | h
    · obtain ⟨c, cs, hcs, start, -⟩ := Token.first_eq_name h
      exact ⟨c, cs, hcs, Token.isNameRest_of_isNameStart start⟩
    · obtain ⟨c, cs, hcs, digit, -⟩ := Token.first_eq_number h
      exact ⟨c, cs, hcs, by simp [isNameRest, Char.isAlphanum, digit]⟩
  obtain ⟨c, cs, hcs, hc⟩ := begins
  rw [hcs]
  refine Token.stops_cons (Bool.of_not_eq_true fun joins => ?_) _
  simp only [Token.joins, List.contains_eq_mem, List.mem_cons, List.not_mem_nil, or_false,
    decide_eq_true_eq] at joins
  rcases joins with rfl | rfl | rfl | rfl <;> revert hc <;> decide

/-- No text of a tree makes a longer symbol of the symbol before it. -/
theorem stops_toText (h : e.Plain) (rest : List Char) :
    Token.Stops Token.joins (e.toText.toList ++ rest) := by
  cases h with
  | literal plain =>
    rcases literalText_cases plain with ⟨isName, -⟩ | ⟨isNumber, -⟩ | ⟨s, rfl, -⟩
    · exact stops_of_is (.inl isName) rest
    · exact stops_of_is (.inr isNumber) rest
    · simp only [toText, literalText, Text.quoted, String.toList_ofList]
      exact Token.stops_cons (by decide) _
  | @path p _ =>
    rw [show (Expr.path p).toText = p.text from rfl, toList_pathText]
    exact Token.stops_cons (by decide) _
  | array | object | unary | binary | conditional =>
    simp only [toText, String.toList_append, List.append_assoc]
    exact Token.stops_cons (by decide) _

theorem shows_toText (h : e.Plain) : Shows .primary e e.toText := by
  induction h with
  | literal plain => exact shows_literal plain
  | path plain => exact shows_path plain
  | array _ ih =>
    exact shows_enclosed "[" "]" (by decide) (by decide) (fun _ => Token.closes_cons (by decide) _)
      (shows_itemsText ih) .array
  | object keys _ ih =>
    exact shows_enclosed "\x7b" "\x7d" (by decide) (by decide)
      (fun _ => Token.closes_cons (by decide) _) (shows_fieldsText keys ih) .object
  | @unary op e operand ih =>
    have htext : (Expr.unary op e).toText = "(" ++ (op.symbol ++ e.toText) ++ ")" := by
      simp only [toText, String.append_assoc]
    exact htext ▸ shows_group (shows_unary op ih (stops_toText operand))
  | @binary op l r _ _ ihl ihr =>
    have htext : (Expr.binary op l r).toText =
        "(" ++ (l.toText ++ " " ++ op.symbol ++ " " ++ r.toText) ++ ")" := by
      simp only [toText, String.append_assoc]
    exact htext ▸ shows_group (shows_binary op ihl ihr)
  | @conditional c t f _ _ _ ihc iht ihf =>
    have htext : (Expr.conditional c t f).toText =
        "(" ++ (c.toText ++ " ? " ++ t.toText ++ " : " ++ f.toText) ++ ")" := by
      simp only [toText, String.append_assoc]
    exact htext ▸ shows_group (shows_conditional ihc iht ihf)

/-- Tokens of an expression parse to its tree, unless they are nested too deeply. -/
theorem parse_of_derives {source : String} {ts : List Lexeme} (tokenized : Token.tokenize source = .ok ts)
    (derives : Derives .conditional ts e) : parse source = .ok e ∨
      ∃ error, parse source = .error error ∧
        error.reason.message = "expression nested too deeply" := by
  obtain ⟨t, rest, rfl, -⟩ := derives.begins ⟨nofun, nofun⟩
  simp only [parse, tokenized, List.isEmpty_cons, Bool.false_eq_true, if_false]
  rcases ofLexemes_of_derives derives with h | ⟨place, h⟩
  · exact .inl (by rw [h]; rfl)
  · refine .inr ⟨_, by rw [h]; rfl, ?_⟩
    unfold Failure.error
    simp only
    split <;> rfl

theorem plain_of_parse {source : String} (h : parse source = .ok e) (legible : e.Legible)
    (readsBack : e.NumbersReadBack) : e.Plain := by
  obtain ⟨ts, tokenized, derives⟩ := derives_of_parse h
  have sourced := derives.sourced (begun_of_mem_tokenize tokenized)
  have known : e.Throughout (fun v => Sourced v ∧ LegibleLiteral v) PlainPath LegibleKey :=
    sourced.zip legible (fun _ => .intro) (fun _ within legible => ⟨within, legible⟩) fun _ _ h => h
  exact known.zip readsBack (fun _ h readsBack => ⟨h.1, h.2, readsBack⟩) (fun _ h _ => h) fun _ h _ => h

/-- The text of a parsed expression parses to the same tree, unless it is nested too deeply. -/
theorem parse_toText {source : String} (h : parse source = .ok e) (legible : e.Legible)
    (readsBack : e.NumbersReadBack) : parse e.toText = .ok e ∨
      ∃ error, parse e.toText = .error error ∧
        error.reason.message = "expression nested too deeply" := by
  have shown := shows_toText (plain_of_parse h legible readsBack)
  obtain ⟨ts, tokenized, derives⟩ := shown.tokenize
  exact parse_of_derives tokenized (.whole (.primary derives))

/-- A tree with every kind of literal but a word that is not finite. -/
def mixed : Expr :=
  .conditional
    (.binary .identical (.unary .negate (.path [.key "a", .key "this", .index 0]))
      (.literal (.number (numberContent "1.50"))))
    (.object [("k", .literal (.text "x\t\"")), ("2", .literal .null)]) (.array [.path []])

def mixedSource : String := "-a['this'][0] === 1.50 ? \x7bk: 'x\\t\"', 2: null\x7d : [this]"

def mixedTokens : List Lexeme :=
  [⟨.operator .subtract, "-", 0⟩, ⟨.name, "a", 1⟩, ⟨.openBracket, "[", 2⟩,
    ⟨.singleQuoted, "'this'", 3⟩, ⟨.closeBracket, "]", 9⟩, ⟨.openBracket, "[", 10⟩, ⟨.number, "0", 11⟩,
    ⟨.closeBracket, "]", 12⟩, ⟨.operator .identical, "===", 14⟩, ⟨.number, "1.50", 18⟩,
    ⟨.question, "?", 23⟩, ⟨.openBrace, "\x7b", 25⟩, ⟨.name, "k", 26⟩, ⟨.colon, ":", 27⟩,
    ⟨.singleQuoted, "'x\\t\"'", 29⟩, ⟨.comma, ",", 35⟩, ⟨.number, "2", 37⟩, ⟨.colon, ":", 38⟩,
    ⟨.name, "null", 40⟩, ⟨.closeBrace, "\x7d", 44⟩, ⟨.colon, ":", 46⟩, ⟨.openBracket, "[", 48⟩,
    ⟨.name, "this", 49⟩, ⟨.closeBracket, "]", 53⟩]

theorem parse_mixedSource : parse mixedSource = .ok mixed := by
  have tokenized : Token.tokenize mixedSource = .ok mixedTokens := by decide +kernel
  rw [parse, tokenized]
  rfl

theorem legible_mixed : mixed.Legible := by
  have path : LegiblePath [.key "a", .key "this", .index 0] := by
    intro key hkey
    simp only [List.mem_cons, Segment.key.injEq, reduceCtorEq, List.not_mem_nil, or_false] at hkey
    rcases hkey with rfl | rfl <;> decide
  have text : LegibleLiteral (.text "x\t\"") := by
    rintro s ⟨⟩
    exact List.all_eq_true.1 rfl
  have this : LegiblePath [] := fun _ hkey => absurd hkey List.not_mem_nil
  refine .conditional (.binary (.unary (.path path)) (.literal (by rintro _ ⟨⟩))) (.object ?_ ?_)
    (.array (List.forall_mem_singleton.2 (.path this)))
  · exact List.forall_mem_cons.2 ⟨.inl (by decide), List.forall_mem_singleton.2 (.inr (by decide))⟩
  · exact List.forall_mem_cons.2
      ⟨.literal text, List.forall_mem_singleton.2 (.literal (by rintro _ ⟨⟩))⟩

theorem numbersReadBack_mixed : mixed.NumbersReadBack := by
  have number : LiteralReadsBack (.number (numberContent "1.50")) := by
    rintro x ⟨⟩ -
    decide +kernel
  refine .conditional (.binary (.unary (.path trivial)) (.literal number)) (.object ?_ ?_)
    (.array (List.forall_mem_singleton.2 (.path trivial)))
  · exact fun _ _ => trivial
  · exact List.forall_mem_cons.2 ⟨.literal nofun, List.forall_mem_singleton.2 (.literal nofun)⟩

theorem parse_toText_mixed : parse mixedSource = .ok mixed ∧ mixed.Legible ∧ mixed.NumbersReadBack ∧
    (parse mixed.toText = .ok mixed ∨ ∃ error, parse mixed.toText = .error error ∧
      error.reason.message = "expression nested too deeply") :=
  ⟨parse_mixedSource, legible_mixed, numbersReadBack_mixed,
    parse_toText parse_mixedSource legible_mixed numbersReadBack_mixed⟩

end Expr

end LiveTemplate
