import LiveTemplate.Proofs.Expr.Soundness
import LiveTemplate.Template.Chunk

/-!
# Where a region ends

The region scanner knows quotes, escapes and braces, but no tokens. It passes over every token as the
lexer cuts it: a quoted token from quote to quote, and any other one but a brace without a change
(`Chunk.passes_first`). In an expression the braces are balanced, at the end and at every point before
(`Expr.Derives.balanced`). So the region around an accepted expression ends right behind it
(`Chunk.splitRegion_accepted`).
-/
namespace LiveTemplate

namespace Expr

/-- The number of open braces after a token; none if the token closes a brace that is not open. -/
def braceStep (depth : Nat) (token : Token) : Option Nat :=
  match token, depth with
  | .openBrace, _ => some (depth + 1)
  | .closeBrace, 0 => none
  | .closeBrace, depth + 1 => some depth
  | _, _ => some depth

/-- The number of open braces after a list of tokens. -/
def braceDepth (depth : Nat) (ts : List Lexeme) : Option Nat :=
  ts.foldlM (fun depth t => braceStep depth t.token) depth

theorem braceDepth_cons (depth : Nat) (t : Lexeme) (ts : List Lexeme) :
    braceDepth depth (t :: ts) = (braceStep depth t.token).bind (braceDepth · ts) :=
  List.foldlM_cons ..

theorem braceDepth_append (depth : Nat) (ts us : List Lexeme) :
    braceDepth depth (ts ++ us) = (braceDepth depth ts).bind (braceDepth · us) :=
  List.foldlM_append ..

/-- No token of the list leaves the depth that it starts at, and the last one comes back to it. -/
def Balanced (ts : List Lexeme) : Prop := ∀ depth, braceDepth depth ts = some depth

theorem balanced_nil : Balanced [] := fun _ => rfl

theorem Balanced.append {ts us : List Lexeme} (h : Balanced ts) (h' : Balanced us) :
    Balanced (ts ++ us) := fun depth => by
  rw [braceDepth_append, h, Option.bind_some, h']

theorem braceStep_other {token : Token} (other : token ≠ .openBrace ∧ token ≠ .closeBrace)
    (depth : Nat) : braceStep depth token = some depth := by
  unfold braceStep
  split <;> simp_all

theorem Balanced.cons {t : Lexeme} {ts : List Lexeme}
    (other : t.token ≠ .openBrace ∧ t.token ≠ .closeBrace) (h : Balanced ts) :
    Balanced (t :: ts) := fun depth => by
  rw [braceDepth_cons, braceStep_other other, Option.bind_some, h]

theorem Balanced.braces {t u : Lexeme} {ts : List Lexeme} (opens : t.token = .openBrace)
    (h : Balanced ts) (closes : u.token = .closeBrace) : Balanced (t :: (ts ++ [u])) := fun depth => by
  rw [braceDepth_cons, opens, braceStep, Option.bind_some, braceDepth_append, h, Option.bind_some,
    braceDepth_cons, closes]
  rfl

theorem IsQuoted.ne_brace {t : Lexeme} (h : IsQuoted t) :
    t.token ≠ .openBrace ∧ t.token ≠ .closeBrace := by
  rcases h with h | h <;> simp [h]

theorem FieldKey.ne_brace {t : Lexeme} {key : String} (h : FieldKey t key) :
    t.token ≠ .openBrace ∧ t.token ≠ .closeBrace := by
  cases h with
  | plain isPlain => rcases isPlain with h | h <;> simp [h]
  | quoted isQuoted => exact isQuoted.ne_brace

theorem ne_brace_of_prefixOf {t : Lexeme} {op : UnaryOperator}
    (h : Level.prefixOf t.token = some op) : t.token ≠ .openBrace ∧ t.token ≠ .closeBrace := by
  constructor <;> intro htoken <;> simp [htoken, Level.prefixOf] at h

theorem Suffixes.balanced {ts : List Lexeme} {path : Path} (h : Suffixes ts path) : Balanced ts := by
  induction h with
  | nil => exact balanced_nil
  | member isDot isName _ ih => exact .cons (by simp [isDot]) (.cons (by simp [isName]) ih)
  | index opens isNumber _ closes _ ih =>
    exact .cons (by simp [opens]) (.cons (by simp [isNumber]) (.cons (by simp [closes]) ih))
  | key opens isQuoted closes _ ih =>
    exact .cons (by simp [opens]) (.cons isQuoted.ne_brace (.cons (by simp [closes]) ih))

theorem Derives.balanced {phrase : Phrase} {ts : List Lexeme} {e : Expr} (h : Derives phrase ts e) :
    Balanced ts := by
  induction h with
  | operation _ ih | tighter _ ih | operand _ ih | primary _ ih | item _ ih => exact ih
  | conditional _ asks _ separates _ ihCondition ihThen ihElse =>
    exact ihCondition.append (.cons (by simp [asks]) (ihThen.append (.cons (by simp [separates]) ihElse)))
  | binary _ isOperator _ ihLeft ihRight => exact ihLeft.append (.cons (by simp [isOperator]) ihRight)
  | unary isOperator _ ih => exact .cons (ne_brace_of_prefixOf isOperator) ih
  | number h | keyword h => exact .cons (by simp [h]) balanced_nil
  | text isQuoted => exact .cons isQuoted.ne_brace balanced_nil
  | path isName _ suffixes => exact .cons (by simp [isName]) suffixes.balanced
  | group opens _ closes ih | array opens _ closes ih =>
    exact .cons (by simp [opens]) (ih.append (.cons (by simp [closes]) balanced_nil))
  | object opens _ closes ih => exact .braces opens ih closes
  | noItem | noField => exact balanced_nil
  | nextItem _ separates _ ihItem ih => exact ihItem.append (.cons (by simp [separates]) ih)
  | field isKey assigns _ ih => exact .cons isKey.ne_brace (.cons (by simp [assigns]) ih)
  | nextField isKey assigns _ separates _ ihValue ih =>
    exact .cons isKey.ne_brace
      (.cons (by simp [assigns]) (ihValue.append (.cons (by simp [separates]) ih)))

end Expr

/-- The first token of a text and the tokens of the rest. -/
theorem Token.cut_of_first {offset : Nat} {cs taken rest : List Char} {token : Token}
    {ts : List Lexeme} (inside : cs.dropWhile isGap ≠ [])
    (first : Token.first (cs.dropWhile isGap) = .ok (token, taken, rest))
    (cut : Token.cut (offset + Text.width (cs.takeWhile isGap) + Text.width taken) rest = .ok ts) :
    Token.cut offset cs =
      .ok (⟨token, String.ofList taken, offset + Text.width (cs.takeWhile isGap)⟩ :: ts) := by
  rw [Token.cut]
  simp only [List.isEmpty_iff, inside, if_false]
  split
  · simp_all
  · simp_all [Except.map]

namespace Chunk

/-! ## Passing over characters -/

/-- Outside quotes, the scanner goes over the characters from one depth to another and stays in the
region. -/
def Passes (cs : List Char) (depth depth' : Nat) : Prop :=
  ∀ rest, splitRegion depth none (cs ++ rest) =
    (splitRegion depth' none rest).map fun (body, rest) => (cs ++ body, rest)

theorem passes_nil (depth : Nat) : Passes [] depth depth := fun rest => by
  simp

theorem Passes.append {cs ds : List Char} {depth depth' depth'' : Nat} (h : Passes cs depth depth')
    (h' : Passes ds depth' depth'') : Passes (cs ++ ds) depth depth'' := fun rest => by
  rw [List.append_assoc, h, h', Option.map_map]
  simp [Function.comp_def]

theorem splitRegion_outside {c : Char} (h : c ≠ '\x7d') (depth : Nat) (cs : List Char) :
    splitRegion depth none (c :: cs) =
      (splitRegion (if c = '\x7b' then depth + 1 else depth) (if isQuote c then some c else none)
        cs).map fun (body, rest) => (c :: body, rest) := by
  rw [splitRegion.eq_def]
  simp only [if_neg h]

theorem splitRegion_inside {c quote : Char} (h : c ≠ '\\') (depth : Nat) (cs : List Char) :
    splitRegion depth (some quote) (c :: cs) =
      (splitRegion depth (if c = quote then none else some quote) cs).map fun (body, rest) =>
        (c :: body, rest) := by
  rw [splitRegion.eq_def]
  split <;> simp_all

/-- Characters that mean nothing to the scanner outside quotes. -/
def isPlain (c : Char) : Bool :=
  c != '\x7b' && c != '\x7d' && !isQuote c

theorem passes_plain {cs : List Char} (plain : ∀ c ∈ cs, isPlain c = true) (depth : Nat) :
    Passes cs depth depth := by
  induction cs with
  | nil => exact passes_nil depth
  | cons c cs ih =>
    obtain ⟨hc, hcs⟩ := List.forall_mem_cons.1 plain
    simp only [isPlain, Bool.and_eq_true, bne_iff_ne, Bool.not_eq_true'] at hc
    obtain ⟨⟨hopen, hclose⟩, hquote⟩ := hc
    intro rest
    rw [List.cons_append, splitRegion_outside hclose, if_neg hopen, hquote, if_neg nofun, ih hcs,
      Option.map_map]
    rfl

theorem passes_opening (depth : Nat) : Passes ['\x7b'] depth (depth + 1) := fun rest => by
  rfl

theorem passes_closing (depth : Nat) : Passes ['\x7d'] (depth + 1) depth := fun rest => by
  rfl

/-- The scanner leaves a quoted stretch where the lexer ends the token. -/
theorem splitRegion_quoted {quote : Char} {cs taken rest : List Char} (escape : quote ≠ '\\')
    (h : Token.spanQuoted quote cs = (true, taken, rest)) (depth : Nat) (more : List Char) :
    splitRegion depth (some quote) (taken ++ more) =
      (splitRegion depth none more).map fun (body, rest) => (taken ++ body, rest) := by
  fun_induction Token.spanQuoted quote cs generalizing taken rest with
  | case1 | case2 | case3 => cases h
  | case4 c cs hc closed taken' rest' heq ih =>
    obtain ⟨rfl, rfl, rfl⟩ := by simpa using h
    simp only [List.cons_append, splitRegion, ih heq, Option.map_map]
    rfl
  | case5 cs =>
    obtain ⟨rfl, rfl⟩ := by simpa using h
    rw [List.cons_append, splitRegion_inside escape, if_pos rfl]
    rfl
  | case6 c cs _ _ hc closed taken' rest' heq ih =>
    obtain ⟨rfl, rfl, rfl⟩ := by simpa using h
    have hescape : c ≠ '\\' := by
      rintro rfl
      cases cs <;> simp_all
    rw [List.cons_append, splitRegion_inside hescape, if_neg hc, ih heq, Option.map_map]
    rfl

/-! ## Passing over tokens -/

theorem isPlain_of_isNameRest {c : Char} (h : isNameRest c = true) : isPlain c = true := by
  refine Bool.of_not_eq_false fun hc => ?_
  have hcases : c = '\x7b' ∨ c = '\x7d' ∨ c = '"' ∨ c = '\'' ∨ c = '\x60' := by
    simp only [isPlain, isQuote] at hc
    grind
  rcases hcases with rfl | rfl | rfl | rfl | rfl <;> revert h <;> decide

theorem isPlain_of_isDigit {c : Char} (h : c.isDigit = true) : isPlain c = true :=
  isPlain_of_isNameRest (by simp [isNameRest, Char.isAlphanum, h])

theorem isPlain_of_isGap {c : Char} (h : Token.isGap c = true) : isPlain c = true := by
  simp only [Token.isGap, Bool.or_eq_true, beq_iff_eq] at h
  rcases h with (((rfl | rfl) | rfl) | rfl) | rfl <;> decide

theorem plain_takeWhile {f : Char → Bool} (plain : ∀ c, f c = true → isPlain c = true)
    (cs : List Char) : ∀ c ∈ cs.takeWhile f, isPlain c = true :=
  fun c hc => plain c (List.all_eq_true.1 List.all_takeWhile c hc)

theorem plain_spanFraction (cs : List Char) : ∀ c ∈ (Token.spanFraction cs).1, isPlain c = true := by
  unfold Token.spanFraction
  split
  · split
    · simp
    · exact List.forall_mem_cons.2 ⟨by decide, plain_takeWhile (fun _ => isPlain_of_isDigit) _⟩
  · simp

theorem plain_spanSign (cs : List Char) : ∀ c ∈ (Token.spanSign cs).1, isPlain c = true := by
  unfold Token.spanSign
  split <;> simp <;> decide

theorem plain_spanExponent (cs : List Char) : ∀ c ∈ (Token.spanExponent cs).1, isPlain c = true := by
  unfold Token.spanExponent
  split
  next c rest =>
    split
    next hc =>
      dsimp only
      split
      · simp
      · refine List.forall_mem_cons.2 ⟨by rcases hc with rfl | rfl <;> decide, fun d hd => ?_⟩
        rcases List.mem_append.1 hd with hd | hd
        · exact plain_spanSign rest d hd
        · exact plain_takeWhile (fun _ => isPlain_of_isDigit) _ d hd
    next => simp
  next => simp

theorem plain_spanNumber (cs : List Char) : ∀ c ∈ (Token.spanNumber cs).1, isPlain c = true := by
  intro c hc
  simp only [Token.spanNumber, List.mem_append] at hc
  rcases hc with (hc | hc) | hc
  · exact plain_takeWhile (fun _ => isPlain_of_isDigit) _ c hc
  · exact plain_spanFraction _ c hc
  · exact plain_spanExponent _ c hc

/-- Among the fixed spellings only the braces count. -/
theorem symbols_plain : ∀ entry ∈ Token.symbols,
    entry.2 = .openBrace ∧ entry.1.toList = ['\x7b'] ∨
    entry.2 = .closeBrace ∧ entry.1.toList = ['\x7d'] ∨
    (entry.2 ≠ .openBrace ∧ entry.2 ≠ .closeBrace) ∧ entry.1.toList.all isPlain = true := by
  decide

theorem ofSymbol?_of_longestSymbol {cs taken rest : List Char} {n : Nat} {token : Token}
    (h : Token.longestSymbol cs n = some (token, taken, rest)) :
    Token.ofSymbol? taken = some token := by
  induction n with
  | zero => cases h
  | succ n ih =>
    simp only [Token.longestSymbol] at h
    split at h
    next hsymbol =>
      obtain ⟨rfl, rfl, -⟩ := by simpa using h
      exact hsymbol
    next => exact ih h

theorem passes_symbol {taken : List Char} {token : Token} (h : Token.ofSymbol? taken = some token)
    {depth depth' : Nat} (step : Expr.braceStep depth token = some depth') :
    Passes taken depth depth' := by
  obtain ⟨⟨text, _⟩, hfind, rfl⟩ := Option.map_eq_some_iff.1 h
  obtain rfl : text.toList = taken := by simpa using List.find?_some hfind
  rcases symbols_plain _ (List.mem_of_find?_eq_some hfind) with
    ⟨htoken, htext⟩ | ⟨htoken, htext⟩ | ⟨⟨hopen, hclose⟩, hplain⟩
  · simp only at htoken htext step
    rw [htoken, Expr.braceStep] at step
    rw [htext, ← Option.some.inj step]
    exact passes_opening depth
  · simp only at htoken htext step
    rw [htoken] at step
    cases depth with
    | zero => cases step
    | succ depth =>
      rw [htext, ← Option.some.inj step]
      exact passes_closing depth
  · have hstep : Expr.braceStep depth _ = some depth := Expr.braceStep_other ⟨hopen, hclose⟩ depth
    obtain rfl := Option.some.inj (hstep.symm.trans step)
    exact passes_plain (List.all_eq_true.1 hplain) depth

theorem passes_quoted {quote : Char} (isQuote : quote = '"' ∨ quote = '\'') {cs taken rest : List Char}
    (h : Token.spanQuoted quote cs = (true, taken, rest)) (depth : Nat) :
    Passes (quote :: taken) depth depth := fun more => by
  have hinside := splitRegion_quoted (by rcases isQuote with rfl | rfl <;> decide) h depth more
  have hquote : Chunk.isQuote quote = true := by rcases isQuote with rfl | rfl <;> rfl
  have hbrace : quote ≠ '\x7b' ∧ quote ≠ '\x7d' := by rcases isQuote with rfl | rfl <;> decide
  rw [List.cons_append, splitRegion_outside hbrace.2, if_neg hbrace.1, if_pos hquote, hinside,
    Option.map_map]
  rfl

/-- The scanner passes over a token. -/
theorem passes_first {cs taken rest : List Char} {token : Token}
    (h : Token.first cs = .ok (token, taken, rest)) {depth depth' : Nat}
    (step : Expr.braceStep depth token = some depth') : Passes taken depth depth' := by
  unfold Token.first at h
  split at h
  next => cases h
  next c cs =>
    split at h
    next =>
      obtain ⟨rfl, hspan⟩ := Prod.mk.inj (Except.ok.inj h)
      obtain rfl : depth = depth' := Option.some.inj step
      rw [show taken = (Token.spanNumber (c :: cs)).1 from (congrArg Prod.fst hspan).symm]
      exact passes_plain (plain_spanNumber _) depth
    next =>
      split at h
      next =>
        obtain ⟨rfl, hspan⟩ := Prod.mk.inj (Except.ok.inj h)
        obtain rfl : depth = depth' := Option.some.inj step
        rw [← show _ = taken from congrArg Prod.fst hspan]
        exact passes_plain (plain_takeWhile (fun _ => isPlain_of_isNameRest) _) depth
      next =>
        split at h
        next isQuote =>
          dsimp only at h
          split at h
          next hclosed =>
            obtain ⟨htoken, hspan⟩ := Prod.mk.inj (Except.ok.inj h)
            obtain rfl : depth = depth' := by
              rw [← htoken] at step
              split at step <;> exact Option.some.inj step
            obtain ⟨rfl, -⟩ := Prod.mk.inj hspan
            exact passes_quoted isQuote (Prod.ext hclosed rfl) depth
          next => cases h
        next =>
          split at h
          next hsymbol =>
            obtain rfl := Except.ok.inj h
            exact passes_symbol (ofSymbol?_of_longestSymbol hsymbol) step
          next => cases h

/-- The scanner passes over a text that tokenizes as the braces among its tokens say. -/
theorem passes_cut {offset : Nat} {cs : List Char} {ts : List Lexeme}
    (h : Token.cut offset cs = .ok ts) {depth depth' : Nat}
    (braces : Expr.braceDepth depth ts = some depth') : Passes cs depth depth' := by
  fun_induction Token.cut offset cs generalizing ts depth with
  | case1 offset cs rest =>
    rename_i hrest
    obtain rfl := Except.ok.inj h
    obtain rfl : depth = depth' := Option.some.inj braces
    have hall : cs.takeWhile Token.isGap = cs := by
      rw [← List.append_nil (cs.takeWhile _), ← List.isEmpty_iff.1 hrest,
        List.takeWhile_append_dropWhile]
    rw [← hall]
    exact passes_plain (plain_takeWhile (fun _ => isPlain_of_isGap) _) depth
  | case2 => cases h
  | case3 offset cs start rest _ token taken rest' hfirst _ =>
    rename_i ih
    cases hcut : Token.cut (start + Text.width taken) rest' with
    | error => simp [hcut, Except.map] at h
    | ok us =>
      rw [hcut] at h
      obtain rfl := Except.ok.inj h
      rw [Expr.braceDepth_cons] at braces
      obtain ⟨middle, hstep, hrest⟩ := Option.bind_eq_some_iff.1 braces
      have hcs : cs.takeWhile Token.isGap ++ (taken ++ rest') = cs := by
        rw [Token.first_append hfirst]
        exact List.takeWhile_append_dropWhile
      rw [← hcs]
      exact (passes_plain (plain_takeWhile (fun _ => isPlain_of_isGap) _) depth).append
        ((passes_first hfirst hstep).append (ih hcut hrest))

/-- The region around an accepted expression ends right behind it. -/
theorem splitRegion_accepted {source : String} {e : Expr} (accepted : Expr.parse source = .ok e)
    (rest : List Char) :
    splitRegion 0 none (source.toList ++ '\x7d' :: rest) = some (source.toList, rest) := by
  obtain ⟨ts, tokenized, derives⟩ := Expr.derives_of_parse accepted
  rw [passes_cut tokenized (derives.balanced 0)]
  simp [splitRegion]

end Chunk

end LiveTemplate
