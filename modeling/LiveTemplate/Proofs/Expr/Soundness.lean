import Mathlib
import LiveTemplate.Proofs.Expr.Grammar

/-!
# What the parser accepts derives

Each parser takes a phrase of its kind from the front of the tokens and returns its tree
(`Level.Sound`). A chain of operators grows to the left: what has been read so far is a chain of the
tier of its last operator, and the next operator does not bind tighter than that one, for the right
operand would have taken it.
-/
namespace LiveTemplate.Expr

/-- The parser takes a phrase of a kind. -/
def Takes (phrase : Phrase) (parser : Parser Expr) : Prop :=
  ∀ {ts rest : List Lexeme} {e : Expr}, parser ts = .ok (e, rest) →
    ∃ us, ts = us ++ rest ∧ Derives phrase us e

/-- The tokens do not go on with an operator of the tier or above. -/
def Stops (tier : Nat) (ts : List Lexeme) : Prop :=
  ∀ t ∈ ts.head?, ∀ op, t.token = .operator op → op.tier < tier

section Pieces

variable {ε α β : Type} {ts rest : List Lexeme}

theorem map_eq_ok {x : Except ε α} {f : α → β} {b : β} :
    x.map f = .ok b ↔ ∃ a, x = .ok a ∧ f a = b := by
  cases x <;> simp [Except.map]

theorem map_eq_error {x : Except ε α} {f : α → β} {e : ε} : x.map f = .error e ↔ x = .error e := by
  cases x <;> simp [Except.map]

theorem expect_eq_ok {token : Token} {wanted : Expectation} {t : Lexeme} :
    expect token wanted ts = .ok (t, rest) ↔ ts = t :: rest ∧ t.token = token := by
  cases ts with
  | nil => simp [expect]
  | cons u us =>
    by_cases h : u.token = token
    · simp only [expect, h, if_true, Except.ok.injEq, Prod.mk.injEq, List.cons.injEq]
      exact ⟨fun ⟨hu, hr⟩ => ⟨⟨hu, hr⟩, hu ▸ h⟩, fun ⟨hur, _⟩ => hur⟩
    · simp only [expect, h, if_false, reduceCtorEq, List.cons.injEq, false_iff]
      rintro ⟨⟨rfl, -⟩, ht⟩
      exact h ht

theorem segmentOf_eq_ok {t : Lexeme} {segment : Segment} (h : segmentOf t = .ok segment) :
    (t.token = .number ∧ ∃ i, readIndex t.text.toList = some i ∧ segment = .index i) ∨
      (IsQuoted t ∧ segment = .key (quotedContent t.text)) := by
  unfold segmentOf at h
  split at h
  next hnumber =>
    split at h
    next i hi => exact .inl ⟨hnumber, i, hi, (Except.ok.inj h).symm⟩
    next => cases h
  next hquoted => exact .inr ⟨.inl hquoted, (Except.ok.inj h).symm⟩
  next hquoted => exact .inr ⟨.inr hquoted, (Except.ok.inj h).symm⟩
  next => cases h

theorem suffixes_members {path p : Path} (h : members path ts = .ok (p, rest)) :
    ∃ us q, ts = us ++ rest ∧ Suffixes us q ∧ p = path ++ q := by
  have done {path p : Path} {ts : List Lexeme} (h : (.ok (path, ts) : Except Failure _) = .ok (p, rest)) :
      ∃ us q, ts = us ++ rest ∧ Suffixes us q ∧ p = path ++ q := by
    obtain ⟨rfl, rfl⟩ := Prod.mk.inj (Except.ok.inj h)
    exact ⟨[], [], rfl, .nil, (List.append_nil _).symm⟩
  fun_induction members path ts with
  | case2 path dot isDot name ts isName ih =>
    obtain ⟨us, q, rfl, suffixes, rfl⟩ := ih h
    exact ⟨_, _, rfl, .member isDot isName suffixes, by simp⟩
  | case7 path opening opens inner segment hsegment closing ts closes ih =>
    obtain ⟨us, q, rfl, suffixes, rfl⟩ := ih h
    rcases segmentOf_eq_ok hsegment with ⟨isNumber, i, whole, rfl⟩ | ⟨isQuoted, rfl⟩
    · exact ⟨_, _, rfl, .index opens isNumber whole closes suffixes, by simp⟩
    · exact ⟨_, _, rfl, .key opens isQuoted closes suffixes, by simp⟩
  | case9 | case10 => exact done h
  | _ => cases h

theorem word_eq (name : String) (ts : List Lexeme) :
    word name ts = match keywords.lookup name with
      | some v => .ok (.literal v, ts)
      | none => (members (rootOf name) ts).map fun (p, rest) => (.path p, rest) := by
  by_cases listed : name ∈ keywords.map (·.1)
  · simp only [keywords, List.map_cons, List.map_nil, List.mem_cons, List.not_mem_nil, or_false]
      at listed
    rcases listed with rfl | rfl | rfl | rfl | rfl | rfl <;> simp [word, keywords, List.lookup]
  · have free : keywords.lookup name = none := List.lookup_eq_none_iff.2 fun p hp => by
      simpa using fun h => listed (List.mem_map.2 ⟨p, hp, h.symm⟩)
    simp only [keywords, List.map_cons, List.map_nil, List.mem_cons, List.not_mem_nil, or_false,
      not_or] at listed
    simp [word, free, rootOf, listed]

theorem derives_word {t : Lexeme} {e : Expr} (isName : t.token = .name)
    (h : word t.text ts = .ok (e, rest)) : ∃ us, ts = us ++ rest ∧ Derives .primary (t :: us) e := by
  rw [word_eq] at h
  split at h
  next v listed =>
    obtain ⟨rfl, rfl⟩ := Prod.mk.inj (Except.ok.inj h)
    exact ⟨[], rfl, .keyword isName listed⟩
  next free =>
    obtain ⟨⟨p, rest⟩, hmembers, hend⟩ := map_eq_ok.1 h
    obtain ⟨rfl, rfl⟩ := Prod.mk.inj hend
    obtain ⟨us, q, rfl, suffixes, rfl⟩ := suffixes_members hmembers
    exact ⟨us, rfl, .path isName free suffixes⟩

theorem keyOf_eq_ok {t : Lexeme} {key : String} (h : keyOf t = .ok key) : FieldKey t key := by
  unfold keyOf at h
  split at h
  next isName => exact Except.ok.inj h ▸ .plain (.inl isName)
  next isNumber => exact Except.ok.inj h ▸ .plain (.inr isNumber)
  next isQuoted => exact Except.ok.inj h ▸ .quoted (.inl isQuoted)
  next isQuoted => exact Except.ok.inj h ▸ .quoted (.inr isQuoted)
  next => cases h

theorem derives_items {item : Parser Expr} (takes : Takes .conditional item) {bound : Nat}
    {es : List Expr} (h : items item bound ts = .ok (es, rest)) :
    ∃ us closing, ts = us ++ closing :: rest ∧ closing.token = .closeBracket ∧
      Derives .items us (.array es) := by
  induction bound generalizing ts es with
  | zero => cases h
  | succ bound ih =>
    unfold items at h
    split at h
    next closing _ hclose =>
      obtain ⟨rfl, rfl⟩ := Prod.mk.inj (Except.ok.inj h)
      obtain ⟨rfl, closes⟩ := expect_eq_ok.1 hclose
      exact ⟨[], _, rfl, closes, .noItem⟩
    next =>
      split at h
      next => cases h
      next e tail hitem =>
        obtain ⟨us, rfl, hderives⟩ := takes hitem
        split at h
        next comma _ hcomma =>
          obtain ⟨⟨es, _⟩, hrest, hend⟩ := map_eq_ok.1 h
          obtain ⟨rfl, rfl⟩ := Prod.mk.inj hend
          obtain ⟨rfl, separates⟩ := expect_eq_ok.1 hcomma
          obtain ⟨vs, closing, rfl, closes, hrest⟩ := ih hrest
          exact ⟨us ++ comma :: vs, closing, by simp, closes, .nextItem hderives separates hrest⟩
        next =>
          obtain ⟨⟨closing, _⟩, hclose, hend⟩ := map_eq_ok.1 h
          obtain ⟨rfl, rfl⟩ := Prod.mk.inj hend
          obtain ⟨rfl, closes⟩ := expect_eq_ok.1 hclose
          exact ⟨us, closing, rfl, closes, .item hderives⟩

theorem derives_field {item : Parser Expr} (takes : Takes .conditional item) {key : String} {e : Expr}
    (h : field item ts = .ok ((key, e), rest)) :
    ∃ t colon us, ts = t :: colon :: (us ++ rest) ∧ FieldKey t key ∧ colon.token = .colon ∧
      Derives .conditional us e := by
  unfold field at h
  split at h
  next => cases h
  next t tail =>
    split at h
    next => cases h
    next key' hkey =>
      split at h
      next => cases h
      next colon _ hcolon =>
        obtain ⟨⟨e, _⟩, hitem, hend⟩ := map_eq_ok.1 h
        obtain ⟨hkeys, rfl⟩ := Prod.mk.inj hend
        obtain ⟨rfl, rfl⟩ := Prod.mk.inj hkeys
        obtain ⟨rfl, assigns⟩ := expect_eq_ok.1 hcolon
        obtain ⟨us, rfl, hderives⟩ := takes hitem
        exact ⟨t, colon, us, rfl, keyOf_eq_ok hkey, assigns, hderives⟩

theorem derives_fields {item : Parser Expr} (takes : Takes .conditional item) {bound : Nat}
    {es : List (String × Expr)} (h : fields item bound ts = .ok (es, rest)) :
    ∃ us closing, ts = us ++ closing :: rest ∧ closing.token = .closeBrace ∧
      Derives .fields us (.object es) := by
  induction bound generalizing ts es with
  | zero => cases h
  | succ bound ih =>
    unfold fields at h
    split at h
    next closing _ hclose =>
      obtain ⟨rfl, rfl⟩ := Prod.mk.inj (Except.ok.inj h)
      obtain ⟨rfl, closes⟩ := expect_eq_ok.1 hclose
      exact ⟨[], _, rfl, closes, .noField⟩
    next =>
      split at h
      next => cases h
      next e tail hfield =>
        obtain ⟨t, colon, us, rfl, isKey, assigns, hderives⟩ := derives_field takes hfield
        split at h
        next comma _ hcomma =>
          obtain ⟨⟨es, _⟩, hrest, hend⟩ := map_eq_ok.1 h
          obtain ⟨rfl, rfl⟩ := Prod.mk.inj hend
          obtain ⟨rfl, separates⟩ := expect_eq_ok.1 hcomma
          obtain ⟨vs, closing, rfl, closes, hrest⟩ := ih hrest
          exact ⟨t :: colon :: (us ++ comma :: vs), closing, by simp, closes,
            .nextField isKey assigns hderives separates hrest⟩
        next =>
          obtain ⟨⟨closing, _⟩, hclose, hend⟩ := map_eq_ok.1 h
          obtain ⟨rfl, rfl⟩ := Prod.mk.inj hend
          obtain ⟨rfl, closes⟩ := expect_eq_ok.1 hclose
          exact ⟨t :: colon :: us, closing, by simp, closes, .field isKey assigns hderives⟩

end Pieces

namespace Level

/-- Each parser of a level takes a phrase of its kind. -/
structure Sound (level : Level) : Prop where
  conditional : Takes .conditional level.conditional
  unary : Takes .unary level.unary
  binary : ∀ {tier : Nat} {ts rest : List Lexeme} {e : Expr}, tier ≤ 7 →
    level.binary tier ts = .ok (e, rest) →
      (∃ us, ts = us ++ rest ∧ Derives (.binary tier) us e) ∧ Stops tier rest
  chain : ∀ {tier m : Nat} {ls ts rest : List Lexeme} {left e : Expr}, tier ≤ m →
    Derives (.binary m) ls left → Stops (m + 1) ts → level.chain tier left ts = .ok (e, rest) →
      (∃ us, ts = us ++ rest ∧ Derives (.binary tier) (ls ++ us) e) ∧ Stops tier rest

variable {below : Option Level} (hbelow : ∀ level ∈ below, level.Sound)
include hbelow

theorem takes_conditional : Takes .conditional (conditionalOver below) := by
  intro ts rest e h
  unfold conditionalOver at h
  split at h
  next => cases h
  next _ level =>
    have hlevel := hbelow level rfl
    split at h
    next => cases h
    next condition hcondition =>
      obtain ⟨rfl, rfl⟩ := Prod.mk.inj (Except.ok.inj h)
      obtain ⟨⟨us, rfl, hderives⟩, -⟩ := hlevel.binary (by decide) hcondition
      exact ⟨us, rfl, .operation hderives⟩
    next condition question tail hcondition =>
      obtain ⟨⟨us, rfl, hderives⟩, -⟩ := hlevel.binary (by decide) hcondition
      split at h
      next asks =>
        split at h
        next => cases h
        next whenTrue tail hwhenTrue =>
          obtain ⟨vs, rfl, hthen⟩ := hlevel.conditional hwhenTrue
          split at h
          next => cases h
          next colon tail hcolon =>
            obtain ⟨⟨whenFalse, _⟩, hwhenFalse, hend⟩ := map_eq_ok.1 h
            obtain ⟨rfl, rfl⟩ := Prod.mk.inj hend
            obtain ⟨rfl, separates⟩ := expect_eq_ok.1 hcolon
            obtain ⟨ws, rfl, helse⟩ := hlevel.conditional hwhenFalse
            exact ⟨us ++ question :: (vs ++ colon :: ws), by simp,
              .conditional hderives asks hthen separates helse⟩
      next =>
        obtain ⟨rfl, rfl⟩ := Prod.mk.inj (Except.ok.inj h)
        exact ⟨us, rfl, .operation hderives⟩

theorem takes_primary : Takes .primary (primaryOver below) := by
  intro ts rest e h
  unfold primaryOver at h
  split at h
  next => cases h
  next t tail =>
    split at h
    next isNumber =>
      obtain ⟨rfl, rfl⟩ := Prod.mk.inj (Except.ok.inj h)
      exact ⟨[t], rfl, .number isNumber⟩
    next isQuoted =>
      obtain ⟨rfl, rfl⟩ := Prod.mk.inj (Except.ok.inj h)
      exact ⟨[t], rfl, .text (.inl isQuoted)⟩
    next isQuoted =>
      obtain ⟨rfl, rfl⟩ := Prod.mk.inj (Except.ok.inj h)
      exact ⟨[t], rfl, .text (.inr isQuoted)⟩
    next isName =>
      obtain ⟨us, rfl, hderives⟩ := derives_word isName h
      exact ⟨t :: us, rfl, hderives⟩
    next opens =>
      split at h
      next => cases h
      next e tail hinner =>
        obtain ⟨us, rfl, hderives⟩ := takes_conditional hbelow hinner
        obtain ⟨⟨closing, _⟩, hclose, hend⟩ := map_eq_ok.1 h
        obtain ⟨rfl, rfl⟩ := Prod.mk.inj hend
        obtain ⟨rfl, closes⟩ := expect_eq_ok.1 hclose
        exact ⟨t :: (us ++ [closing]), by simp, .group opens hderives closes⟩
    next opens =>
      split at h
      next => cases h
      next level =>
        obtain ⟨⟨es, _⟩, hitems, hend⟩ := map_eq_ok.1 h
        obtain ⟨rfl, rfl⟩ := Prod.mk.inj hend
        obtain ⟨us, closing, rfl, closes, hderives⟩ :=
          derives_items (hbelow level rfl).conditional hitems
        exact ⟨t :: (us ++ [closing]), by simp, .array opens hderives closes⟩
    next opens =>
      split at h
      next => cases h
      next level =>
        obtain ⟨⟨es, _⟩, hfields, hend⟩ := map_eq_ok.1 h
        obtain ⟨rfl, rfl⟩ := Prod.mk.inj hend
        obtain ⟨us, closing, rfl, closes, hderives⟩ :=
          derives_fields (hbelow level rfl).conditional hfields
        exact ⟨t :: (us ++ [closing]), by simp, .object opens hderives closes⟩
    next => cases h

theorem takes_unary : Takes .unary (unaryOver below) := by
  intro ts rest e h
  have plain (h : primaryOver below ts = .ok (e, rest)) :
      ∃ us, ts = us ++ rest ∧ Derives .unary us e := by
    obtain ⟨us, rfl, hderives⟩ := takes_primary hbelow h
    exact ⟨us, rfl, .primary hderives⟩
  unfold unaryOver at h
  split at h
  next => exact plain h
  next t tail =>
    split at h
    next => exact plain h
    next op isOperator =>
      split at h
      next => cases h
      next level =>
        obtain ⟨⟨e, _⟩, hoperand, hend⟩ := map_eq_ok.1 h
        obtain ⟨rfl, rfl⟩ := Prod.mk.inj hend
        obtain ⟨us, rfl, hderives⟩ := (hbelow level rfl).unary hoperand
        exact ⟨t :: us, rfl, .unary isOperator hderives⟩

theorem sound_chain {tier m : Nat} {ls ts rest : List Lexeme} {left e : Expr} (loose : tier ≤ m)
    (hleft : Derives (.binary m) ls left) (stops : Stops (m + 1) ts)
    (h : chainOver below tier left ts = .ok (e, rest)) :
    (∃ us, ts = us ++ rest ∧ Derives (.binary tier) (ls ++ us) e) ∧ Stops tier rest := by
  have done {ts : List Lexeme} (stops : Stops tier ts)
      (h : (.ok (left, ts) : Except Failure _) = .ok (e, rest)) :
      (∃ us, ts = us ++ rest ∧ Derives (.binary tier) (ls ++ us) e) ∧ Stops tier rest := by
    obtain ⟨rfl, rfl⟩ := Prod.mk.inj (Except.ok.inj h)
    exact ⟨⟨[], rfl, (List.append_nil ls).symm ▸ hleft.looser loose⟩, stops⟩
  unfold chainOver at h
  split at h
  next => exact done nofun h
  next t tail =>
    split at h
    next op isOperator =>
      split at h
      next looser =>
        refine done (fun u hu op' hop' => ?_) h
        obtain rfl : t = u := Option.some.inj hu
        obtain rfl := Token.operator.inj (isOperator.symm.trans hop')
        exact looser
      next tighter =>
        split at h
        next => cases h
        next level =>
          split at h
          next => cases h
          next right tail' hright =>
            have htier := tier_le op
            obtain ⟨⟨us, rfl, hderives⟩, hstops⟩ :=
              (hbelow level rfl).binary (by omega) hright
            -- the left operand is a chain of the tier of this operator
            have hop : op.tier ≤ m := Nat.le_of_lt_succ (stops t rfl op isOperator)
            have hbinary := Derives.binary (hleft.looser hop) isOperator hderives
            obtain ⟨⟨vs, rfl, hall⟩, hend⟩ :=
              (hbelow level rfl).chain (Nat.le_of_not_lt tighter) hbinary hstops h
            exact ⟨⟨t :: (us ++ vs), by simp, by simpa using hall⟩, hend⟩
    next other =>
      refine done (fun u hu op hop => ?_) h
      obtain rfl : t = u := Option.some.inj hu
      exact absurd hop (other op)

theorem sound_above : (above below).Sound where
  conditional := takes_conditional hbelow
  unary := takes_unary hbelow
  binary {tier ts rest e} htier h := by
    change binaryOver below tier ts = _ at h
    unfold binaryOver at h
    split at h
    next => cases h
    next left tail hleft =>
      obtain ⟨us, rfl, hderives⟩ := takes_unary hbelow hleft
      obtain ⟨⟨vs, rfl, hall⟩, hstops⟩ := sound_chain hbelow htier (.operand hderives)
        (fun _ _ op _ => by have := tier_le op; omega) h
      exact ⟨⟨us ++ vs, by simp, hall⟩, hstops⟩
  chain := sound_chain hbelow

omit hbelow in
theorem sound_withRoom (room : Nat) : (withRoom room).Sound := by
  induction room with
  | zero => exact sound_above nofun
  | succ room ih => exact sound_above fun level hlevel => Option.some.inj hlevel ▸ ih

end Level

/-- A list of tokens that is accepted is an expression. -/
theorem derives_of_ofLexemes {ts : List Lexeme} {e : Expr} (h : ofLexemes ts = .ok e) :
    Derives .conditional ts e := by
  unfold ofLexemes at h
  split at h
  next => cases h
  next e' hconditional =>
    obtain rfl := Except.ok.inj h
    obtain ⟨us, rfl, hderives⟩ := (Level.sound_withRoom maxHeight).conditional hconditional
    rwa [List.append_nil]
  next => cases h

/-- A source that is accepted tokenizes, and its tokens are an expression. -/
theorem derives_of_parse {source : String} {e : Expr} (h : parse source = .ok e) :
    ∃ ts, Token.tokenize source = .ok ts ∧ Derives .conditional ts e := by
  unfold parse at h
  split at h
  next => cases h
  next ts tokenized =>
    split at h
    next => cases h
    next =>
      cases hparse : ofLexemes ts with
      | error => simp [hparse, Except.mapError] at h
      | ok f =>
        rw [hparse] at h
        obtain rfl := Except.ok.inj h
        exact ⟨ts, tokenized, derives_of_ofLexemes hparse⟩

end LiveTemplate.Expr
