import Mathlib
import LiveTemplate.Proofs.Template.Writing
import LiveTemplate.Proofs.Text.Place

/-!
# Splitting a template

The inside of a region has a grammar of its own, apart from the scanner: plain characters, quoted
stretches and braces around another inside (`Chunk.Enclosed`). The scanner ends a region at a brace
exactly when what stands before it is such an inside (`Chunk.splitRegion_iff`), so a brace that closes a
region is the only one that can. A source is then cut in one of three ways: it has no opener, the first
opener is closed, or no brace closes it (`Chunk.cut_closed`, `Chunk.cut_enclosed`,
`Chunk.cut_unclosed`). Nothing is lost on the way, and what cannot be cut is reported from its opener to
the end (`Template.split_law`).
-/
namespace LiveTemplate

namespace Chunk

/-! ## The inside of a region -/

/-- What can stand between two quotes: a backslash takes the next character with it. -/
inductive Quoted (quote : Char) : List Char → Prop where
  | nil : Quoted quote []
  | escape (c : Char) {cs : List Char} : Quoted quote cs → Quoted quote ('\\' :: c :: cs)
  | plain {c : Char} {cs : List Char} : c ≠ '\\' → c ≠ quote → Quoted quote cs →
      Quoted quote (c :: cs)

/-- What can stand between the opener of a region and the brace that closes it. -/
inductive Enclosed : List Char → Prop where
  | nil : Enclosed []
  | plain {c : Char} {cs : List Char} : isPlain c = true → Enclosed cs → Enclosed (c :: cs)
  | quoted {quote : Char} {stretch cs : List Char} : isQuote quote = true → Quoted quote stretch →
      Enclosed cs → Enclosed (quote :: (stretch ++ quote :: cs))
  | braces {inner cs : List Char} : Enclosed inner → Enclosed cs →
      Enclosed ('\x7b' :: (inner ++ '\x7d' :: cs))

theorem ne_of_isQuote {c : Char} (h : isQuote c = true) : c ≠ '\\' ∧ c ≠ '\x7b' ∧ c ≠ '\x7d' := by
  refine ⟨?_, ?_, ?_⟩ <;> rintro rfl <;> revert h <;> decide

theorem Quoted.passes {quote : Char} {stretch : List Char} (isQuote : isQuote quote = true)
    (h : Quoted quote stretch) (depth : Nat) (rest : List Char) :
    splitRegion depth (some quote) (stretch ++ quote :: rest) =
      (splitRegion depth none rest).map fun (body, rest) => (stretch ++ quote :: body, rest) := by
  induction h with
  | nil => rw [List.nil_append, splitRegion_inside (ne_of_isQuote isQuote).1, if_pos rfl]; rfl
  | escape c _ ih =>
    rw [List.cons_append, List.cons_append, splitRegion, ih, Option.map_map]
    rfl
  | plain hescape hquote _ ih =>
    rw [List.cons_append, splitRegion_inside hescape, if_neg hquote, ih, Option.map_map]
    rfl

theorem Enclosed.passes {body : List Char} (h : Enclosed body) (depth : Nat) :
    Passes body depth depth := by
  induction h generalizing depth with
  | nil => exact passes_nil depth
  | @plain c _ hplain _ ih =>
    have : ∀ d ∈ [c], isPlain d = true := by simpa using hplain
    exact (passes_plain this depth).append (ih depth)
  | quoted isQuote stretch _ ih =>
    intro rest
    obtain ⟨-, hopen, hclose⟩ := ne_of_isQuote isQuote
    rw [List.cons_append, splitRegion_outside hclose, if_neg hopen, if_pos isQuote, List.append_assoc,
      List.cons_append, stretch.passes isQuote, ih, Option.map_map, Option.map_map]
    simp [Function.comp_def]
  | braces _ _ ihInner ih =>
    exact (passes_opening depth).append
      ((ihInner (depth + 1)).append ((passes_closing depth).append (ih depth)))

/-- The rest of a region inside which a number of braces is open. -/
def Within : Nat → List Char → Prop
  | 0, body => Enclosed body
  | depth + 1, body => ∃ inner outer, body = inner ++ '\x7d' :: outer ∧ Enclosed inner ∧
      Within depth outer

/-- The rest of a region from a point inside it, where a quote may be open. -/
def Remainder (depth : Nat) : Option Char → List Char → Prop
  | none, body => Within depth body
  | some quote, body => ∃ stretch outer, body = stretch ++ quote :: outer ∧ Quoted quote stretch ∧
      Within depth outer

theorem Within.prepend (front : List Char) (keeps : ∀ cs, Enclosed cs → Enclosed (front ++ cs))
    {depth : Nat} {body : List Char} (h : Within depth body) : Within depth (front ++ body) := by
  cases depth with
  | zero => exact keeps body h
  | succ depth =>
    obtain ⟨inner, outer, rfl, hinner, houter⟩ := h
    exact ⟨front ++ inner, outer, by simp, keeps inner hinner, houter⟩

/-- A character outside quotes and the rest of the region behind it. -/
theorem Remainder.outside {depth : Nat} {c : Char} {body : List Char} (hclose : c ≠ '\x7d')
    (h : Remainder (if c = '\x7b' then depth + 1 else depth) (if isQuote c then some c else none)
      body) : Within depth (c :: body) := by
  by_cases hopen : c = '\x7b'
  · subst hopen
    obtain ⟨inner, outer, rfl, hinner, houter⟩ := h
    have := houter.prepend ('\x7b' :: (inner ++ ['\x7d'])) fun cs hcs => by
      simpa using Enclosed.braces hinner hcs
    simpa using this
  · rw [if_neg hopen] at h
    by_cases hquote : isQuote c = true
    · rw [if_pos hquote] at h
      obtain ⟨stretch, outer, rfl, hstretch, houter⟩ := h
      have := houter.prepend (c :: (stretch ++ [c])) fun cs hcs => by
        simpa using Enclosed.quoted hquote hstretch hcs
      simpa using this
    · rw [if_neg hquote] at h
      have hplain : isPlain c = true := by simp [isPlain, hopen, hclose, hquote]
      exact Within.prepend [c] (fun cs hcs => .plain hplain hcs) h

theorem remainder_of_splitRegion {depth : Nat} {quote : Option Char} {cs body rest : List Char}
    (h : splitRegion depth quote cs = some (body, rest)) : Remainder depth quote body := by
  fun_induction splitRegion depth quote cs generalizing body with
  | case1 | case2 => cases h
  | case3 depth quote c cs ih =>
    simp only [Option.map_eq_some_iff, Prod.mk.injEq, Prod.exists] at h
    obtain ⟨body', _, hb, rfl, rfl⟩ := h
    obtain ⟨stretch, outer, rfl, hstretch, houter⟩ := ih hb
    exact ⟨'\\' :: c :: stretch, outer, rfl, hstretch.escape c, houter⟩
  | case4 depth quote c cs hlast hescape ih =>
    simp only [Option.map_eq_some_iff, Prod.mk.injEq, Prod.exists] at h
    obtain ⟨body', _, hb, rfl, rfl⟩ := h
    have hrest := ih hb
    by_cases hquote : c = quote
    · rw [if_pos hquote] at hrest
      exact ⟨[], body', by rw [hquote]; rfl, .nil, hrest⟩
    · rw [if_neg hquote] at hrest
      obtain ⟨stretch, outer, rfl, hstretch, houter⟩ := hrest
      have hc : c ≠ '\\' := by
        rintro rfl
        cases cs with
        | nil => exact hlast rfl rfl
        | cons d cs => exact hescape d cs rfl rfl
      exact ⟨c :: stretch, outer, rfl, hstretch.plain hc hquote, houter⟩
  | case5 cs =>
    cases h
    exact Enclosed.nil
  | case6 cs depth ih =>
    simp only [Option.map_eq_some_iff, Prod.mk.injEq, Prod.exists] at h
    obtain ⟨body', _, hb, rfl, rfl⟩ := h
    exact ⟨[], body', rfl, .nil, ih hb⟩
  | case7 depth c cs hc ih =>
    simp only [Option.map_eq_some_iff, Prod.mk.injEq, Prod.exists] at h
    obtain ⟨body', _, hb, rfl, rfl⟩ := h
    exact (ih hb).outside hc

/-- A region ends at a brace exactly when what stands before the brace is the inside of a region. -/
theorem splitRegion_iff {cs body rest : List Char} :
    splitRegion 0 none cs = some (body, rest) ↔ Enclosed body ∧ cs = body ++ '\x7d' :: rest := by
  constructor
  · exact fun h => ⟨remainder_of_splitRegion h, splitRegion_some h⟩
  · rintro ⟨enclosed, rfl⟩
    rw [enclosed.passes 0]
    simp [splitRegion]

/-- No brace of the text closes a region that opens right before the text. -/
def Unclosed (after : List Char) : Prop :=
  ∀ body rest, after = body ++ '\x7d' :: rest → ¬Enclosed body

theorem splitRegion_eq_none {after : List Char} :
    splitRegion 0 none after = none ↔ Unclosed after := by
  rw [Option.eq_none_iff_forall_ne_some]
  refine ⟨fun h body rest hafter enclosed => h (body, rest) (splitRegion_iff.2 ⟨enclosed, hafter⟩),
    fun h (body, rest) hsplit => ?_⟩
  obtain ⟨enclosed, hafter⟩ := splitRegion_iff.1 hsplit
  exact h body rest hafter enclosed

/-! ## The three ways to cut -/

/-- A source has no opener, or it begins with a text and the opener that ends the text. -/
theorem exists_opener (cs : List Char) : hasOpener cs = false ∨
    ∃ front after, hasOpener front = false ∧ cs = front ++ opener ++ after := by
  fun_induction hasOpener cs with
  | case1 cs => exact .inr ⟨[], cs, rfl, rfl⟩
  | case2 c cs hc ih =>
    refine ih.imp_right ?_
    rintro ⟨front, after, closed, rfl⟩
    refine ⟨c :: front, after, ?_, rfl⟩
    rw [hasOpener, closed]
    rintro rest rfl hfront
    exact hc (rest ++ opener ++ after) rfl (by rw [hfront]; rfl)
  | case3 => exact .inl rfl

theorem cut_enclosed {front body : List Char} (closed : hasOpener front = false)
    (enclosed : Enclosed body) (rest : List Char) (offset : Nat) :
    cut offset (front ++ opener ++ (body ++ '\x7d' :: rest)) =
      (cut (offset + Text.width front + Text.width opener + Text.width body + Text.width ['\x7d'])
        rest).map fun chunks => ofText front ++
          .region (String.ofList body) (offset + Text.width front + Text.width opener) :: chunks := by
  have hsplit := splitOpener_text closed (body ++ '\x7d' :: rest)
  have hregion : splitRegion 0 none (body ++ '\x7d' :: rest) = some (body, rest) :=
    splitRegion_iff.2 ⟨enclosed, rfl⟩
  rw [cut]
  split
  next h => cases (Prod.mk.inj (hsplit.symm.trans h)).2
  next h =>
    obtain ⟨rfl, hafter⟩ := Prod.mk.inj (hsplit.symm.trans h)
    obtain rfl := Option.some.inj hafter
    split
    next h => cases hregion.symm.trans h
    next h =>
      obtain ⟨rfl, rfl⟩ := Prod.mk.inj (Option.some.inj (hregion.symm.trans h))
      rfl

theorem cut_unclosed {front after : List Char} (closed : hasOpener front = false)
    (unclosed : Unclosed after) (offset : Nat) :
    cut offset (front ++ opener ++ after) =
      .error ⟨.unterminatedRegion, String.ofList (opener ++ after), offset + Text.width front⟩ := by
  have hsplit := splitOpener_text closed after
  rw [cut]
  split
  next h => cases (Prod.mk.inj (hsplit.symm.trans h)).2
  next h =>
    obtain ⟨rfl, hafter⟩ := Prod.mk.inj (hsplit.symm.trans h)
    obtain rfl := Option.some.inj hafter
    split
    next => rfl
    next h => cases (splitRegion_eq_none.2 unclosed).symm.trans h

/-! ## What a cut keeps -/

def isText : Chunk → Bool
  | text _ => true
  | region _ _ => false

end Chunk

open Chunk (opener)

/-- The pieces written one after the other are the source, and no text among them is empty, holds an
opener or meets another text. -/
structure Splits {α : Type} (write : α → List Char) (isText : α → Bool) (source : List Char)
    (pieces : List α) : Prop where
  written : pieces.flatMap write = source
  nonempty : ∀ p ∈ pieces, isText p = true → write p ≠ []
  closed : ∀ p ∈ pieces, isText p = true → ¬opener <:+: write p
  apart : pieces.IsChain fun p q => ¬(isText p = true ∧ isText q = true)

namespace Chunk

theorem splits_ofText {cs : List Char} (closed : hasOpener cs = false) :
    Splits write isText cs (ofText cs) := by
  have hopener : ¬opener <:+: cs := by simp [← hasOpener_iff, closed]
  unfold ofText
  split
  next h => exact ⟨by simpa using h.symm, by simp, by simp, by simp⟩
  next h => exact ⟨by simp [write], by simpa [write] using fun _ => h,
      by simpa [write] using fun _ => hopener, by simp⟩

theorem splits_region {body rest : List Char} {chunks : List Chunk}
    (h : Splits write isText rest chunks) (offset : Nat) :
    Splits write isText (opener ++ (body ++ '\x7d' :: rest))
      (.region (String.ofList body) offset :: chunks) where
  written := by simp [write, h.written]
  nonempty := by simpa [isText] using h.nonempty
  closed := by simpa [isText] using h.closed
  apart := h.apart.cons fun _ _ => by simp [isText]

theorem splits_ofText_append {front cs : List Char} {c : Chunk} {chunks : List Chunk}
    (closed : hasOpener front = false) (isRegion : isText c = false)
    (h : Splits write isText cs (c :: chunks)) :
    Splits write isText (front ++ cs) (ofText front ++ c :: chunks) := by
  have hfront := splits_ofText closed
  refine ⟨?_, ?_, ?_, ?_⟩
  · rw [List.flatMap_append, hfront.written, h.written]
  · exact List.forall_mem_append.2 ⟨hfront.nonempty, h.nonempty⟩
  · exact List.forall_mem_append.2 ⟨hfront.closed, h.closed⟩
  · refine List.isChain_append.2 ⟨hfront.apart, h.apart, fun p _ q hq => ?_⟩
    obtain rfl : c = q := by simpa using hq
    simp [isRegion]

/-- The regions stand where the pieces before them end, behind their openers, and can be closed. -/
def Placed (offset : Nat) (chunks : List Chunk) : Prop :=
  ∀ before body start after, chunks = before ++ .region body start :: after →
    start = offset + Text.width (before.flatMap write ++ opener) ∧ Enclosed body.toList

theorem Placed.cons {offset : Nat} {c : Chunk} {chunks : List Chunk}
    (first : ∀ body start, c = .region body start →
      start = offset + Text.width opener ∧ Enclosed body.toList)
    (h : Placed (offset + Text.width c.write) chunks) : Placed offset (c :: chunks) := by
  rintro (- | ⟨d, before⟩) body start after heq
  · exact first body start (List.cons.inj heq).1
  · obtain ⟨rfl, hchunks⟩ := List.cons.inj heq
    obtain ⟨rfl, enclosed⟩ := h before body start after hchunks
    exact ⟨by simp [Nat.add_assoc], enclosed⟩

theorem placed_ofText_append {offset : Nat} {front : List Char} {chunks : List Chunk}
    (h : Placed (offset + Text.width front) chunks) : Placed offset (ofText front ++ chunks) := by
  unfold ofText
  split
  next hfront =>
    obtain rfl := List.isEmpty_iff.1 hfront
    exact h
  next => exact Placed.cons (fun _ _ h => by cases h) (by simpa [write] using h)

theorem placed_nil (offset : Nat) : Placed offset [] := fun before _ _ _ h => by
  cases before <;> cases h

/-- What a cut comes to: every character in its piece, or the opener that no brace closes. -/
def Outcome (offset : Nat) (cs : List Char) : Except TemplateError (List Chunk) → Prop
  | .ok chunks => Splits write isText cs chunks ∧ Placed offset chunks
  | .error e => ∃ before after chunks, cs = before ++ opener ++ after ∧ Unclosed after ∧
      cut offset before = .ok chunks ∧
      e = ⟨.unterminatedRegion, String.ofList (opener ++ after), offset + Text.width before⟩

theorem outcome_enclosed {front body rest : List Char} (closed : hasOpener front = false)
    (enclosed : Enclosed body) (h : ∀ next, Outcome next rest (cut next rest)) (offset : Nat) :
    Outcome offset (front ++ opener ++ (body ++ '\x7d' :: rest))
      (cut offset (front ++ opener ++ (body ++ '\x7d' :: rest))) := by
  have hcut := fun rest => cut_enclosed closed enclosed rest offset
  generalize hnext : offset + Text.width front + Text.width opener + Text.width body +
    Text.width ['\x7d'] = next at hcut
  have hrest := h next
  rw [hcut]
  cases hchunks : cut next rest with
  | ok chunks =>
    rw [hchunks] at hrest
    obtain ⟨splits, placed⟩ := hrest
    constructor
    · rw [List.append_assoc]
      exact splits_ofText_append closed rfl (splits_region splits _)
    · refine placed_ofText_append (.cons ?_ ?_)
      · rintro _ _ ⟨rfl, rfl⟩
        exact ⟨rfl, by simpa using enclosed⟩
      · simpa [write, ← hnext, Nat.add_assoc] using placed
  | error e =>
    rw [hchunks] at hrest
    obtain ⟨before, after, chunks, rfl, unclosed, hbefore, rfl⟩ := hrest
    have hfront := hcut before
    rw [hbefore, Except.map] at hfront
    exact ⟨_, after, _, by simp, unclosed, hfront, by simp [← hnext, Nat.add_assoc]⟩

theorem cut_outcome (offset : Nat) (cs : List Char) : Outcome offset cs (cut offset cs) := by
  induction hn : cs.length using Nat.strong_induction_on generalizing offset cs with
  | _ n ih =>
  obtain closed | ⟨front, after, closed, rfl⟩ := exists_opener cs
  · rw [cut_closed closed]
    exact ⟨splits_ofText closed, by simpa using placed_ofText_append (placed_nil _)⟩
  · by_cases unclosed : Unclosed after
    · rw [cut_unclosed closed unclosed]
      exact ⟨front, after, _, rfl, unclosed, cut_closed closed offset, rfl⟩
    · obtain ⟨body, rest, rfl, enclosed⟩ : ∃ body rest, after = body ++ '\x7d' :: rest ∧
          Enclosed body := by
        simpa [Unclosed] using unclosed
      refine outcome_enclosed closed enclosed (fun next => ih rest.length ?_ next rest rfl) offset
      simp only [List.length_append, List.length_cons] at hn
      omega

end Chunk

/-- A split of a source whose pieces meet at character boundaries. -/
structure Lossless {α : Type} (write : α → List Char) (isText : α → Bool) (source : String)
    (pieces : List α) : Prop extends Splits write isText source.toList pieces where
  boundaries : ∀ before after, pieces = before ++ after →
    String.Pos.Raw.IsValid source ⟨Text.width (before.flatMap write)⟩

theorem Splits.lossless {α : Type} {write : α → List Char} {isText : α → Bool} {source : String}
    {pieces : List α} (h : Splits write isText source.toList pieces) :
    Lossless write isText source pieces where
  toSplits := h
  boundaries before after hpieces := by
    have hsource : source.toList = before.flatMap write ++ "".toList ++ after.flatMap write := by
      simp [← h.written, hpieces]
    exact (Text.stands_iff.2 ⟨_, _, hsource, rfl⟩).boundary

/-- A split is about what the pieces write and which of them are texts, and nothing else. -/
theorem splits_map {α β : Type} {write : β → List Char} {isText : β → Bool} {cs : List Char}
    {f : α → β} {pieces : List α} :
    Splits write isText cs (pieces.map f) ↔ Splits (write ∘ f) (isText ∘ f) cs pieces := by
  constructor
  · rintro ⟨written, nonempty, closed, apart⟩
    rw [List.flatMap_map] at written
    exact ⟨written, by simpa using nonempty, by simpa using closed, by simpa [List.isChain_map] using apart⟩
  · rintro ⟨written, nonempty, closed, apart⟩
    refine ⟨?_, by simpa using nonempty, by simpa using closed, by simpa [List.isChain_map] using apart⟩
    rw [List.flatMap_map]
    exact written

namespace Template

open Chunk

theorem map_partsOfChunks {chunks : List Chunk} {parts : List Part}
    (h : partsOfChunks chunks = .ok parts) :
    parts.map (fun p => (p.write, p.isText)) = chunks.map fun c => (c.write, c.isText) := by
  fun_induction partsOfChunks chunks generalizing parts with
  | case1 => cases h; rfl
  | case2 s rest ih | case4 s _ rest _ _ ih =>
    obtain ⟨parts, hrest, rfl⟩ := Expr.map_eq_ok.1 h
    rw [List.map_cons, List.map_cons, ih hrest]
    rfl
  | case3 => cases h

theorem partsOfChunks_error {chunks : List Chunk} {e : TemplateError}
    (h : partsOfChunks chunks = .error e) : ∃ body offset inside, .region body offset ∈ chunks ∧
      Expr.parse body = .error inside ∧ e = inside.shift offset := by
  fun_induction partsOfChunks chunks with
  | case1 => cases h
  | case2 s rest ih | case4 s _ rest _ _ ih =>
    obtain ⟨body, offset, inside, hmem, hinside⟩ := ih (Expr.map_eq_error.1 h)
    exact ⟨body, offset, inside, .tail _ hmem, hinside⟩
  | case3 source offset rest inside hinside =>
    cases h
    exact ⟨source, offset, inside, .head _, hinside, rfl⟩

theorem splits_parts {chunks : List Chunk} {parts : List Part} {cs : List Char}
    (h : partsOfChunks chunks = .ok parts) (splits : Splits write isText cs chunks) :
    Splits Part.write Part.isText cs parts := by
  have hpairs : Splits Prod.fst Prod.snd cs (chunks.map fun c => (c.write, c.isText)) :=
    splits_map.2 splits
  rw [← map_partsOfChunks h] at hpairs
  exact splits_map.1 hpairs

theorem splits_text {source : String} (nonempty : source ≠ "") (closed : isLiteral source = false) :
    Splits Part.write Part.isText source.toList [.text source] := by
  have hchunks := splits_ofText closed
  rw [ofText_toList nonempty] at hchunks
  exact splits_parts rfl hchunks

theorem splits_scan {source : String} {chunks : List Chunk} (h : scan source = .ok chunks) :
    Splits write isText source.toList chunks ∧ Placed 0 chunks := by
  have houtcome := cut_outcome 0 source.toList
  rwa [← scan, h] at houtcome

theorem stands_region {source : String} {before after : List Chunk} {body : String} {start : Nat}
    (h : scan source = .ok (before ++ .region body start :: after)) :
    start = Text.width (before.flatMap write ++ opener) ∧ Text.Stands source start body ∧
      Enclosed body.toList := by
  obtain ⟨splits, placed⟩ := splits_scan h
  obtain ⟨hstart, enclosed⟩ := placed before body start after rfl
  rw [Nat.zero_add] at hstart
  refine ⟨hstart, Text.stands_iff.2 ⟨_, '\x7d' :: after.flatMap write, ?_, hstart.symm⟩, enclosed⟩
  simp [← splits.written, write]

theorem unclosed_scan {source : String} {e : TemplateError} (h : scan source = .error e) :
    e.reason = .unterminatedRegion ∧ ∃ before after chunks, source.toList = before ++ opener ++ after ∧
      e.offset = Text.width before ∧ e.fragment.toList = opener ++ after ∧ Unclosed after ∧
      scan (String.ofList before) = .ok chunks := by
  have houtcome := cut_outcome 0 source.toList
  rw [← scan, h] at houtcome
  obtain ⟨before, after, chunks, hsource, unclosed, hbefore, rfl⟩ := houtcome
  refine ⟨rfl, before, after, chunks, hsource, Nat.zero_add _, String.toList_ofList, unclosed, ?_⟩
  rwa [scan, String.toList_ofList]

theorem splits_parse {source : String} {t : Template} (h : parse source = .ok t)
    (nonempty : source ≠ "") : Splits Part.write Part.isText source.toList t.parts := by
  obtain ⟨-, ⟨closed, hparts⟩ | ⟨-, chunks, hscan, hparts⟩⟩ := parse_eq_ok h
  · rw [hparts]
    exact splits_text nonempty closed
  · exact splits_parts hparts (splits_scan hscan).1

/-- Cutting keeps every character of a source, or reports the opener that no brace closes. Parsing keeps
them too; it fails where cutting fails, or in a region. The empty source is one empty text. -/
theorem split_law (source : String) :
    (match scan source with
      | .ok chunks => Lossless write isText source chunks ∧
          ∀ before body start after, chunks = before ++ .region body start :: after →
            start = Text.width (before.flatMap write ++ opener) ∧ Text.Stands source start body ∧
              Enclosed body.toList
      | .error e => e.reason = .unterminatedRegion ∧
          ∃ before after chunks, source.toList = before ++ opener ++ after ∧
            e.offset = Text.width before ∧ e.fragment.toList = opener ++ after ∧ Unclosed after ∧
            scan (String.ofList before) = .ok chunks) ∧
    (match parse source with
      | .ok t => if source = "" then t.parts = [.text ""] else
          Lossless Part.write Part.isText source t.parts
      | .error e => scan source = .error e ∨
          ∃ chunks body offset inside, scan source = .ok chunks ∧ .region body offset ∈ chunks ∧
            Expr.parse body = .error inside ∧ e = inside.shift offset) := by
  constructor
  · split
    next chunks hscan =>
      refine ⟨(splits_scan hscan).1.lossless, fun before body start after hchunks => ?_⟩
      exact stands_region (hchunks ▸ hscan)
    next e hscan => exact unclosed_scan hscan
  · split
    next t hparse =>
      split_ifs with hsource
      · subst hsource
        cases hparse
        rfl
      · exact (splits_parse hparse hsource).lossless
    next e hparse =>
      refine (parse_eq_error hparse).imp_right ?_
      rintro ⟨chunks, hscan, hparts⟩
      obtain ⟨body, offset, inside, hmem, hinside⟩ := partsOfChunks_error hparts
      exact ⟨chunks, body, offset, inside, hscan, hmem, hinside⟩

/-- The empty source is the one that parsing does not cut like the others: its only part is an empty
text. -/
theorem parse_empty_not_lossless :
    ∃ t, parse "" = .ok t ∧ ¬Lossless Part.write Part.isText "" t.parts :=
  ⟨⟨"", [.text ""]⟩, rfl, fun h => h.nonempty (.text "") (.head _) rfl rfl⟩

end Template

end LiveTemplate
