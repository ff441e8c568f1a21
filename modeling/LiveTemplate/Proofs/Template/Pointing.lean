import Mathlib
import LiveTemplate.Path.Parser
import LiveTemplate.Proofs.Template.Splitting

/-!
# Errors point at their fragments

The fragment of an error is a piece of the text that was read, and stands there at the offset of the
error. A token knows where it stands (`Token.points_tokenize`), and a parser blames a token that it was
given, or the end of the tokens (`Expr.Level.careful_withRoom`). A failure in a region is one place in
the region and one in the template (`Text.Stands.trans`). A path blames the rest of what it was reading.
-/
namespace LiveTemplate

namespace Expr

/-- A failure blames one of these tokens, or none. -/
def Failure.Blames (ts : List Lexeme) : Failure → Prop
  | unexpected _ found => found ∈ ts
  | ended _ => True
  | tooDeep place => ∀ t ∈ place, t ∈ ts

/-- What a parser makes of the tokens: some of them are left, or one of them is to blame. -/
def Traces {α : Type} (ts : List Lexeme) : Except Failure (α × List Lexeme) → Prop
  | .ok (_, rest) => rest <:+ ts
  | .error f => f.Blames ts

theorem Failure.Blames.mono {us ts : List Lexeme} (h : us ⊆ ts) {f : Failure} (blames : f.Blames us) :
    f.Blames ts := by
  cases f with
  | unexpected _ found => exact h blames
  | ended _ => trivial
  | tooDeep place => exact fun t ht => h (blames t ht)

variable {α β : Type} {ts us : List Lexeme}

theorem Traces.mono (h : us <:+ ts) {x : Except Failure (α × List Lexeme)} (traces : Traces us x) :
    Traces ts x := by
  cases x with
  | error f => exact Failure.Blames.mono h.subset traces
  | ok r => exact traces.trans h

theorem Traces.map {x : Except Failure (α × List Lexeme)} (h : Traces ts x)
    {f : α × List Lexeme → β × List Lexeme} (same : ∀ r, (f r).2 = r.2) : Traces ts (x.map f) := by
  cases x with
  | error => exact h
  | ok r => exact (congrArg (· <:+ ts) (same r)).mpr h

theorem Traces.rest {x : Except Failure (α × List Lexeme)} (h : Traces ts x) {a : α}
    {rest : List Lexeme} (ok : x = .ok (a, rest)) : rest <:+ ts := by
  rwa [ok] at h

theorem Traces.blames {x : Except Failure (α × List Lexeme)} (h : Traces ts x) {f : Failure}
    (error : x = .error f) : f.Blames ts := by
  rwa [error] at h

theorem traces_expect (token : Token) (wanted : Expectation) (ts : List Lexeme) :
    Traces ts (expect token wanted ts) := by
  cases ts with
  | nil => trivial
  | cons t rest =>
    rw [expect]
    split
    · exact List.suffix_cons t rest
    · exact List.mem_cons_self

theorem blames_segmentOf {t : Lexeme} {f : Failure} (error : segmentOf t = .error f) : f.Blames [t] := by
  unfold segmentOf at error
  split at error
  · split at error <;> cases error
    exact List.mem_cons_self
  · cases error
  · cases error
  · cases error
    exact List.mem_cons_self

theorem blames_keyOf {t : Lexeme} {f : Failure} (error : keyOf t = .error f) : f.Blames [t] := by
  unfold keyOf at error
  split at error <;> cases error
  exact List.mem_cons_self

theorem traces_members (path : Path) (ts : List Lexeme) : Traces ts (members path ts) := by
  fun_induction members path ts with
  | case1 | case4 | case6 => trivial
  | case2 path t _ name rest _ ih => exact ih.mono ⟨[t, name], rfl⟩
  | case3 => simp [Traces, Failure.Blames]
  | case5 path t _ inner rest f error =>
    exact (blames_segmentOf error).mono (by simp)
  | case7 path t _ inner segment _ close rest _ ih => exact ih.mono ⟨[t, inner, close], rfl⟩
  | case8 => simp [Traces, Failure.Blames]
  | case9 => exact List.suffix_rfl
  | case10 => exact List.suffix_rfl

theorem traces_word (name : String) (ts : List Lexeme) : Traces ts (word name ts) := by
  unfold word
  split_ifs <;> first | exact List.suffix_rfl | exact (traces_members _ ts).map fun _ => rfl

section Items

variable {item : Parser Expr}

theorem traces_items (careful : ∀ ts, Traces ts (item ts)) (bound : Nat) (ts : List Lexeme) :
    Traces ts (items item bound ts) := by
  induction bound generalizing ts with
  | zero => trivial
  | succ bound ih =>
    rw [items]
    split
    next closed => exact (traces_expect _ _ ts).rest closed
    next =>
      split
      next error => exact (careful ts).blames error
      next e rest ok =>
        have hrest := (careful ts).rest ok
        split
        next comma =>
          have hcomma := ((traces_expect _ _ rest).rest comma).trans hrest
          exact ((ih _).mono hcomma).map fun _ => rfl
        next => exact ((traces_expect _ _ rest).mono hrest).map fun _ => rfl

theorem traces_field (careful : ∀ ts, Traces ts (item ts)) (ts : List Lexeme) :
    Traces ts (field item ts) := by
  unfold field
  split
  · trivial
  next t rest =>
    split
    next error => exact (blames_keyOf error).mono (by simp)
    next =>
      split
      next error => exact ((traces_expect _ _ rest).mono (List.suffix_cons t rest)).blames error
      next colon =>
        have hcolon := ((traces_expect _ _ rest).rest colon).trans (List.suffix_cons t rest)
        exact ((careful _).mono hcolon).map fun _ => rfl

theorem traces_fields (careful : ∀ ts, Traces ts (item ts)) (bound : Nat) (ts : List Lexeme) :
    Traces ts (fields item bound ts) := by
  induction bound generalizing ts with
  | zero => trivial
  | succ bound ih =>
    rw [fields]
    split
    next closed => exact (traces_expect _ _ ts).rest closed
    next =>
      split
      next error => exact (traces_field careful ts).blames error
      next e rest ok =>
        have hrest := (traces_field careful ts).rest ok
        split
        next comma =>
          have hcomma := ((traces_expect _ _ rest).rest comma).trans hrest
          exact ((ih _).mono hcomma).map fun _ => rfl
        next => exact ((traces_expect _ _ rest).mono hrest).map fun _ => rfl

end Items

namespace Level

/-- The parsers of a level blame only what they are given. -/
structure Careful (level : Level) : Prop where
  conditional (ts : List Lexeme) : Traces ts (level.conditional ts)
  unary (ts : List Lexeme) : Traces ts (level.unary ts)
  binary (tier : Nat) (ts : List Lexeme) : Traces ts (level.binary tier ts)
  chain (tier : Nat) (left : Expr) (ts : List Lexeme) : Traces ts (level.chain tier left ts)

theorem blames_tooDeep {us ts : List Lexeme} (h : us <:+ ts) : (Failure.tooDeep us.head?).Blames ts :=
  fun _ ht => h.mem (List.mem_of_mem_head? ht)

section Over

variable {below : Option Level} (careful : ∀ level ∈ below, level.Careful)
include careful

theorem traces_conditionalOver (ts : List Lexeme) : Traces ts (conditionalOver below ts) := by
  cases below with
  | none => exact blames_tooDeep List.suffix_rfl
  | some level =>
    have hlevel := careful level rfl
    rw [conditionalOver]
    split
    next error => exact (hlevel.binary 1 ts).blames error
    next ok => exact (hlevel.binary 1 ts).rest ok
    next t rest ok =>
      have hrest := (hlevel.binary 1 ts).rest ok
      split
      next =>
        have hthen := (List.suffix_cons t rest).trans hrest
        split
        next error => exact ((hlevel.conditional rest).mono hthen).blames error
        next us ok =>
          have hus := ((hlevel.conditional rest).rest ok).trans hthen
          split
          next error => exact ((traces_expect _ _ us).mono hus).blames error
          next colon =>
            have hcolon := ((traces_expect _ _ us).rest colon).trans hus
            exact ((hlevel.conditional _).mono hcolon).map fun _ => rfl
      next => exact hrest

theorem traces_primaryOver (ts : List Lexeme) : Traces ts (primaryOver below ts) := by
  unfold primaryOver
  split
  · trivial
  next t rest =>
    have hrest := List.suffix_cons t rest
    split
    · exact hrest
    · exact hrest
    · exact hrest
    · exact (traces_word t.text rest).mono hrest
    · split
      next error => exact ((traces_conditionalOver careful rest).mono hrest).blames error
      next us ok =>
        have hus := ((traces_conditionalOver careful rest).rest ok).trans hrest
        exact ((traces_expect _ _ us).mono hus).map fun _ => rfl
    · split
      · exact blames_tooDeep hrest
      next level =>
        exact ((traces_items (careful level rfl).conditional _ rest).mono hrest).map fun _ => rfl
    · split
      · exact blames_tooDeep hrest
      next level =>
        exact ((traces_fields (careful level rfl).conditional _ rest).mono hrest).map fun _ => rfl
    · exact List.mem_cons_self

theorem traces_unaryOver (ts : List Lexeme) : Traces ts (unaryOver below ts) := by
  unfold unaryOver
  split
  · exact traces_primaryOver careful []
  next t rest =>
    have hrest := List.suffix_cons t rest
    split
    · exact traces_primaryOver careful (t :: rest)
    · split
      · exact blames_tooDeep hrest
      next level => exact (((careful level rfl).unary rest).mono hrest).map fun _ => rfl

theorem traces_chainOver (tier : Nat) (left : Expr) (ts : List Lexeme) :
    Traces ts (chainOver below tier left ts) := by
  unfold chainOver
  split
  · exact List.suffix_rfl
  next t rest =>
    have hrest := List.suffix_cons t rest
    split
    · split_ifs
      · exact List.suffix_rfl
      · split
        · simp [Traces, Failure.Blames]
        next level =>
          have hlevel := careful level rfl
          split
          next error => exact ((hlevel.binary _ rest).mono hrest).blames error
          next us ok =>
            exact (hlevel.chain tier _ us).mono (((hlevel.binary _ rest).rest ok).trans hrest)
    · exact List.suffix_rfl

theorem traces_binaryOver (tier : Nat) (ts : List Lexeme) : Traces ts (binaryOver below tier ts) := by
  unfold binaryOver
  split
  next error => exact (traces_unaryOver careful ts).blames error
  next left us ok =>
    exact (traces_chainOver careful tier left us).mono ((traces_unaryOver careful ts).rest ok)

theorem careful_above : (above below).Careful where
  conditional := traces_conditionalOver careful
  unary := traces_unaryOver careful
  binary := traces_binaryOver careful
  chain := traces_chainOver careful

end Over

theorem careful_withRoom (room : Nat) : (withRoom room).Careful := by
  induction room with
  | zero => exact careful_above (by simp)
  | succ room ih => exact careful_above (by simpa using ih)

end Level

theorem blames_ofLexemes {f : Failure} (error : ofLexemes ts = .error f) : f.Blames ts := by
  have htraces := (Level.careful_withRoom maxHeight).conditional ts
  unfold ofLexemes at error
  split at error
  next hparse =>
    cases error
    exact htraces.blames hparse
  next => cases error
  next hparse =>
    cases error
    exact (htraces.rest hparse).mem List.mem_cons_self

end Expr

theorem Text.stands_ofList (before piece after : List Char) :
    Stands (String.ofList (before ++ piece ++ after)) (width before) (String.ofList piece) :=
  stands_iff.2 ⟨before, after, by simp, rfl⟩

namespace Token

theorem prefix_of_first {cs piece : List Char} (h : first cs = .error piece) : piece <+: cs := by
  unfold first at h
  split at h
  · cases h
    exact List.prefix_rfl
  next c rest =>
    split at h
    · cases h
    split at h
    · cases h
    split at h
    · have hspan := spanQuoted_append c rest
      dsimp only at h
      split at h
      · cases h
      · cases h
        exact (List.prefix_cons_inj c).2 ⟨_, hspan⟩
    · split at h
      · cases h
      · cases h
        exact ⟨rest, rfl⟩

/-- The tokens of a text that starts at an offset, and the piece that is no token, stand in the text
where they say. -/
theorem stands_cut (offset : Nat) (cs : List Char) :
    match cut offset cs with
    | .ok ts => ∀ t ∈ ts, ∃ place, t.offset = offset + place ∧
        Text.Stands (String.ofList cs) place t.text
    | .error e => ∃ place, e.offset = offset + place ∧
        Text.Stands (String.ofList cs) place e.fragment := by
  fun_induction cut offset cs with
  | case1 => simp
  | case2 offset cs start rest hrest piece error =>
    obtain ⟨after, hpiece⟩ := prefix_of_first error
    refine ⟨Text.width (cs.takeWhile isGap), rfl, ?_⟩
    have := Text.stands_ofList (cs.takeWhile isGap) piece after
    rwa [List.append_assoc, hpiece, List.takeWhile_append_dropWhile] at this
  | case3 offset cs start rest hrest token taken rest' hfirst _ ih =>
    have hcs : cs.takeWhile isGap ++ (taken ++ rest') = cs := by
      rw [first_append hfirst]
      exact List.takeWhile_append_dropWhile
    have htaken := Text.stands_ofList (cs.takeWhile isGap) taken rest'
    have hbehind := Text.stands_ofList (cs.takeWhile isGap ++ taken) rest' []
    simp only [List.append_assoc, List.append_nil, hcs, Text.width_append] at htaken hbehind
    cases hcut : cut (start + Text.width taken) rest' with
    | error e =>
      rw [hcut] at ih
      obtain ⟨place, hoffset, hplace⟩ := ih
      exact ⟨_, hoffset.trans (by simp [start, Nat.add_assoc]), hbehind.trans hplace⟩
    | ok ts =>
      rw [hcut] at ih
      refine List.forall_mem_cons.2 ⟨⟨_, rfl, htaken⟩, fun t ht => ?_⟩
      obtain ⟨place, hoffset, hplace⟩ := ih t ht
      exact ⟨_, hoffset.trans (by simp [start, Nat.add_assoc]), hbehind.trans hplace⟩

end Token

/-- A failure on a source points at a piece of the source. -/
def Points {α : Type} (source : String) : Except TemplateError α → Prop
  | .ok _ => True
  | .error e => Text.Stands source e.offset e.fragment

theorem Token.stands_of_tokenize {source : String} {ts : List Lexeme} (h : tokenize source = .ok ts)
    {t : Lexeme} (ht : t ∈ ts) : Text.Stands source t.offset t.text := by
  have hcut := stands_cut 0 source.toList
  rw [← tokenize, h] at hcut
  obtain ⟨place, hoffset, hplace⟩ := hcut t ht
  rwa [hoffset, Nat.zero_add, ← String.ofList_toList (s := source)]

theorem Token.points_tokenize (source : String) : Points source (tokenize source) := by
  have hcut := stands_cut 0 source.toList
  rw [← tokenize] at hcut
  cases h : tokenize source with
  | ok ts => trivial
  | error e =>
    rw [h] at hcut
    obtain ⟨place, hoffset, hplace⟩ := hcut
    rwa [String.ofList_toList, ← Nat.zero_add place, ← hoffset] at hplace

namespace Expr

theorem stands_of_blames {source : String} {ts : List Lexeme} {f : Failure} (blames : f.Blames ts)
    (stands : ∀ t ∈ ts, Text.Stands source t.offset t.text) :
    Text.Stands source (f.error source ts.getLast?).offset (f.error source ts.getLast?).fragment := by
  cases f with
  | unexpected _ found => exact stands found blames
  | ended _ => exact Text.stands_self source
  | tooDeep place =>
    simp only [Failure.error]
    split
    next t ht =>
      have hmem : t ∈ ts := by
        rcases place with - | place
        · exact List.mem_of_getLast? ht
        · exact blames t ht
      exact stands t hmem
    next => exact Text.stands_self source

theorem points_parse (source : String) : Points source (parse source) := by
  unfold parse
  have htokenize := Token.points_tokenize source
  cases htokens : Token.tokenize source with
  | error e => rwa [htokens] at htokenize
  | ok ts =>
    dsimp only
    split
    · exact Text.stands_self source
    · cases hparse : ofLexemes ts with
      | ok e => trivial
      | error f =>
        exact stands_of_blames (blames_ofLexemes hparse) fun t => Token.stands_of_tokenize htokens

end Expr

namespace Path

/-- What a reader makes of a text: it leaves an end of the text, or reports at one. -/
def Leaves {α : Type} (cs : List Char) : Except Failure (α × List Char) → Prop
  | .ok (_, rest) => rest <:+ cs
  | .error f => f.rest <:+ cs

theorem leaves_readName (cs : List Char) : Leaves cs (readName cs) := by
  unfold readName
  split
  · split_ifs
    · exact List.dropWhile_suffix isNameRest
    · exact List.suffix_rfl
  · exact List.suffix_rfl

theorem splitAtQuote_suffix {quote : Char} {cs key rest : List Char}
    (h : splitAtQuote quote cs = some (key, rest)) : rest <:+ cs := by
  induction cs generalizing key with
  | nil => cases h
  | cons c cs ih =>
    rw [splitAtQuote] at h
    split at h
    · obtain ⟨-, rfl⟩ := by simpa using h
      exact List.suffix_cons c cs
    · obtain ⟨⟨key', rest'⟩, hrest, heq⟩ := Option.map_eq_some_iff.1 h
      obtain ⟨-, rfl⟩ := Prod.mk.inj heq
      exact (ih hrest).trans (List.suffix_cons c cs)

theorem leaves_readSegment (cs : List Char) : Leaves cs (readSegment cs) := by
  unfold readSegment
  split
  next c body =>
    split_ifs
    · split
      next hquote => exact (splitAtQuote_suffix hquote).trans (List.suffix_cons c body)
      next => exact List.suffix_rfl
    · split
      · exact List.dropWhile_suffix Char.isDigit
      · exact List.suffix_rfl
    · exact List.suffix_rfl
  next => exact List.suffix_rfl

theorem leaves_readBracket (cs : List Char) : Leaves cs (readBracket cs) := by
  have hsegment := leaves_readSegment cs
  unfold readBracket
  split
  next error => rwa [error] at hsegment
  next rest ok =>
    rw [ok] at hsegment
    exact (List.suffix_cons _ rest).trans hsegment
  next ok => rwa [ok] at hsegment

theorem leaves_readSuffix (cs : List Char) : Leaves cs (readSuffix cs) := by
  unfold readSuffix
  split
  next rest =>
    have hname := leaves_readName rest
    cases hread : readName rest with
    | error f =>
      rw [hread] at hname
      exact hname.trans (List.suffix_cons _ rest)
    | ok r =>
      rw [hread] at hname
      exact hname.trans (List.suffix_cons _ rest)
  next rest =>
    have hbracket := leaves_readBracket rest
    cases hread : readBracket rest with
    | error f =>
      rw [hread] at hbracket
      exact hbracket.trans (List.suffix_cons _ rest)
    | ok r =>
      rw [hread] at hbracket
      exact hbracket.trans (List.suffix_cons _ rest)
  next => exact List.suffix_rfl

theorem suffix_of_readSuffixes {cs : List Char} {f : Failure} (h : readSuffixes cs = .error f) :
    f.rest <:+ cs := by
  fun_induction readSuffixes cs with
  | case1 => cases h
  | case2 cs _ f' error =>
    cases h
    have := leaves_readSuffix cs
    rwa [error] at this
  | case3 cs _ segment rest ok _ ih =>
    have := leaves_readSuffix cs
    rw [ok] at this
    exact (ih (Expr.map_eq_error.1 h)).trans this

theorem suffix_of_readChars {source : List Char} {f : Failure} (h : readChars source = .error f) :
    f.rest <:+ source := by
  have htrim : Text.trimStart source <:+ source := List.dropWhile_suffix Text.isBlank
  unfold readChars at h
  dsimp only at h
  split at h
  · cases h
    exact List.suffix_rfl
  · have hname := leaves_readName (Text.trimStart source)
    split at h
    next error =>
      cases h
      rw [error] at hname
      exact hname.trans htrim
    next ok =>
      rw [ok] at hname
      exact (suffix_of_readSuffixes (Expr.map_eq_error.1 h)).trans (hname.trans htrim)

theorem points_parse (source : String) : Points source (parse source) := by
  unfold parse
  cases hread : readChars source.toList with
  | ok path => trivial
  | error f =>
    obtain ⟨before, hsource⟩ := suffix_of_readChars hread
    refine Text.stands_iff.2 ⟨before, [], by simp [Failure.error, hsource], ?_⟩
    simp [Failure.error, ← hsource]

end Path

namespace Template

theorem points_scan (source : String) : Points source (Chunk.scan source) := by
  cases hscan : Chunk.scan source with
  | ok chunks => trivial
  | error e =>
    obtain ⟨-, before, after, -, hsource, hoffset, hfragment, -⟩ := unclosed_scan hscan
    refine Text.stands_iff.2 ⟨before, [], ?_, hoffset.symm⟩
    rw [hfragment, hsource, List.append_nil, List.append_assoc]

theorem points_parse (source : String) : Points source (parse source) := by
  cases hparse : parse source with
  | ok t => trivial
  | error e =>
    rcases parse_eq_error hparse with hscan | ⟨chunks, hscan, hparts⟩
    · have := points_scan source
      rwa [hscan] at this
    · obtain ⟨body, start, inside, mem, hinside, rfl⟩ := partsOfChunks_error hparts
      obtain ⟨before, after, rfl⟩ := List.append_of_mem mem
      obtain ⟨-, hregion, -⟩ := stands_region hscan
      have hbody := Expr.points_parse body
      rw [hinside] at hbody
      have := hregion.trans hbody
      rwa [Nat.add_comm] at this

end Template

/-- Whatever stage refuses a text, as a template, an expression or a path, the fragment that is reported
stands in the text at the offset that is reported. -/
theorem refusals_point (source : String) : Points source (Template.parse source) ∧
    Points source (Expr.parse source) ∧ Points source (Path.parse source) :=
  ⟨Template.points_parse source, Expr.points_parse source, Path.points_parse source⟩

end LiveTemplate
