import Mathlib
import LiveTemplate.Proofs.Path.Grammar
import LiveTemplate.Proofs.Text.Place

/-!
# Scanning paths by position

A scanner keeps a byte position in the text and takes slices from it, which are there only if they begin
and end at characters of the text (`Text.sliceFrom?`, `Text.sliceTo?`). It never takes another slice, and
does what the readers do with the rest of the text (`Path.scan_eq`): its position is always the width of
the text in front of that rest (`Path.Sees`), and the end of the blanks that it compares positions with
is passed exactly when the rest is blank (`Path.EndsAt`).
-/
namespace LiveTemplate

namespace Text

/-- The text from a byte offset on: nothing, if the offset is beyond the end or inside a character. -/
def sliceFrom? : Nat → List Char → Option (List Char)
  | 0, cs => some cs
  | _ + 1, [] => none
  | n + 1, c :: cs => if c.utf8Size ≤ n + 1 then sliceFrom? (n + 1 - c.utf8Size) cs else none

/-- The text up to a byte offset: nothing, if the offset is beyond the end or inside a character. -/
def sliceTo? : Nat → List Char → Option (List Char)
  | 0, _ => some []
  | _ + 1, [] => none
  | n + 1, c :: cs =>
    if c.utf8Size ≤ n + 1 then (sliceTo? (n + 1 - c.utf8Size) cs).map (c :: ·) else none

/-- The byte offset of the first character of a class. -/
def find? (p : Char → Bool) : List Char → Option Nat
  | [] => none
  | c :: cs => if p c then some 0 else (find? p cs).map (c.utf8Size + ·)

theorem exists_succ_width (c : Char) (cs : List Char) : ∃ n, width (c :: cs) = n + 1 ∧
    c.utf8Size ≤ n + 1 ∧ n + 1 - c.utf8Size = width cs := by
  have := c.utf8Size_pos
  exact ⟨c.utf8Size + width cs - 1, by rw [width_cons]; omega, by omega, by omega⟩

theorem sliceFrom?_append (before rest : List Char) :
    sliceFrom? (width before) (before ++ rest) = some rest := by
  induction before with
  | nil => exact sliceFrom?.eq_1 rest
  | cons c before ih =>
    obtain ⟨n, hwidth, le, sub⟩ := exists_succ_width c before
    rw [hwidth, List.cons_append, sliceFrom?, if_pos le, sub, ih]

theorem sliceTo?_append (before rest : List Char) :
    sliceTo? (width before) (before ++ rest) = some before := by
  induction before with
  | nil => exact sliceTo?.eq_1 rest
  | cons c before ih =>
    obtain ⟨n, hwidth, le, sub⟩ := exists_succ_width c before
    rw [hwidth, List.cons_append, sliceTo?, if_pos le, sub, ih]
    rfl

theorem exists_append_of_sliceFrom? {n : Nat} {cs rest : List Char} (h : sliceFrom? n cs = some rest) :
    ∃ before, cs = before ++ rest ∧ width before = n := by
  fun_induction sliceFrom? n cs with
  | case1 cs =>
    cases h
    exact ⟨[], rfl, rfl⟩
  | case2 => cases h
  | case3 n c cs le ih =>
    obtain ⟨before, rfl, hwidth⟩ := ih h
    exact ⟨c :: before, rfl, by rw [width_cons]; omega⟩
  | case4 => cases h

theorem exists_append_of_sliceTo? {n : Nat} {cs before : List Char} (h : sliceTo? n cs = some before) :
    ∃ rest, cs = before ++ rest ∧ width before = n := by
  fun_induction sliceTo? n cs generalizing before with
  | case1 cs =>
    cases h
    exact ⟨cs, rfl, rfl⟩
  | case2 => cases h
  | case3 n c cs le ih =>
    obtain ⟨before, hslice, rfl⟩ := Option.map_eq_some_iff.1 h
    obtain ⟨rest, rfl, hwidth⟩ := ih hslice
    exact ⟨rest, rfl, by rw [width_cons]; omega⟩
  | case4 => cases h

/-- An offset is at a character boundary if the text splits there. -/
theorem isValid_iff {text : String} {n : Nat} : String.Pos.Raw.IsValid text ⟨n⟩ ↔
    ∃ before rest, text.toList = before ++ rest ∧ width before = n := by
  rw [String.Pos.Raw.isValid_iff_exists_append]
  constructor
  · rintro ⟨before, rest, rfl, hn⟩
    have hoffset : n = before.utf8ByteSize := congrArg String.Pos.Raw.byteIdx hn
    exact ⟨before.toList, rest.toList, String.toList_append, by rw [width_toList, hoffset]⟩
  · rintro ⟨before, rest, htext, rfl⟩
    refine ⟨String.ofList before, String.ofList rest, ?_, ?_⟩
    · rw [← String.ofList_append, ← htext, String.ofList_toList]
    · rw [← width_ofList]
      rfl

/-- There is a slice from or up to an offset if it is at a character boundary. -/
theorem isSome_slice_iff {text : String} {n : Nat} :
    ((sliceFrom? n text.toList).isSome ↔ String.Pos.Raw.IsValid text ⟨n⟩) ∧
    ((sliceTo? n text.toList).isSome ↔ String.Pos.Raw.IsValid text ⟨n⟩) := by
  rw [isValid_iff]
  refine ⟨⟨fun h => ?_, ?_⟩, fun h => ?_, ?_⟩
  · obtain ⟨rest, hslice⟩ := Option.isSome_iff_exists.1 h
    obtain ⟨before, hsplit⟩ := exists_append_of_sliceFrom? hslice
    exact ⟨before, rest, hsplit⟩
  · rintro ⟨before, rest, htext, rfl⟩
    rw [htext, sliceFrom?_append]
    rfl
  · obtain ⟨before, hslice⟩ := Option.isSome_iff_exists.1 h
    obtain ⟨rest, hsplit⟩ := exists_append_of_sliceTo? hslice
    exact ⟨before, rest, hsplit⟩
  · rintro ⟨before, rest, htext, rfl⟩
    rw [htext, sliceTo?_append]
    rfl

/-- The first character that is not of a class is behind the longest run of the class. -/
theorem getD_find? (p : Char → Bool) (cs : List Char) :
    (find? (fun c => !p c) cs).getD (width cs) = width (cs.takeWhile p) := by
  induction cs with
  | nil => rfl
  | cons c cs ih =>
    cases hc : p c with
    | false => simp [find?, hc]
    | true =>
      have hskip : find? (fun c => !p c) (c :: cs) =
          (find? (fun c => !p c) cs).map (c.utf8Size + ·) := by simp [find?, hc]
      rw [hskip, List.takeWhile_cons_of_pos hc, width_cons, width_cons, ← ih]
      cases find? (fun c => !p c) cs <;> rfl

theorem width_pos {cs : List Char} (h : cs ≠ []) : 0 < width cs := by
  obtain ⟨c, cs, rfl⟩ := List.exists_cons_of_ne_nil h
  have := c.utf8Size_pos
  rw [width_cons]
  omega

/-- Of two splits of a text, the one at the smaller offset comes first. -/
theorem exists_append_of_width_le {before before' rest rest' : List Char}
    (h : before ++ rest = before' ++ rest') (le : width before ≤ width before') :
    ∃ mid, before' = before ++ mid ∧ rest = mid ++ rest' := by
  rcases List.append_eq_append_iff.1 h with ⟨mid, hbefore, hrest⟩ | ⟨mid, rfl, rfl⟩
  · exact ⟨mid, hbefore, hrest⟩
  · have hmid : mid = [] := by
      by_contra ne
      have := width_pos ne
      rw [width_append] at le
      omega
    exact ⟨[], by simp [hmid], by simp [hmid]⟩

theorem trimEnd_append (cs ds : List Char) :
    trimEnd (cs ++ ds) = if ds.all isBlank then trimEnd cs else cs ++ trimEnd ds := by
  have all : (ds.reverse.dropWhile isBlank).isEmpty = true ↔ ds.all isBlank = true := by simp
  rw [trimEnd, List.reverse_append, List.dropWhile_append]
  simp only [all]
  split_ifs
  · rfl
  · rw [List.reverse_append, List.reverse_reverse, trimEnd]

theorem width_trimEnd_le (cs : List Char) : width (trimEnd cs) ≤ width cs := by
  obtain ⟨blanks, h⟩ : trimEnd cs <+: cs := by
    have := List.reverse_prefix.2 (List.dropWhile_suffix (l := cs.reverse) isBlank)
    rwa [List.reverse_reverse] at this
  calc width (trimEnd cs) ≤ width (trimEnd cs) + width blanks := Nat.le_add_right _ _
    _ = width cs := by rw [← width_append, h]

theorem trimEnd_ne_nil {cs : List Char} (h : ¬ cs.all isBlank = true) : trimEnd cs ≠ [] := by
  simpa [trimEnd] using h

end Text

namespace Path

/-- A scan has no result if it takes a slice that is not there. -/
abbrev Scan := ExceptT TemplateError Option

/-! ## The scanner -/

section Scanner

variable (source : List Char)

/-- The failure at a position shows the text from there on. -/
def failAt {α : Type} (reason : Reason) (pos : Nat) : Scan α := do
  let fragment ← Text.sliceFrom? pos source
  throw ⟨reason, String.ofList fragment, pos⟩

/-- A name from a position on, and the position behind it. -/
def scanName (pos : Nat) : Scan (List Char × Nat) := do
  let rest ← Text.sliceFrom? pos source
  if rest.head?.any isNameStart then
    let len := (Text.find? (fun c => !isNameRest c) rest).getD (Text.width rest)
    let name ← Text.sliceTo? len rest
    return (name, pos + len)
  else failAt source .identifierMissing pos

/-- The segment inside brackets, and the position of the closing bracket. -/
def scanSegment (pos : Nat) : Scan (Segment × Nat) := do
  let rest ← Text.sliceFrom? pos source
  match rest.head? with
  | some c =>
    if c = '"' ∨ c = '\'' then
      let body ← Text.sliceFrom? 1 rest
      match Text.find? (· == c) body with
      | some close =>
        let key ← Text.sliceTo? close body
        return (.key (String.ofList key), pos + (close + 2))
      | none => failAt source .unterminatedKey pos
    else if c.isDigit then
      let len := (Text.find? (fun c => !c.isDigit) rest).getD (Text.width rest)
      let digits ← Text.sliceTo? len rest
      match readIndex digits with
      | some i => return (.index i, pos + len)
      | none => failAt source .indexOutOfRange pos
    else failAt source .indexOrKeyMissing pos
  | none => failAt source .indexOrKeyMissing pos

/-- A bracket suffix after its opening bracket. -/
def scanBracket (pos : Nat) : Scan (Segment × Nat) := do
  let (segment, pos) ← scanSegment source pos
  let rest ← Text.sliceFrom? pos source
  if rest.head? = some ']' then return (segment, pos + 1)
  else failAt source .closingBracketMissing pos

/-- One suffix, and the position behind it. -/
def scanSuffix (pos : Nat) : Scan (Segment × Nat) := do
  let rest ← Text.sliceFrom? pos source
  if rest.head? = some '.' then
    let (name, pos) ← scanName source (pos + 1)
    return (.key (String.ofList name), pos)
  else if rest.head? = some '[' then scanBracket source (pos + 1)
  else failAt source .separatorMissing pos

end Scanner

/-! ### The position moves on -/

section Returns

variable {α β : Type} {source : List Char} {pos next : Nat}

/-- The scan returns the value. -/
def Scan.Returns (x : Scan α) (a : α) : Prop := x = ExceptT.mk (some (.ok a))

theorem Scan.returns_pure {a b : α} : (pure a : Scan α).Returns b ↔ a = b :=
  ⟨fun h => Except.ok.inj (Option.some.inj h), fun h => h ▸ rfl⟩

theorem Scan.returns_bind {x : Scan α} {f : α → Scan β} {b : β} :
    (x >>= f).Returns b ↔ ∃ a, x.Returns a ∧ (f a).Returns b := by
  constructor
  · intro h
    match x, h with
    | some (.ok a), h => exact ⟨a, rfl, h⟩
    | some (.error _), h => cases h
    | none, h => cases h
  · rintro ⟨a, rfl, h⟩
    exact h

theorem Scan.not_returns_failAt (reason : Reason) (a : α) : ¬ (failAt source reason pos).Returns a := by
  intro h
  obtain ⟨fragment, -, hthrow⟩ := Scan.returns_bind.1 h
  cases hthrow

theorem le_of_scanName {name : List Char} (h : (scanName source pos).Returns (name, next)) :
    pos ≤ next := by
  obtain ⟨rest, -, h⟩ := Scan.returns_bind.1 h
  split at h
  · obtain ⟨_, -, h⟩ := Scan.returns_bind.1 h
    obtain ⟨-, rfl⟩ := Prod.mk.inj (Scan.returns_pure.1 h)
    exact Nat.le_add_right _ _
  · exact absurd h (Scan.not_returns_failAt _ _)

theorem le_of_scanSegment {segment : Segment} (h : (scanSegment source pos).Returns (segment, next)) :
    pos ≤ next := by
  obtain ⟨rest, -, h⟩ := Scan.returns_bind.1 h
  split at h
  · split at h
    · obtain ⟨body, -, h⟩ := Scan.returns_bind.1 h
      split at h
      · obtain ⟨_, -, h⟩ := Scan.returns_bind.1 h
        obtain ⟨-, rfl⟩ := Prod.mk.inj (Scan.returns_pure.1 h)
        exact Nat.le_add_right _ _
      · exact absurd h (Scan.not_returns_failAt _ _)
    · split at h
      · obtain ⟨digits, -, h⟩ := Scan.returns_bind.1 h
        split at h
        · obtain ⟨-, rfl⟩ := Prod.mk.inj (Scan.returns_pure.1 h)
          exact Nat.le_add_right _ _
        · exact absurd h (Scan.not_returns_failAt _ _)
      · exact absurd h (Scan.not_returns_failAt _ _)
  · exact absurd h (Scan.not_returns_failAt _ _)

theorem lt_of_scanSuffix {segment : Segment} (h : (scanSuffix source pos).Returns (segment, next)) :
    pos < next := by
  obtain ⟨rest, -, h⟩ := Scan.returns_bind.1 h
  split at h
  · obtain ⟨⟨_, _⟩, hname, h⟩ := Scan.returns_bind.1 h
    obtain ⟨-, rfl⟩ := Prod.mk.inj (Scan.returns_pure.1 h)
    exact le_of_scanName hname
  · split at h
    · obtain ⟨⟨_, inner⟩, hsegment, h⟩ := Scan.returns_bind.1 h
      obtain ⟨_, -, h⟩ := Scan.returns_bind.1 h
      have le := le_of_scanSegment hsegment
      split at h
      · obtain ⟨-, rfl⟩ := Prod.mk.inj (Scan.returns_pure.1 h)
        omega
      · exact absurd h (Scan.not_returns_failAt _ _)
    · exact absurd h (Scan.not_returns_failAt _ _)

end Returns

/-- Suffixes from a position on, up to where only blanks are left. -/
def scanSuffixes (source : List Char) (stop pos : Nat) : Scan Path :=
  if pos < stop then
    match h : (scanSuffix source pos).run with
    | some (.ok (segment, next)) =>
      have := lt_of_scanSuffix h
      (segment :: ·) <$> scanSuffixes source stop next
    | some (.error e) => throw e
    | none => ExceptT.mk none
  else return []
termination_by stop - pos

/-- Scans a written path. -/
def scan (source : List Char) : Scan Path := do
  let pos := Text.width source - Text.width (Text.trimStart source)
  if (Text.trim source).isEmpty then throw ⟨.emptyPath, String.ofList source, 0⟩
  else
    let (name, pos) ← scanName source pos
    let rest ← Text.sliceFrom? pos source
    let segments ← scanSuffixes source (pos + Text.width (Text.trimEnd rest)) pos
    return ofRoot name ++ segments

/-! ## Scanning and reading -/

section Agreement

variable {α β : Type} {source rest : List Char} {pos stop : Nat}

/-- At the position the scanner has this rest of the text in front of it. -/
def Sees (source : List Char) (pos : Nat) (rest : List Char) : Prop :=
  ∃ before, source = before ++ rest ∧ pos = Text.width before

/-- What a scan returns or throws is what a reader of the rest does. -/
inductive Agrees (source : List Char) : Scan (α × Nat) → Except Failure (α × List Char) → Prop where
  | ok {a : α} {pos : Nat} {rest : List Char} (sees : Sees source pos rest) :
      Agrees source (pure (a, pos)) (.ok (a, rest))
  | error (f : Failure) : Agrees source (throw (f.error source)) (.error f)

section Inversion

variable {x : Scan (α × Nat)} {y : Except Failure (α × List Char)} (h : Agrees source x y)
include h

theorem Agrees.run_ne_none : x.run ≠ none := by
  cases h <;> exact nofun

theorem Agrees.returned {a : α} (hx : x.run = some (.ok (a, pos))) :
    ∃ rest, Sees source pos rest ∧ y = .ok (a, rest) := by
  cases h with
  | ok sees =>
    cases hx
    exact ⟨_, sees, rfl⟩
  | error => cases hx

theorem Agrees.thrown {e : TemplateError} (hx : x.run = some (.error e)) :
    ∃ f, e = Failure.error source f ∧ y = .error f := by
  cases h with
  | ok => cases hx
  | error f =>
    cases hx
    exact ⟨f, rfl, rfl⟩

end Inversion

theorem Sees.slice (h : Sees source pos rest) : Text.sliceFrom? pos source = some rest := by
  obtain ⟨before, rfl, rfl⟩ := h
  exact Text.sliceFrom?_append before rest

theorem Sees.move {piece : List Char} {len : Nat} (h : Sees source pos (piece ++ rest))
    (hlen : len = Text.width piece) : Sees source (pos + len) rest := by
  obtain ⟨before, rfl, rfl⟩ := h
  exact ⟨before ++ piece, (List.append_assoc ..).symm, by rw [Text.width_append, hlen]⟩

theorem Sees.next {c : Char} (h : Sees source pos (c :: rest)) (narrow : c.utf8Size = 1) :
    Sees source (pos + 1) rest := by
  have piece : Sees source pos ([c] ++ rest) := h
  exact piece.move narrow.symm

theorem lift_bind {o : Option α} {a : α} (h : o = some a) (f : α → Scan β) :
    ((liftM o : Scan α) >>= f) = f a := by
  rw [h]
  rfl

theorem Sees.failAt (h : Sees source pos rest) (reason : Reason) :
    (failAt source reason pos : Scan α) = throw (Failure.error source ⟨reason, rest⟩) := by
  rw [Path.failAt, lift_bind h.slice]
  obtain ⟨before, rfl, rfl⟩ := h
  simp only [Failure.error, Text.width_append, Nat.add_sub_cancel]

theorem Sees.agrees_failAt (h : Sees source pos rest) (reason : Reason) :
    Agrees (α := α) source (Path.failAt source reason pos) (.error ⟨reason, rest⟩) := by
  rw [h.failAt]
  exact .error _

theorem agrees_scanName (h : Sees source pos rest) :
    Agrees source (scanName source pos) (readName rest) := by
  rw [scanName, lift_bind h.slice]
  cases rest with
  | nil => exact h.agrees_failAt _
  | cons c cs =>
    rw [readName, List.head?_cons, Option.any_some]
    split_ifs
    · have split : (c :: cs).takeWhile isNameRest ++ (c :: cs).dropWhile isNameRest = c :: cs :=
        List.takeWhile_append_dropWhile
      have hslice := Text.sliceTo?_append ((c :: cs).takeWhile isNameRest) ((c :: cs).dropWhile isNameRest)
      rw [split] at hslice
      rw [Text.getD_find?, lift_bind hslice]
      exact .ok ((split ▸ h).move rfl)
    · exact h.agrees_failAt _

theorem find?_quote (quote : Char) (cs : List Char) :
    Text.find? (· == quote) cs = (splitAtQuote quote cs).map fun (key, _) => Text.width key := by
  induction cs with
  | nil => rfl
  | cons c cs ih =>
    by_cases hc : c = quote
    · simp [Text.find?, splitAtQuote, hc]
    · simp only [Text.find?, splitAtQuote, beq_iff_eq, hc, if_false, ih, Option.map_map]
      rfl

theorem agrees_scanSegment (h : Sees source pos rest) :
    Agrees source (scanSegment source pos) (readSegment rest) := by
  rw [scanSegment, lift_bind h.slice]
  cases rest with
  | nil => exact h.agrees_failAt _
  | cons c cs =>
    rw [readSegment, List.head?_cons]
    dsimp only
    split_ifs with isQuote digit
    · -- a quote is one byte, and so is the one that closes the key
      have hquote : Text.width [c] = 1 := by rcases isQuote with rfl | rfl <;> rfl
      have hbody := Text.sliceFrom?_append [c] cs
      rw [hquote, List.singleton_append] at hbody
      rw [lift_bind hbody, find?_quote]
      cases hsplit : splitAtQuote c cs with
      | none => exact h.agrees_failAt _
      | some r =>
        obtain ⟨key, rest⟩ := r
        obtain ⟨-, rfl⟩ := splitAtQuote_eq_some_iff.1 hsplit
        dsimp only [Option.map_some]
        rw [lift_bind (Text.sliceTo?_append key (c :: rest))]
        have hpieces : c :: (key ++ c :: rest) = [c] ++ key ++ [c] ++ rest := by simp
        refine .ok ((hpieces ▸ h).move ?_)
        rw [Text.width_append, Text.width_append, hquote]
        omega
    · have split : (c :: cs).takeWhile Char.isDigit ++ (c :: cs).dropWhile Char.isDigit = c :: cs :=
        List.takeWhile_append_dropWhile
      have hslice :=
        Text.sliceTo?_append ((c :: cs).takeWhile Char.isDigit) ((c :: cs).dropWhile Char.isDigit)
      rw [split] at hslice
      rw [Text.getD_find?, lift_bind hslice]
      cases readIndex ((c :: cs).takeWhile Char.isDigit) with
      | none => exact h.agrees_failAt _
      | some i => exact .ok ((split ▸ h).move rfl)
    · exact h.agrees_failAt _

theorem agrees_scanBracket (h : Sees source pos rest) :
    Agrees source (scanBracket source pos) (readBracket rest) := by
  have hsegment := agrees_scanSegment h
  rw [scanBracket, readBracket]
  generalize scanSegment source pos = scanned at hsegment
  cases hread : readSegment rest with
  | error f =>
    rw [hread] at hsegment
    cases hsegment
    exact .error f
  | ok r =>
    rw [hread] at hsegment
    cases hsegment with
    | @ok segment next rest sees =>
      rw [pure_bind]
      dsimp only
      rw [lift_bind sees.slice]
      by_cases hclose : rest.head? = some ']'
      · obtain ⟨rest, rfl⟩ := List.head?_eq_some_iff.1 hclose
        exact .ok (sees.next rfl)
      · rw [if_neg hclose]
        split
        next heq => cases heq
        next heq =>
          cases heq
          exact absurd rfl hclose
        next heq =>
          cases heq
          exact sees.agrees_failAt _

theorem agrees_scanSuffix (h : Sees source pos rest) :
    Agrees source (scanSuffix source pos) (readSuffix rest) := by
  rw [scanSuffix, lift_bind h.slice]
  by_cases hdot : rest.head? = some '.'
  · obtain ⟨rest, rfl⟩ := List.head?_eq_some_iff.1 hdot
    have hname := agrees_scanName (h.next rfl)
    rw [if_pos hdot, readSuffix]
    generalize scanName source (pos + 1) = scanned at hname ⊢
    generalize readName rest = read at hname ⊢
    cases hname with
    | ok sees => exact .ok sees
    | error f => exact .error f
  · by_cases hbracket : rest.head? = some '['
    · obtain ⟨rest, rfl⟩ := List.head?_eq_some_iff.1 hbracket
      exact agrees_scanBracket (h.next rfl)
    · rw [if_neg hdot, if_neg hbracket, readSuffix]
      · exact h.agrees_failAt _
      · rintro cs rfl
        exact hdot rfl
      · rintro cs rfl
        exact hbracket rfl

/-- From a position on, a position is in front of `stop` if it has more than blanks in front of it. -/
def EndsAt (source : List Char) (pos stop : Nat) : Prop :=
  ∀ {next rest}, pos ≤ next → Sees source next rest →
    (next < stop ↔ ¬ rest.all Text.isBlank = true)

theorem Sees.endsAt (h : Sees source pos rest) :
    EndsAt source pos (pos + Text.width (Text.trimEnd rest)) := by
  intro next rest' le hnext
  obtain ⟨before, rfl, rfl⟩ := h
  obtain ⟨before', hsource, rfl⟩ := hnext
  obtain ⟨mid, rfl, rfl⟩ := Text.exists_append_of_width_le hsource le
  rw [Text.width_append, Text.trimEnd_append, Nat.add_lt_add_iff_left]
  split_ifs with blank
  · exact iff_of_false (Text.width_trimEnd_le mid).not_gt (not_not_intro blank)
  · have := Text.width_pos (Text.trimEnd_ne_nil blank)
    refine iff_of_true ?_ blank
    rw [Text.width_append]
    omega

theorem EndsAt.mono {next : Nat} (h : EndsAt source pos stop) (le : pos ≤ next) :
    EndsAt source next stop :=
  fun hle hsees => h (le.trans hle) hsees

theorem scanSuffixes_eq (h : Sees source pos rest) (ends : EndsAt source pos stop) :
    scanSuffixes source stop pos =
      ExceptT.mk (some ((readSuffixes rest).mapError (Failure.error source))) := by
  have hsuffix := agrees_scanSuffix h
  fun_induction scanSuffixes source stop pos generalizing rest with
  | case1 pos inside segment next hscan lt ih =>
    have solid := (ends le_rfl h).1 inside
    obtain ⟨rest, sees, hread⟩ := hsuffix.returned hscan
    rw [ih sees (ends.mono lt.le) (agrees_scanSuffix sees), readSuffixes_of_ok solid hread]
    cases readSuffixes rest <;> rfl
  | case2 pos inside e hscan =>
    have solid := (ends le_rfl h).1 inside
    obtain ⟨f, rfl, hread⟩ := hsuffix.thrown hscan
    rw [readSuffixes_of_error solid hread]
    rfl
  | case3 pos inside hscan => exact absurd hscan hsuffix.run_ne_none
  | case4 pos outside =>
    have blank := not_not.1 ((ends le_rfl h).not.1 outside)
    rw [readSuffixes, if_pos blank]
    rfl

theorem isEmpty_trim (source : List Char) :
    (Text.trim source).isEmpty = (Text.trimStart source).isEmpty := by
  have stops : Token.Stops Text.isBlank (Text.trimStart source) := Token.stops_dropWhile _ _
  rw [Text.trim]
  cases htrim : Text.trimStart source with
  | nil => rfl
  | cons c cs =>
    have solid : ¬ (c :: cs).all Text.isBlank = true := by simp [stops c (htrim ▸ rfl)]
    rw [List.isEmpty_cons, List.isEmpty_eq_false_iff]
    exact Text.trimEnd_ne_nil solid

/-- The scanner takes no slice that is not there, and does what the readers do. -/
theorem scan_eq (source : List Char) :
    scan source = ExceptT.mk (some ((readChars source).mapError (Failure.error source))) := by
  have sees : Sees source (Text.width source - Text.width (Text.trimStart source))
      (Text.trimStart source) := by
    have split : source.takeWhile Text.isBlank ++ Text.trimStart source = source :=
      List.takeWhile_append_dropWhile
    have hwidth := congrArg Text.width split
    rw [Text.width_append] at hwidth
    exact ⟨_, split.symm, by omega⟩
  have hname := agrees_scanName sees
  rw [scan, readChars, isEmpty_trim]
  dsimp only
  split_ifs
  · simp only [Except.mapError, Failure.error, Nat.sub_self]
    rfl
  · generalize scanName source _ = scanned at hname ⊢
    generalize readName _ = read at hname ⊢
    cases hname with
    | error f => rfl
    | @ok name pos rest sees =>
      rw [pure_bind]
      dsimp only
      rw [lift_bind sees.slice, scanSuffixes_eq sees sees.endsAt]
      cases readSuffixes rest <;> rfl

end Agreement

/-- A text is read as a path exactly if it is written as one, and the scanner reads it, or refuses it,
without taking a slice out of range or off a character boundary. -/
theorem parse_decides_written (source : String) :
    (∀ p, parse source = .ok p ↔ Written source.toList p) ∧
      (scan source.toList).run = some (parse source) :=
  ⟨fun _ => parse_eq_ok_iff, scan_eq source.toList⟩

end Path

end LiveTemplate
