import Mathlib
import LiveTemplate.Proofs.Template.Region
import LiveTemplate.Template

/-!
# Writing a template out of its parts

Texts are written as they are and expressions as regions. As long as no text holds an opener and no
two texts meet, parsing gives back the very parts (`Template.parse_write`): a text ends where the
first opener stands, and a region where its expression ends.
-/
namespace LiveTemplate

namespace Part

def write : Part → List Char
  | text s => s.toList
  | expression source _ => Chunk.opener ++ source.toList ++ ['\x7d']

def isText : Part → Bool
  | text _ => true
  | expression _ _ => false

end Part

/-- Parts that a template can be written out of. -/
structure Template.Writable (parts : List Part) : Prop where
  nonempty : ∀ s, Part.text s ∈ parts → s ≠ ""
  closed : ∀ s, Part.text s ∈ parts → ¬Chunk.opener <:+: s.toList
  apart : parts.IsChain fun p q => ¬(p.isText = true ∧ q.isText = true)
  accepted : ∀ source e, Part.expression source e ∈ parts → Expr.parse source = .ok e

namespace Chunk

theorem hasOpener_iff (cs : List Char) : hasOpener cs = true ↔ opener <:+: cs := by
  fun_induction hasOpener cs with
  | case1 cs => exact iff_of_true rfl ⟨[], cs, rfl⟩
  | case2 c cs hc ih =>
    rw [ih, List.infix_cons_iff]
    refine (or_iff_right ?_).symm
    rintro ⟨rest, hrest⟩
    obtain ⟨rfl, hcs⟩ := List.cons.inj hrest
    exact hc rest rfl hcs.symm
  | case3 => simp [opener]

/-- The first opener ends a text, though the text may end with a dollar sign. -/
theorem splitOpener_text {cs : List Char} (closed : hasOpener cs = false) (rest : List Char) :
    splitOpener (cs ++ opener ++ rest) = (cs, some rest) := by
  fun_induction hasOpener cs with
  | case1 => cases closed
  | case2 c cs hc ih =>
    rw [List.cons_append, List.cons_append, splitOpener, ih closed]
    rintro rest' rfl hcs
    cases cs with
    | nil => cases hcs
    | cons d cs => exact hc cs rfl (by simpa using congrArg List.head? hcs)
  | case3 => rfl

theorem splitOpener_closed {cs : List Char} (closed : hasOpener cs = false) :
    splitOpener cs = (cs, none) := by
  fun_induction hasOpener cs with
  | case1 => cases closed
  | case2 c cs hc ih => rw [splitOpener, ih closed]; exact hc
  | case3 => rfl

theorem cut_closed {cs : List Char} (closed : hasOpener cs = false) (offset : Nat) :
    cut offset cs = .ok (ofText cs) := by
  rw [cut]
  split
  next h =>
    obtain ⟨rfl, -⟩ := Prod.mk.inj ((splitOpener_closed closed).symm.trans h)
    rfl
  next h => cases (Prod.mk.inj ((splitOpener_closed closed).symm.trans h)).2

theorem cut_region {cs : List Char} (closed : hasOpener cs = false) {source : String} {e : Expr}
    (accepted : Expr.parse source = .ok e) (rest : List Char) (offset : Nat) :
    ∃ start next, cut offset (cs ++ (opener ++ source.toList ++ ['\x7d']) ++ rest) =
      (cut next rest).map fun chunks => ofText cs ++ .region source start :: chunks := by
  have hsplit : splitOpener (cs ++ (opener ++ source.toList ++ ['\x7d']) ++ rest) =
      (cs, some (source.toList ++ '\x7d' :: rest)) := by
    rw [← splitOpener_text closed]
    simp
  rw [cut]
  split
  next h => cases (Prod.mk.inj (hsplit.symm.trans h)).2
  next h =>
    obtain ⟨rfl, hafter⟩ := Prod.mk.inj (hsplit.symm.trans h)
    obtain rfl := Option.some.inj hafter
    split
    next hregion => simp [splitRegion_accepted accepted] at hregion
    next hregion =>
      obtain ⟨rfl, rfl⟩ :=
        Prod.mk.inj (Option.some.inj ((splitRegion_accepted accepted rest).symm.trans hregion))
      simp only [String.ofList_toList]
      exact ⟨_, _, rfl⟩

theorem ofText_toList {s : String} (nonempty : s ≠ "") : ofText s.toList = [.text s] := by
  simp [ofText, nonempty]

end Chunk

namespace Template

open Chunk

theorem Writable.tail {p : Part} {parts : List Part} (h : Writable (p :: parts)) : Writable parts where
  nonempty s hs := h.nonempty s (List.mem_cons_of_mem _ hs)
  closed s hs := h.closed s (List.mem_cons_of_mem _ hs)
  apart := h.apart.tail
  accepted source e he := h.accepted source e (List.mem_cons_of_mem _ he)

theorem Writable.hasOpener_text {s : String} {parts : List Part} (h : Writable (.text s :: parts)) :
    hasOpener s.toList = false :=
  Bool.eq_false_iff.2 fun hopener => h.closed s List.mem_cons_self ((hasOpener_iff _).1 hopener)

/-- Cutting the written parts gives chunks that parse to the parts. -/
theorem partsOfChunks_cut : ∀ {parts : List Part}, Writable parts → ∀ offset,
    ∃ chunks, cut offset (parts.flatMap Part.write) = .ok chunks ∧ partsOfChunks chunks = .ok parts
  | [], _, offset => ⟨[], cut_closed rfl offset, rfl⟩
  | [.text s], h, offset => by
    refine ⟨[.text s], ?_, rfl⟩
    rw [List.flatMap_singleton, Part.write, cut_closed h.hasOpener_text,
      ofText_toList (h.nonempty s List.mem_cons_self)]
  | .text _ :: .text _ :: _, h, _ => absurd ⟨rfl, rfl⟩ (List.isChain_cons_cons.1 h.apart).1
  | .text s :: .expression source e :: rest, h, offset => by
    have accepted := h.accepted source e (by simp)
    obtain ⟨start, next, hcut⟩ := cut_region h.hasOpener_text accepted (rest.flatMap Part.write) offset
    obtain ⟨chunks, hrest, hparts⟩ := partsOfChunks_cut h.tail.tail next
    refine ⟨.text s :: .region source start :: chunks, ?_, ?_⟩
    · simp only [List.flatMap_cons, Part.write, ← List.append_assoc] at hcut ⊢
      rw [hcut, hrest, ofText_toList (h.nonempty s List.mem_cons_self)]
      rfl
    · simp [partsOfChunks, accepted, hparts, Except.map]
  | .expression source e :: rest, h, offset => by
    have accepted := h.accepted source e (by simp)
    have closed : hasOpener [] = false := rfl
    obtain ⟨start, next, hcut⟩ := cut_region closed accepted (rest.flatMap Part.write) offset
    obtain ⟨chunks, hrest, hparts⟩ := partsOfChunks_cut h.tail next
    refine ⟨.region source start :: chunks, ?_, ?_⟩
    · simp only [List.flatMap_cons, Part.write, List.nil_append] at hcut ⊢
      rw [hcut, hrest]
      rfl
    · simp [partsOfChunks, accepted, hparts, Except.map]

/-- Without an opener there is one text only. -/
theorem Writable.eq_text {parts : List Part} (h : Writable parts) (nonempty : parts ≠ [])
    (closed : hasOpener (parts.flatMap Part.write) = false) : ∃ s, parts = [.text s] := by
  have htexts : ∀ p ∈ parts, p.isText = true := by
    rintro (s | ⟨source, e⟩) hmem
    · rfl
    · obtain ⟨before, after, rfl⟩ := List.append_of_mem hmem
      refine absurd ((hasOpener_iff _).2 ⟨before.flatMap Part.write,
        source.toList ++ ['\x7d'] ++ after.flatMap Part.write, ?_⟩) (Bool.eq_false_iff.1 closed)
      simp [Part.write]
  cases parts with
  | nil => exact absurd rfl nonempty
  | cons p rest => cases rest with
    | nil => cases p with
      | text s => exact ⟨s, rfl⟩
      | expression => exact absurd (htexts _ List.mem_cons_self) nofun
    | cons q rest =>
      exact absurd ⟨htexts p (by simp), htexts q (by simp)⟩ (List.isChain_cons_cons.1 h.apart).1

/-- A template that is written out of parts parses to these parts. -/
theorem parse_write {parts : List Part} (nonempty : parts ≠ []) (writable : Writable parts) :
    parse (String.ofList (parts.flatMap Part.write)) =
      .ok ⟨String.ofList (parts.flatMap Part.write), parts⟩ := by
  unfold parse isLiteral scan
  rw [String.toList_ofList]
  split
  next =>
    obtain ⟨chunks, hcut, hparts⟩ := partsOfChunks_cut writable 0
    rw [hcut]
    simp only [hparts]
    rfl
  next hclosed =>
    obtain ⟨s, rfl⟩ := writable.eq_text nonempty (Bool.eq_false_iff.2 hclosed)
    simp [Part.write]

/-- A text that ends with a dollar sign, and an expression with a brace, a quote and an escaped quote in
quotes. -/
def quotedBraces : List Part :=
  [.text "\x7d$", .expression "\x7b k : '\x7d\x60\\'\x7b' \x7d"
      (.object [("k", .literal (.text "\x7d\x60'\x7b"))]),
    .expression " a" (.path [.key "a"]), .text "\x7b"]

theorem writable_quotedBraces : Writable quotedBraces where
  nonempty s hs := by
    simp only [quotedBraces, List.mem_cons, Part.text.injEq, reduceCtorEq, List.not_mem_nil, or_false,
      false_or] at hs
    rcases hs with rfl | rfl <;> decide
  closed s hs := by
    simp only [quotedBraces, List.mem_cons, Part.text.injEq, reduceCtorEq, List.not_mem_nil, or_false,
      false_or] at hs
    rcases hs with rfl | rfl <;> decide
  apart := by simp [quotedBraces, Part.isText]
  accepted source e he := by
    simp only [quotedBraces, List.mem_cons, Part.expression.injEq, reduceCtorEq, List.not_mem_nil,
      or_false, false_or] at he
    rcases he with ⟨rfl, rfl⟩ | ⟨rfl, rfl⟩
    · have tokens : Token.tokenize "\x7b k : '\x7d\x60\\'\x7b' \x7d" = .ok [⟨.openBrace, "\x7b", 0⟩,
          ⟨.name, "k", 2⟩, ⟨.colon, ":", 4⟩, ⟨.singleQuoted, "'\x7d\x60\\'\x7b'", 6⟩,
          ⟨.closeBrace, "\x7d", 14⟩] := by
        refine Token.cut_of_first (by decide) rfl (Token.cut_of_first (by decide) rfl
          (Token.cut_of_first (by decide) rfl (Token.cut_of_first (by decide) rfl
            (Token.cut_of_first (by decide) rfl ?_))))
        rw [Token.cut]
        rfl
      rw [Expr.parse, tokens]
      rfl
    · have tokens : Token.tokenize " a" = .ok [⟨.name, "a", 1⟩] := by cbv
      rw [Expr.parse, tokens]
      rfl

theorem parse_write_quotedBraces : Writable quotedBraces ∧
    parse (String.ofList (quotedBraces.flatMap Part.write)) =
      .ok ⟨String.ofList (quotedBraces.flatMap Part.write), quotedBraces⟩ :=
  ⟨writable_quotedBraces, parse_write nofun writable_quotedBraces⟩

end Template

end LiveTemplate
