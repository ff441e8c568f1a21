import LiveTemplate.Error
import LiveTemplate.Text.Offset

/-!
# Chunks

A template is cut into text and regions. A region runs from its opener to the brace that closes it:
braces inside it nest, and what stands in quotes does not count.
-/
namespace LiveTemplate

inductive Chunk where
  | text (text : String)
  /-- The inside of a region, and its byte offset. -/
  | region (source : String) (offset : Nat)
  deriving DecidableEq, Repr

namespace Chunk

/-- The two characters that open a region. -/
def opener : List Char := ['$', '\x7b']

def hasOpener : List Char → Bool
  | '$' :: '\x7b' :: _ => true
  | _ :: cs => hasOpener cs
  | [] => false

/-- The text before the first opener, and what follows the opener if there is one. -/
def splitOpener : List Char → List Char × Option (List Char)
  | '$' :: '\x7b' :: cs => ([], some cs)
  | c :: cs =>
    let (before, after) := splitOpener cs
    (c :: before, after)
  | [] => ([], none)

/-- Whether a character opens a quoted stretch inside a region. -/
def isQuote (c : Char) : Bool :=
  c == '"' || c == '\'' || c == '\x60'

/-- The inside of a region up to its closing brace, and what follows the brace. The arguments are
the number of open braces inside the region and the quote that is open. -/
def splitRegion : Nat → Option Char → List Char → Option (List Char × List Char)
  | _, _, [] => none
  | _, some _, ['\\'] => none
  | depth, some quote, '\\' :: c :: cs =>
    (splitRegion depth (some quote) cs).map fun (body, rest) => ('\\' :: c :: body, rest)
  | depth, some quote, c :: cs =>
    (splitRegion depth (if c = quote then none else some quote) cs).map fun (body, rest) =>
      (c :: body, rest)
  | depth, none, c :: cs =>
    if c = '\x7d' then
      match depth with
      | 0 => some ([], cs)
      | depth + 1 => (splitRegion depth none cs).map fun (body, rest) => (c :: body, rest)
    else
      (splitRegion (if c = '\x7b' then depth + 1 else depth) (if isQuote c then some c else none)
        cs).map fun (body, rest) => (c :: body, rest)

theorem splitOpener_some {cs before after : List Char}
    (h : splitOpener cs = (before, some after)) : cs = before ++ opener ++ after := by
  fun_induction splitOpener cs generalizing before with
  | case1 cs =>
    simp only [Prod.mk.injEq, Option.some.injEq] at h
    obtain ⟨rfl, rfl⟩ := h
    rfl
  | case2 c cs _ before' after' heq ih =>
    simp only [Prod.mk.injEq] at h
    obtain ⟨rfl, rfl⟩ := h
    rw [ih heq]
    rfl
  | case3 => simp at h

theorem splitRegion_some {depth : Nat} {quote : Option Char} {cs body rest : List Char}
    (h : splitRegion depth quote cs = some (body, rest)) : cs = body ++ '\x7d' :: rest := by
  fun_induction splitRegion depth quote cs generalizing body with
  | case1 => cases h
  | case2 => cases h
  | case3 depth quote c cs ih =>
    simp only [Option.map_eq_some_iff, Prod.mk.injEq, Prod.exists] at h
    obtain ⟨body', _, hb, rfl, rfl⟩ := h
    simp [ih hb]
  | case4 depth quote c cs _ _ ih =>
    simp only [Option.map_eq_some_iff, Prod.mk.injEq, Prod.exists] at h
    obtain ⟨body', _, hb, rfl, rfl⟩ := h
    simp [ih hb]
  | case5 cs =>
    cases h
    rfl
  | case6 cs depth ih =>
    simp only [Option.map_eq_some_iff, Prod.mk.injEq, Prod.exists] at h
    obtain ⟨body', _, hb, rfl, rfl⟩ := h
    simp [ih hb]
  | case7 depth c cs hc ih =>
    simp only [Option.map_eq_some_iff, Prod.mk.injEq, Prod.exists] at h
    obtain ⟨body', _, hb, rfl, rfl⟩ := h
    simp [ih hb]

/-- A text chunk, unless the text is empty. -/
def ofText (cs : List Char) : List Chunk :=
  if cs.isEmpty then [] else [.text (String.ofList cs)]

/-- Cuts a text that starts at a byte offset. -/
def cut (offset : Nat) (cs : List Char) : Except TemplateError (List Chunk) :=
  match h : splitOpener cs with
  | (before, none) => .ok (ofText before)
  | (before, some after) =>
    match hr : splitRegion 0 none after with
    | none =>
      .error ⟨.unterminatedRegion, String.ofList (opener ++ after), offset + Text.width before⟩
    | some (body, rest) =>
      have : rest.length < cs.length := by
        rw [splitOpener_some h, splitRegion_some hr]
        simp only [List.length_append, List.length_cons]
        omega
      let start := offset + Text.width before + Text.width opener
      (cut (start + Text.width body + Text.width ['\x7d']) rest).map fun chunks =>
        ofText before ++ .region (String.ofList body) start :: chunks
termination_by cs.length

/-- Cuts a template into chunks. -/
def scan (source : String) : Except TemplateError (List Chunk) :=
  cut 0 source.toList

/-- The form in which a template writes a chunk. -/
def write : Chunk → List Char
  | text s => s.toList
  | region source _ => opener ++ source.toList ++ ['\x7d']

end Chunk

end LiveTemplate
