import LiveTemplate.Template.Chunk
import LiveTemplate.Expr.Parser

/-!
# Templates

A template is text with expressions between `$\x7b` and `\x7d`, split into parts and parsed.
-/
namespace LiveTemplate

inductive Part where
  | text (text : String)
  | expression (source : String) (expr : Expr)

structure Template where
  source : String
  parts : List Part

namespace Template

/-- The text of a template without regions. -/
def constant? (t : Template) : Option String :=
  match t.parts with
  | [.text s] => some s
  | _ => none

def isConstant (t : Template) : Bool :=
  t.constant?.isSome

/-- The expression of a template that is one region and nothing else. -/
def pure? (t : Template) : Option Expr :=
  match t.parts with
  | [.expression _ e] => some e
  | _ => none

def expressions (t : Template) : List Expr :=
  t.parts.filterMap fun
    | .expression _ e => some e
    | .text _ => none

/-- Whether a source holds the opener of a region. -/
def isLiteral (source : String) : Bool :=
  Chunk.hasOpener source.toList

/-- Parses the regions of the chunks in order. -/
def partsOfChunks : List Chunk → Except TemplateError (List Part)
  | [] => .ok []
  | .text s :: rest => (partsOfChunks rest).map (.text s :: ·)
  | .region source offset :: rest =>
    match Expr.parse source with
    | .error e => .error (e.shift offset)
    | .ok e => (partsOfChunks rest).map (.expression source e :: ·)

/-- Parses a template. A source without an opener is one text, also when it is empty. -/
def parse (source : String) : Except TemplateError Template :=
  if isLiteral source then
    match Chunk.scan source with
    | .error e => .error e
    | .ok chunks => (partsOfChunks chunks).map (⟨source, ·⟩)
  else .ok ⟨source, [.text source]⟩

theorem parse_eq_ok {source : String} {t : Template} (h : parse source = .ok t) :
    t.source = source ∧ (isLiteral source = false ∧ t.parts = [.text source] ∨
      isLiteral source = true ∧ ∃ chunks, Chunk.scan source = .ok chunks ∧
        partsOfChunks chunks = .ok t.parts) := by
  unfold parse at h
  split at h
  next hliteral =>
    split at h
    · cases h
    next chunks hscan =>
      cases hparts : partsOfChunks chunks with
      | error => simp [hparts, Except.map] at h
      | ok parts =>
        rw [hparts] at h
        obtain rfl := Except.ok.inj h
        exact ⟨rfl, .inr ⟨hliteral, chunks, hscan, hparts⟩⟩
  next hliteral =>
    obtain rfl := Except.ok.inj h
    exact ⟨rfl, .inl ⟨Bool.eq_false_iff.2 hliteral, rfl⟩⟩

theorem parse_eq_error {source : String} {e : TemplateError} (h : parse source = .error e) :
    Chunk.scan source = .error e ∨
      ∃ chunks, Chunk.scan source = .ok chunks ∧ partsOfChunks chunks = .error e := by
  unfold parse at h
  split at h
  · split at h
    next hscan => exact .inl (hscan.trans (congrArg _ (Except.error.inj h)))
    next chunks hscan =>
      cases hparts : partsOfChunks chunks with
      | error =>
        rw [hparts] at h
        exact .inr ⟨chunks, hscan, hparts.trans (congrArg _ (Except.error.inj h))⟩
      | ok => simp [hparts, Except.map] at h
  · cases h

end Template

end LiveTemplate
