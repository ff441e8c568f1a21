import Mathlib
import LiveTemplate.Proofs.Binding.Displaying
import LiveTemplate.Proofs.Binding.Sessions
import LiveTemplate.Proofs.Reactive.Showing
import LiveTemplate.Proofs.Template.Splitting

/-!
# Constant templates

Whether a source holds an opener is asked before it is scanned, and the parts of a template tell how it is
evaluated and bound. All three agree (`Template.isLiteral_law`): a source without an opener is what scans
to texts only; its template is constant, and shows the source in every state without reading a cell
(`Template.Fixed`). A source with an opener never becomes a constant template, and becomes a single
expression exactly if the source is one region.
-/
namespace LiveTemplate

/-! ## Sources -/

namespace Chunk

/-- A source is without an opener if it scans to texts only. -/
theorem hasOpener_eq_false_iff {cs : List Char} (offset : Nat) : hasOpener cs = false ↔
    ∃ chunks, cut offset cs = .ok chunks ∧ ∀ c ∈ chunks, c.isText = true := by
  constructor
  · intro closed
    refine ⟨ofText cs, cut_closed closed offset, ?_⟩
    unfold ofText
    split <;> simp [isText]
  · rintro ⟨chunks, hcut, texts⟩
    obtain closed | ⟨front, after, closed, rfl⟩ := exists_opener cs
    · exact closed
    by_cases unclosed : Unclosed after
    · rw [cut_unclosed closed unclosed] at hcut
      cases hcut
    · obtain ⟨body, rest, rfl, enclosed⟩ : ∃ body rest, after = body ++ '\x7d' :: rest ∧
          Enclosed body := by
        simpa [Unclosed] using unclosed
      rw [cut_enclosed closed enclosed] at hcut
      obtain ⟨chunks, -, rfl⟩ := Expr.map_eq_ok.1 hcut
      -- the region is among the chunks, and is no text
      cases texts _ (List.mem_append_right _ List.mem_cons_self)

/-- The source is one region: an opener begins it, and the brace that closes the region ends it. -/
def OneRegion (source : String) : Prop :=
  ∃ body, source.toList = opener ++ (body ++ ['\x7d']) ∧ Enclosed body

theorem oneRegion_iff {source : String} {chunks : List Chunk} (scanned : scan source = .ok chunks) :
    OneRegion source ↔ ∃ body start, chunks = [.region body start] := by
  constructor
  · rintro ⟨body, hsource, enclosed⟩
    have closed : hasOpener [] = false := rfl
    have hcut := cut_enclosed closed enclosed [] 0
    rw [List.nil_append, ← hsource, ← scan, scanned, cut_closed rfl] at hcut
    exact ⟨_, _, Except.ok.inj hcut⟩
  · rintro ⟨body, start, rfl⟩
    obtain ⟨splits, placed⟩ := Template.splits_scan scanned
    refine ⟨body.toList, ?_, (placed [] body start [] rfl).2⟩
    simpa [write] using splits.written.symm

end Chunk

/-! ## Bodies without reads -/

namespace Reactive.Engine

variable {σ : Type} {e : Engine σ} {id : NodeId} {n : Node (Program σ)} {last : Option Outcome}
  {v : Value}

/-- A computed that is due, and whose body is a value, comes to show it and has no sources. -/
theorem get_of_pure (found : e.graph.node? id = some n)
    (kind : n.kind = .computed (.pure v) false last) (dirty : n.freshness = .dirty) :
    ∃ e', e.Completes (.get ⟨.computed, id⟩) (.ok v) e' ∧
      ∃ m, e'.graph.node? id = some m ∧ m.sources = [] := by
  let g := e.graph.begun id (.computed (.pure v) true last)
  have hbegun : g.node? id = some _ := Graph.begun_self found _
  obtain ⟨m, hm, hkind, -, hsources⟩ := Graph.finished_self hbegun rfl rfl [] (.ok v)
  let e' : Engine σ := { e with graph := g.finished id [] (.ok v) }
  have refreshed (depth : Nat) : refreshWithin (depth + 1) id e = some e' := by
    rw [refreshWithin_dirty found dirty]
    obtain ⟨_, _, _, _, _⟩ := n
    subst kind
    simp only [runNode, found, Program.pure, Program.exec, Option.map_some, storeOutcome_closeRun]
    rfl
  have shown : e'.shownOutcome id = .ok v := by
    obtain ⟨_, _, _, _, _⟩ := m
    subst hkind
    simp [shownOutcome, e', hm]
  refine ⟨e'.track id, .of_run 1 fun depth => ?_, m, ?_, ?_⟩
  · rw [run, Program.get, Program.exec, readCell_computed found kind, refreshed]
    simp [shown, trackIf, Program.exec]
  · rw [← hm]
    simp only [track]
    split <;> rfl
  · simp [hsources]

end Reactive.Engine

/-! ## Templates -/

namespace Template

open Chunk Reactive Reactive.Engine

/-- The template shows the text in every state, whatever the context, and reads no cell for it. -/
structure Fixed (t : Template) (text : String) : Prop where
  constant : t.constant? = some text
  render {σ : Type} (context : Value) : t.render (σ := σ) context = .pure (.text text)
  evaluate {σ : Type} (context : Value) : t.evaluate (σ := σ) context = .pure (.text text)
  body {σ : Type} (kind : BindingKind) (context : Value) :
    Binding.body (σ := σ) kind t context = .pure (.text text)
  /-- In every state a binding can be created, unless its scope is gone. It shows the text at the first
  read, and does not depend on anything. -/
  binding {σ : Type} (e : Engine σ) (kind : BindingKind) (context : Value) (owner : Option ScopeId)
    (live : ∀ s, owner = some s → (e.graph.scope? s).isSome = true) : ∃ id e₁ e',
      (∀ depth next, run depth (Binding.bind kind t context owner next) e =
        run depth (next (.ok id)) e₁) ∧
      e₁.Completes (.get ⟨.computed, id⟩) (.ok (.text text)) e' ∧
      ∃ n, e'.graph.node? id = some n ∧ n.sources = []

theorem fixed_of_constant {t : Template} {text : String} (constant : t.constant? = some text) :
    t.Fixed text := by
  have hpure : t.pure? = none := by
    unfold constant? at constant
    unfold pure?
    split at constant
    next h => rw [h]
    next => cases constant
  have render {σ : Type} (context : Value) : t.render (σ := σ) context = .pure (.text text) := by
    rw [Template.render, constant]
  have body {σ : Type} (kind : BindingKind) (context : Value) :
      Binding.body (σ := σ) kind t context = .pure (.text text) := by
    simp only [Binding.body, constant]
  refine ⟨constant, render, fun context => ?_, body, fun {σ} e kind context owner live => ?_⟩
  · rw [Template.evaluate, hpure]
    exact render context
  · cases owner with
    | none =>
      obtain ⟨e', shows⟩ := get_of_pure (e := { e with graph := _ })
        (e.graph.insertNode_self (.computed (.pure (.text text)) false none) .dirty none) rfl rfl
      refine ⟨_, _, e', fun depth next => ?_, shows⟩
      rw [Binding.bind, body]
      rfl
    | some owner =>
      obtain ⟨id, g, inserted⟩ := insertOwned_of_live (live owner rfl)
        (.computed (.pure (.text text)) false none)
      obtain ⟨rfl, hsame, -⟩ := Graph.insertOwned_eq_some inserted
      obtain ⟨e', shows⟩ := get_of_pure (e := { e with graph := g })
        ((hsame _).trans (Graph.insertNode_self _ _ _ _)) rfl rfl
      refine ⟨_, _, e', fun depth next => ?_, shows⟩
      simp only [Binding.bind, body, run, Program.exec, inserted]

/-- The parts of a template and the chunks of its source are of the same kinds. -/
theorem isText_parts {chunks : List Chunk} {parts : List Part}
    (h : partsOfChunks chunks = .ok parts) : parts.map Part.isText = chunks.map Chunk.isText := by
  have := congrArg (List.map Prod.snd) (map_partsOfChunks h)
  simpa [Function.comp_def] using this

theorem constant?_eq_none {t : Template} {chunks : List Chunk} (literal : isLiteral t.source = true)
    (scanned : scan t.source = .ok chunks) (parsed : partsOfChunks chunks = .ok t.parts) :
    t.constant? = none := by
  unfold constant?
  split
  next text hparts =>
    have kinds := isText_parts parsed
    rw [hparts] at kinds
    have closed : isLiteral t.source = false := by
      refine (hasOpener_eq_false_iff 0).2 ⟨chunks, scanned, fun c hc => ?_⟩
      have hmem := List.mem_map_of_mem (f := Chunk.isText) hc
      rw [← kinds] at hmem
      simpa [Part.isText] using hmem
    grind
  next => rfl

theorem pure?_isSome_iff {t : Template} {chunks : List Chunk}
    (parsed : partsOfChunks chunks = .ok t.parts) :
    t.pure?.isSome = true ↔ ∃ body start, chunks = [.region body start] := by
  have kinds := isText_parts parsed
  constructor
  · intro some
    match h : t.parts with
    | [.expression _ e] =>
      rw [h] at kinds
      match chunks with
      | [.region body start] => exact ⟨body, start, rfl⟩
    | [] | [.text _] | _ :: _ :: _ => simp [pure?, h] at some
  · rintro ⟨body, start, rfl⟩
    match h : t.parts with
    | [.expression _ e] => simp [pure?, h]
    | [] | [.text _] | _ :: _ :: _ => simp [h, Part.isText, Chunk.isText] at kinds

/-- A source without an opener is what scans to texts only; it parses, and its template shows the source.
A source with an opener that parses is no constant, and a single expression if it is one region. -/
theorem isLiteral_law (source : String) :
    (isLiteral source = false ↔
      ∃ chunks, scan source = .ok chunks ∧ ∀ c ∈ chunks, c.isText = true) ∧
    match parse source with
    | .ok t =>
      if isLiteral source then
        t.isConstant = false ∧ (t.pure?.isSome = true ↔ OneRegion source)
      else t.isConstant = true ∧ t.Fixed source
    | .error _ => isLiteral source = true := by
  refine ⟨hasOpener_eq_false_iff 0, ?_⟩
  split
  next t parsed =>
    obtain ⟨rfl, ⟨closed, hparts⟩ | ⟨literal, chunks, scanned, hparts⟩⟩ := parse_eq_ok parsed
    · have constant : t.constant? = some t.source := by
        rw [constant?, hparts]
      rw [if_neg (by simp [closed])]
      exact ⟨by rw [isConstant, constant]; rfl, fixed_of_constant constant⟩
    · rw [if_pos literal, isConstant, constant?_eq_none literal scanned hparts,
        pure?_isSome_iff hparts, oneRegion_iff scanned]
      exact ⟨rfl, Iff.rfl⟩
  next e failed =>
    by_contra literal
    rw [parse, if_neg literal] at failed
    cases failed

end Template

end LiveTemplate
