import Mathlib
import LiveTemplate.Proofs.Expr.Relevance
import LiveTemplate.Proofs.Reactive.Chains

/-!
# Paths in two parts

A path can be resolved in two parts: first its beginning, and then the rest from what the beginning gave.
Between the two nothing is lost, since a path never ends at a handle. Where reads have no side effects on
the values of cells, both ways come to the same end in the same state, by recorded reads of the same cells
in the same order (`Engine.Reliable.resolves_append`).
-/
namespace LiveTemplate

open Reactive Reactive.Engine

variable {σ : Type}

/-! ## Values without handles -/

namespace Value

variable {v : Value}

/-- No handle is in the value, however deep. -/
inductive Handleless : Value → Prop where
  | undefined : Handleless .undefined
  | null : Handleless .null
  | bool (b : Bool) : Handleless (.bool b)
  | number (x : Float) : Handleless (.number x)
  | text (s : String) : Handleless (.text s)
  | array (i : Nat) {items : List Value} (each : ∀ x ∈ items, Handleless x) :
      Handleless (.array i items)
  | object (i : Nat) {fields : Fields} (each : ∀ p ∈ fields, Handleless p.2) :
      Handleless (.object i fields)

theorem Handleless.plain (h : v.Handleless) : v.isReactive = false := by
  cases h <;> rfl

/-- What a segment names is simple, or a part of the value. -/
theorem member_cases (v : Value) (segment : Segment) :
    v.member segment = .undefined ∨ (∃ x, v.member segment = .number x) ∨
      (∃ s, v.member segment = .text s) ∨ (∃ i items, v = .array i items ∧ v.member segment ∈ items) ∨
      ∃ i fields key, v = .object i fields ∧ (key, v.member segment) ∈ fields := by
  have item {items : List Value} (n : Nat) :
      items[n]?.getD .undefined = .undefined ∨ items[n]?.getD .undefined ∈ items := by
    cases h : items[n]? with
    | none => exact .inl rfl
    | some x => exact .inr (List.mem_of_getElem? h)
  have field {fields : Fields} (key : String) :
      (Table.get? key fields).getD .undefined = .undefined ∨
        (key, (Table.get? key fields).getD .undefined) ∈ fields := by
    cases h : Table.get? key fields with
    | none => exact .inl rfl
    | some x => exact .inr (mem_of_lookup h)
  fun_cases v.member segment <;> grind

theorem Handleless.member (h : v.Handleless) (segment : Segment) : (v.member segment).Handleless := by
  rcases v.member_cases segment with eq | ⟨x, eq⟩ | ⟨s, eq⟩ | ⟨i, items, rfl, mem⟩ |
    ⟨i, fields, key, rfl, mem⟩
  · exact eq ▸ .undefined
  · exact eq ▸ .number x
  · exact eq ▸ .text s
  · cases h with
    | array _ each => exact each _ mem
  · cases h with
    | object _ each => exact each _ mem

end Value

namespace Path

variable {v context : Value}

theorem run_walk_handleless (h : v.Handleless) (path : Path) :
    ∃ w, ∀ (e : Engine σ) (depth : Nat), run depth (path.walk v) e = some (.ok w, e) := by
  induction path generalizing v with
  | nil => exact ⟨v, fun _ _ => rfl⟩
  | cons segment rest ih =>
    rw [walk]
    split
    · exact ⟨.undefined, fun _ _ => rfl⟩
    · have member := h.member segment
      obtain ⟨w, ran⟩ := ih member
      refine ⟨w, fun e depth => ?_⟩
      rw [run_bind, run_settle_plain member.plain]
      exact ran e depth

/-- Without handles in the context there is nothing to read, and nothing that could fail. -/
theorem run_resolve_handleless (h : context.Handleless) (path : Path) :
    ∃ w, ∀ (e : Engine σ) (depth : Nat), run depth (path.resolve context) e = some (.ok w, e) := by
  obtain ⟨w, ran⟩ := run_walk_handleless h path
  refine ⟨w, fun e depth => ?_⟩
  rw [resolve, run_bind, run_settle_plain h.plain]
  exact ran e depth

end Path

/-! ## Programs that record their reads -/

namespace Reactive.Engine

variable {e e' e₁ : Engine σ} {p : Program σ} {o : Outcome} {v : Value} {next : Value → Program σ}
  {f : Fault} {N : Naming} {table : Cell → Outcome} {cells more : List Cell}

/-- The program ends so; on the way it has recorded these cells, one after the other, and no handle is
left in the end. -/
structure Gathers (e : Engine σ) (p : Program σ) (o : Outcome) (cells : List Cell) (e' : Engine σ) :
    Prop where
  completes : e.Completes p o e'
  tracking : e'.tracking = (e.trackAll cells).tracking
  plain : ∀ w, o = .ok w → w.isReactive = false

theorem gathers_pure (plain : v.isReactive = false) (e : Engine σ) :
    e.Gathers (.pure v) (.ok v) [] e where
  completes := ⟨0, fun _ _ => rfl⟩
  tracking := rfl
  plain := by
    rintro _ ⟨⟩
    exact plain

theorem Gathers.bind (h : e.Gathers p (.ok v) cells e₁) (rest : e₁.Gathers (next v) o more e') :
    e.Gathers (p.bind next) o (cells ++ more) e' where
  completes := h.completes.bind rest.completes
  tracking := by
    rw [rest.tracking, trackAll_append]
    exact tracking_trackAll h.tracking more
  plain := rest.plain

theorem Gathers.bind_error (h : e.Gathers p (.error f) cells e') :
    e.Gathers (p.bind next) (.error f) cells e' where
  completes := h.completes.bind_error
  tracking := h.tracking
  plain := nofun

/-- Following a value that is no handle changes nothing. -/
theorem Gathers.of_settled (plain : v.isReactive = false)
    (h : e.Gathers ((Program.settle v).bind next) o cells e') : e.Gathers (next v) o cells e' where
  completes := by
    obtain ⟨enough, ran⟩ := h.completes
    refine ⟨enough, fun depth le => ?_⟩
    have now := ran depth le
    rw [run_bind, run_settle_plain plain] at now
    exact now
  tracking := h.tracking
  plain := h.plain

theorem Reliable.settles (h : e.Reliable N table) (v : Value) : ∃ o cells e' N',
    e.Gathers (.settle v) o cells e' ∧ Later e N e' N' ∧ e'.Reliable N' table := by
  obtain ⟨reads, r, o, e', N', unwraps, later, reliable⟩ := h.unwraps v
  exact ⟨o, tracked reads, e', N', ⟨unwraps.ends, unwraps.tracking, unwraps.plain⟩, later, reliable⟩

/-- The step of a walk: what goes on from every value that is no handle goes on from any value. -/
theorem Reliable.settles_then (h : e.Reliable N table) (v : Value)
    (rest : ∀ {w e₁ N₁}, w.isReactive = false → e₁.Reliable N₁ table → ∃ o cells e' N',
      e₁.Gathers (next w) o cells e' ∧ Later e₁ N₁ e' N' ∧ e'.Reliable N' table) :
    ∃ o cells e' N', e.Gathers ((Program.settle v).bind next) o cells e' ∧ Later e N e' N' ∧
      e'.Reliable N' table := by
  obtain ⟨o, cells, e₁, N₁, settles, later, reliable⟩ := h.settles v
  cases o with
  | error f => exact ⟨_, cells, e₁, N₁, settles.bind_error, later, reliable⟩
  | ok w =>
    obtain ⟨o, more, e', N', gathers, later', reliable'⟩ := rest (settles.plain w rfl) reliable
    exact ⟨o, _, e', N', settles.bind gathers, later.trans later', reliable'⟩

theorem Reliable.walks (h : e.Reliable N table) (plain : v.isReactive = false) (path : Path) :
    ∃ o cells e' N', e.Gathers (path.walk v) o cells e' ∧ Later e N e' N' ∧ e'.Reliable N' table := by
  induction path generalizing v e N with
  | nil => exact ⟨_, _, e, N, gathers_pure plain e, .refl e N, h⟩
  | cons segment rest ih =>
    rw [Path.walk]
    split
    · exact ⟨_, _, e, N, gathers_pure rfl e, .refl e N, h⟩
    · exact h.settles_then _ fun plain reliable => ih reliable plain

theorem Reliable.resolves (h : e.Reliable N table) (path : Path) (context : Value) :
    ∃ o cells e' N', e.Gathers (path.resolve context) o cells e' ∧ Later e N e' N' ∧
      e'.Reliable N' table :=
  h.settles_then context fun plain reliable => reliable.walks plain path

/-- Where reads have no side effects on the values of cells, resolving a path comes to an end, and never
to a handle. Resolving a longer path comes to the same end, in the same state, as resolving its rest from
there: the cells recorded are those of the beginning and then those of the rest. A failure of the
beginning is one of the whole. A context without handles gives a value, and leaves the state as it is. -/
theorem Reliable.resolves_append (h : e.Reliable N table) (p q : Path) (context : Value) :
    ∃ o cells e₁ N₁, e.Gathers (p.resolve context) o cells e₁ ∧ Later e N e₁ N₁ ∧
      e₁.Reliable N₁ table ∧
      (match o with
        | .error f => e.Gathers ((p ++ q).resolve context) (.error f) cells e₁
        | .ok w => ∃ o' more e' N', e₁.Gathers (q.resolve w) o' more e' ∧ Later e₁ N₁ e' N' ∧
            e'.Reliable N' table ∧ e.Gathers ((p ++ q).resolve context) o' (cells ++ more) e') ∧
      (context.Handleless → (∃ w, o = .ok w) ∧ e₁ = e) := by
  obtain ⟨o, cells, e₁, N₁, first, later, reliable⟩ := h.resolves p context
  refine ⟨o, cells, e₁, N₁, first, later, reliable, ?_, fun handleless => ?_⟩
  · rw [Path.resolve_append]
    cases o with
    | error f => exact first.bind_error
    | ok w =>
      have plain := first.plain w rfl
      obtain ⟨o', more, e', N', rest, later', reliable'⟩ := reliable.resolves q w
      exact ⟨o', more, e', N', rest, later', reliable', first.bind (rest.of_settled plain)⟩
  · obtain ⟨w, ran⟩ := Path.run_resolve_handleless (σ := σ) handleless p
    obtain ⟨rfl, rfl⟩ := first.completes.unique ⟨0, fun depth _ => ran e depth⟩
    exact ⟨⟨w, rfl⟩, rfl⟩

open Turning in
/-- The member is a handle of a handle: the beginning reads both, and the rest takes a character of the
text that they lead to. -/
theorem resolves_append_turning :
    (state.pushFrame (some [])).Reliable (fun _ => none) state.answer ∧
      ∃ cells e', e'.collected = [(handle 1).node, (handle 0).node] ∧
        (state.pushFrame (some [])).Gathers
          (Path.resolve ([.key "m"] ++ [.index 0]) (.object 0 [("m", .cell (handle 1))]))
          (.ok (.text "e")) cells e' := by
  have reliable : (state.pushFrame (some [])).Reliable (fun _ => none) state.answer :=
    (shows.frames [some []]).reliable
  obtain ⟨o, cells, e₁, N₁, first, -, -, rest, -⟩ :=
    reliable.resolves_append [.key "m"] [.index 0] (.object 0 [("m", .cell (handle 1))])
  have read : (state.pushFrame (some [])).Completes
      (Path.resolve [.key "m"] (.object 0 [("m", .cell (handle 1))])) (.ok (.text "end"))
      (state.pushFrame (some [(handle 1).node, (handle 0).node])) := .of_run 5 fun _ => rfl
  have letter : (state.pushFrame (some [(handle 1).node, (handle 0).node])).Completes
      (Path.resolve [.index 0] (.text "end")) (.ok (.text "e"))
      (state.pushFrame (some [(handle 1).node, (handle 0).node])) := .of_run 5 fun _ => rfl
  obtain ⟨rfl, rfl⟩ := first.completes.unique read
  obtain ⟨o', more, e', N', second, -, -, whole⟩ := rest
  obtain ⟨rfl, rfl⟩ := second.completes.unique letter
  exact ⟨reliable, _, _, rfl, whole⟩

end Reactive.Engine

end LiveTemplate
