import LiveTemplate.Proofs.Reactive.Acyclic
import LiveTemplate.Proofs.Reactive.Deafness
import LiveTemplate.Proofs.Reactive.Moments

/-!
# Computeds that lose a source

A computed that goes takes along what a late subscriber still had to hear from it. The subscriber
keeps its freshness, and the sources that it has left. So it runs at its next read if it is dirty, or
if one of those sources has changed; and if all of them are settled, it counts as up to date, and the
read gives what it remembers (`Engine.Roamed.reads_bereft`).
-/
namespace LiveTemplate.Reactive

open Relation (ReflTransGen)

variable {σ : Type}

namespace Graph

variable {g h : Graph (Program σ)} {P : NodeId → Prop}

/-- A computed that has recorded what is gone is deaf, unless it is going to run anyway. -/
theorem CoherentOn.deaf_of_loss (hg : g.CoherentOn P) (hl : g.Left h) {c d : NodeId}
    {n m : Node (Program σ)} {body : Program σ} {last : Option Outcome} (hearing : ¬g.Deaf d)
    (found : g.node? d = some n) (kind : n.kind = .computed body false last)
    (higher : n.freshness ≠ .dirty) (recorded : c ∈ n.sources) (gone : h.node? c = none)
    (left : h.node? d = some m) : h.Deaf d := by
  obtain ⟨n', hn', hk, hf, -⟩ := hl.origin left
  obtain rfl := Option.some.inj (found.symm.trans hn')
  have hcurrent : g.Current body n := by
    by_contra hcurrent
    exact hearing ⟨n, body, last, found, kind, .inl ⟨higher, hcurrent⟩⟩
  refine ⟨m, body, last, left, hk.trans kind, .inl ⟨hf ▸ higher, fun hcurrent' => ?_⟩⟩
  -- the first of the sources that is gone is read after what has not changed
  have hfirst : (n.sources.find? fun s => (h.node? s).isNone).isSome :=
    List.find?_isSome.2 ⟨c, recorded, by simp [gone]⟩
  obtain ⟨t, ht⟩ := Option.isSome_iff_exists.1 hfirst
  obtain ⟨hgone, before, after, hsources, hbefore⟩ := List.find?_eq_some_iff_append.1 ht
  obtain ⟨cell, hc, rfl⟩ := (hg.lawful (body?_of_kind found kind)).next_read g.shown h.shown
    (hcurrent.sources.symm.trans hsources) List.nil_prefix fun s hs => by
      rw [hl.shown (by simpa using hbefore s hs)]
      exact .refl (hg.shown_proper s)
  obtain ⟨t, ht, -⟩ := node_of_holds (hcurrent'.holds cell hc)
  simp [ht] at hgone

theorem gone_begun {g : Graph σ} {c : NodeId} (gone : g.node? c = none) (d : NodeId)
    (kind : NodeKind σ) : (g.begun d kind).node? c = none := by
  rw [node?_begun]
  split <;> simp [gone]

theorem Stirred.gone {g h : Graph σ} (hs : g.Stirred h) {c : NodeId} (gone : g.node? c = none) :
    h.node? c = none := by
  have hc := hs.skeleton c
  rwa [gone, Option.map_none, Option.map_eq_none_iff] at hc

end Graph

namespace Engine

open Reactive.Graph Moment

variable {e : Engine Journal}

/-- The sources of a stale computed that does not hear are asked as far as need be. It is dirty in the
end if one of them did not show its outcome from scratch. -/
theorem AtRest.asks_free (h : e.AtRest) {d : NodeId} {n : Node (Program Journal)}
    (found : e.graph.node? d = some n) (stale : n.freshness = .stale) (deaf : e.graph.Deaf d)
    (free : ∀ s ∈ n.sources, ¬e.graph.Hindered s) : ∃ depth g,
      askSources (refreshWithin depth) d n.sources e = some { e with graph := g } ∧
        e.graph.Stirred g ∧ ∃ m, g.node? d = some m ∧ n.Kept m ∧
          ((∃ s ∈ n.sources, ¬(e.graph.shown s).Alike (e.graph.sheet.outcome s)) →
            m.freshness = .dirty) := by
  set F := e.graph.sheet.forecast.only fun x => ¬e.graph.Hindered x
  have hsure : e.graph.Sure F := h.coherent.sure h.idle
  obtain ⟨bound, hbound⟩ := exists_bound F.rank n.sources
  have hfar : ¬e.graph.sheet.below F bound d := fun hd => hd.2.1.2 ⟨d, .refl, .inr deaf⟩
  have hready {s : NodeId} (hs : s ∈ n.sources) :
      ∃ cell : Cell, cell.node = s ∧ Ready F bound e.graph.sheet cell := by
    obtain ⟨t, ht, heffect⟩ := h.coherent.cells found hs
    cases hk : t.kind with
    | signal v => exact ⟨⟨.signal, s⟩, rfl, ⟨v, value?_eq_some.2 ⟨t, ht, hk⟩⟩, nofun⟩
    | computed body running last =>
      exact ⟨⟨.computed, s⟩, rfl, ⟨body, body?_of_kind ht hk⟩, fun _ =>
        ⟨h.coherent.covers (free s hs), hbound s hs⟩⟩
    | effect body running => simp [Node.isEffect, hk] at heffect
  have hasked := ServesOn.askSources (servesOn_refreshWithin (fun _ h => h) bound) (fun _ h => h)
    hsure.coherent hsure.obeys (Idle.mono hsure.idle fun x hx => hx.2.1) hfar found stale
    (fun _ _ _ _ _ hsplit _ => hready (hsplit ▸ by simp))
    (show n.sources = [] ++ n.sources from rfl) (by simp)
  obtain ⟨e₂, he₂⟩ := Option.isSome_iff_exists.1 (hasked.2 (Nat.le_refl bound))
  obtain ⟨g, rfl, hr, hg, m, hm, hkept, hend⟩ := hasked.1 _ he₂
  refine ⟨bound, g, he₂, hr.stirred, m, hm, hkept, ?_⟩
  rintro ⟨s, hs, hother⟩
  by_contra hdirty
  have hstale : m.freshness = .stale :=
    (hkept.freshness.resolve_right fun hf => hdirty hf.2).trans stale
  obtain ⟨cell, rfl, hcell⟩ := hready hs
  have hobeys : g.sheet.Obeys F := by
    rw [hr.sheet]
    exact hsure.obeys
  have hsettled := hend.resolve_left hdirty _ (hkept.sources ▸ hs)
  exact hother ((hr.steady found hm stale hstale _ hs).trans
    (Ready.alike_on (hr.sheet ▸ hcell) (fun _ h => h) hg hobeys hsettled))

end Engine

namespace Moment

open Reactive.Graph

variable {k : List (Caller σ)} {e : Engine σ} {d : NodeId} {n : Node (Program σ)}

/-- Sources that are settled are asked in vain. -/
theorem ask_settled {sources : List NodeId} (higher : e.graph.freshness? d ≠ some .dirty)
    (settled : ∀ s ∈ sources, e.graph.Settled s) :
    Steps ⟨.ask d sources, k, e⟩ ⟨.settle d, k, e⟩ := by
  induction sources with
  | nil => exact .single .allAsked
  | cons s rest ih =>
    obtain ⟨m, hm, hset⟩ := settled s (by simp)
    have hasked : Steps ⟨.ask d (s :: rest), k, e⟩ ⟨.asked d rest, k, e⟩ := by
      cases hk : m.kind with
      | signal v => exact .single (.skip (by simp [hm, Node.isIdleComputed, hk]))
      | computed body running last =>
        obtain ⟨rfl, hclean⟩ := (Node.isSettled_computed hk).1 hset
        have hfresh : e.graph.freshness? s = some .clean := by simp [freshness?, hm, hclean]
        have hrefresh : Steps ⟨.refresh s, .asking d rest :: k, e⟩ ⟨.refreshed, .asking d rest :: k, e⟩ :=
          .head (.known (by simp [hfresh])) (.single (.upToDate (by simp [hfresh]) (by simp [hfresh])))
        exact .head (.ask (by simp [hm, Node.isIdleComputed, hk])) (hrefresh.tail .told)
      | effect body running => simp [Node.isSettled, hk] at hset
    exact hasked.trans (.head (.unchanged higher) (ih fun s hs => settled s (by simp [hs])))

variable {body : Program σ} {last : Option Outcome} {tracked : Bool} {reader : Reader σ}

/-- A dirty computed is run when it is read. -/
theorem read_dirty (found : e.graph.node? d = some n) (kind : n.kind = .computed body false last)
    (dirty : n.freshness = .dirty) : Steps ⟨.read ⟨.computed, d⟩ tracked reader, k, e⟩
      ⟨.work body, .computing d :: .reading ⟨.computed, d⟩ tracked reader :: k,
        e.beginRun d (.computed body true last)⟩ :=
  .head (.readComputed rfl found kind) (.head (.known (by simp [freshness?, found, dirty]))
    (.single (.compute found dirty kind)))

/-- So is a stale one if it is dirty after its sources have been asked. -/
theorem read_stale_changed (found : e.graph.node? d = some n)
    (kind : n.kind = .computed body false last) (stale : n.freshness = .stale) {depth : Nat}
    {g : Graph (Program σ)} {m : Node (Program σ)} (asked : Engine.askSources
      (Engine.refreshWithin depth) d n.sources e = some { e with graph := g })
    (hm : g.node? d = some m) (kept : n.Kept m) (dirty : m.freshness = .dirty) :
    Steps ⟨.read ⟨.computed, d⟩ tracked reader, k, e⟩
      ⟨.work body, .computing d :: .reading ⟨.computed, d⟩ tracked reader :: k,
        ({ e with graph := g } : Engine σ).beginRun d (.computed body true last)⟩ :=
  .head (.readComputed rfl found kind) (.head (.stale found stale)
    ((askSources_steps (refreshes_refreshWithin depth) asked).tail
      (.compute hm dirty (kept.kind.trans kind))))

/-- A stale one that has only settled sources counts as up to date, and shows what it remembers. -/
theorem read_stale_settled (found : e.graph.node? d = some n)
    (kind : n.kind = .computed body false last) (stale : n.freshness = .stale)
    (settled : ∀ s ∈ n.sources, e.graph.Settled s) :
    Steps ⟨.read ⟨.computed, d⟩ tracked reader, k, e⟩
      ⟨reader.resume n.kind.shown ⟨.computed, d⟩, k,
        ({ e with graph := e.graph.setFreshness d .clean } : Engine σ).trackIf tracked d⟩ := by
  have hfresh : e.graph.freshness? d = some .stale := by simp [freshness?, found, stale]
  have hshown : Engine.shownOutcome { e with graph := e.graph.setFreshness d .clean } d =
      n.kind.shown := by
    have hself : (e.graph.setFreshness d .clean).node? d = some (n.withFreshness .clean) := by
      rw [node?_setFreshness, if_pos rfl, found, Option.map_some]
    obtain ⟨_, _, _, _, _⟩ := n
    subst kind
    simp only [Engine.shownOutcome, hself, Node.withFreshness]
    cases last <;> rfl
  refine .head (.readComputed rfl found kind) (.head (.stale found stale)
    ((ask_settled (by simp [hfresh]) settled).trans (.head (.cleaned hfresh) (.single ?_))))
  rw [← hshown]
  exact .answered

end Moment

namespace Engine

open Reactive.Graph Moment

variable {mode : Bool → Prop} {allowed : Except Fault Unit → Prop} {settings : Settings}
  {e : Engine Journal}

/-- What the next read of a computed does that has lost one of its recorded sources, to a disposal of
nodes or of scopes, while it was late. -/
theorem Roamed.reads_bereft (roamed : Roamed mode allowed settings e) {c d : NodeId}
    {n : Node (Program Journal)} {body : Program Journal} {last : Option Outcome}
    (found : e.graph.node? d = some n) (kind : n.kind = .computed body false last)
    (recorded : c ∈ n.sources) (hearing : ¬e.graph.Deaf d) {work : List Doomed}
    (gone : (e.graph.remove work).node? c = none) (left : ((e.graph.remove work).node? d).isSome)
    (free : ∀ s ∈ n.sources, ((e.graph.remove work).node? s).isSome →
      ¬(e.graph.remove work).Hindered s) {tracked : Bool} {reader : Reader Journal}
    {k : List (Caller Journal)} :
    let e' : Engine Journal := { e with graph := e.graph.remove work }
    (n.freshness = .dirty ∨ n.freshness = .stale ∧ (∃ s ∈ n.sources, (e'.graph.node? s).isSome ∧
        ¬(e'.graph.shown s).Alike (e'.graph.sheet.outcome s)) →
      ∃ e'' : Engine Journal, Steps ⟨.read ⟨.computed, d⟩ tracked reader, k, e'⟩
        ⟨.work body, .computing d :: .reading ⟨.computed, d⟩ tracked reader :: k, e''⟩ ∧
        e''.graph.node? c = none) ∧
    (n.freshness = .stale → (∀ s ∈ n.sources, (e'.graph.node? s).isSome → e'.graph.Settled s) →
      Steps ⟨.read ⟨.computed, d⟩ tracked reader, k, e'⟩
        ⟨reader.resume n.kind.shown ⟨.computed, d⟩, k,
          ({ e' with graph := e'.graph.setFreshness d .clean } : Engine Journal).trackIf tracked d⟩) := by
  intro e'
  have hrest := roamed.atRest
  have hleft : e.graph.Left e'.graph := left_remove hrest.coherent.linked work
  have hrest' : e'.AtRest := hrest.left hleft
  obtain ⟨m, hm⟩ := Option.isSome_iff_exists.1 left
  obtain ⟨n', hn', hk, hf, hsources⟩ := hleft.origin hm
  obtain rfl := Option.some.inj (found.symm.trans hn')
  have hkind := hk.trans kind
  have hmem {s : NodeId} : s ∈ m.sources ↔ s ∈ n.sources ∧ (e'.graph.node? s).isSome := by
    rw [hsources, List.mem_filter]
  refine ⟨?_, fun stale settled => ?_⟩
  · rintro (dirty | ⟨stale, s, hs, hlive, hother⟩)
    · exact ⟨_, read_dirty hm hkind (hf.trans dirty), gone_begun gone d _⟩
    · have hdeaf := hrest.coherent.deaf_of_loss hleft hearing found kind (by simp [stale]) recorded
        gone hm
      obtain ⟨depth, g, hasked, hs', m', hm', hkept, hdirty⟩ := hrest'.asks_free hm (hf.trans stale)
        hdeaf fun s hs => free s (hmem.1 hs).1 (hmem.1 hs).2
      exact ⟨_, read_stale_changed hm hkind (hf.trans stale) hasked hm' hkept
        (hdirty ⟨s, hmem.2 ⟨hs, hlive⟩, hother⟩), gone_begun (hs'.gone gone) d _⟩
  · have hsteps : Steps ⟨.read ⟨.computed, d⟩ tracked reader, k, e'⟩ _ :=
      read_stale_settled hm hkind (hf.trans stale) fun s hs =>
        settled s (hmem.1 hs).1 (hmem.1 hs).2
    rwa [hk] at hsteps

/-! ## A chain -/

namespace Chain

open Pair (reading alike_reading alike_pure)
open Sheet (ends_of_calls)

def source : NodeId := ⟨0, 0⟩

def middle : NodeId := ⟨1, 0⟩

def other : NodeId := ⟨2, 0⟩

def last : NodeId := ⟨3, 0⟩

def sourceBody : Program Journal :=
  reading ⟨.signal, source⟩ .pure

/-- Gives what the middle computed gives, and may read another one before. -/
def lastBody (wide : Bool) : Program Journal :=
  if wide then reading ⟨.computed, other⟩ fun _ => reading ⟨.computed, middle⟩ .pure
  else reading ⟨.computed, middle⟩ .pure

theorem lawful_sourceBody : sourceBody.Lawful :=
  alike_reading fun _ _ => alike_pure

theorem lawful_lastBody (wide : Bool) : (lastBody wide).Lawful := by
  cases wide
  · exact alike_reading fun _ _ => alike_pure
  · exact alike_reading fun _ _ _ _ _ => alike_reading fun _ _ => alike_pure

def cells (wide : Bool) : Graph (Program Journal) :=
  let g : Graph (Program Journal) := ((Graph.empty).insertNode (.signal (.bool false)) .clean none).2
  let g := (g.insertNode (.computed sourceBody false none) .dirty none).2
  let g := (g.insertNode (.computed sourceBody false none) .dirty none).2
  (g.insertNode (.computed (lastBody wide) false none) .dirty none).2

def engine (wide : Bool) : Engine Journal := { start .default [] with graph := cells wide }

theorem roamed_engine (wide : Bool) : Roamed (· = true) Calm .default (engine wide) := by
  have h₀ : Roamed (· = true) Calm .default (start .default []) := .reached .start
  have h₁ := h₀.newSignal (Value.Proper.bool false) rfl
  have h₂ := h₁.newComputed lawful_sourceBody rfl
  have h₃ := h₂.newComputed lawful_sourceBody rfl
  exact h₃.newComputed (lawful_lastBody wide) rfl

theorem effectless_cells {wide : Bool} {x : NodeId} {n : Node (Program Journal)}
    (hn : (cells wide).node? x = some n) : n.isEffect = false := by
  obtain ⟨-, rfl⟩ | hn := insertNode_origin hn
  · rfl
  obtain ⟨-, rfl⟩ | hn := insertNode_origin hn
  · rfl
  obtain ⟨-, rfl⟩ | hn := insertNode_origin hn
  · rfl
  obtain ⟨-, rfl⟩ | hn := insertNode_origin hn
  · rfl
  cases hn

/-- The last computed has been read. -/
def known (wide : Bool) : Engine Journal :=
  ((engine wide).readCell (refreshWithin 3) ⟨.computed, last⟩ true).elim (engine wide) Prod.snd

def readers (wide : Bool) : List NodeId :=
  if wide then [other, middle] else [middle]

/-- Then the source has been set. -/
def late (wide : Bool) : Engine Journal :=
  { known wide with graph := (known wide).graph.written source (.bool true) (readers wide) }

/-- Then the middle computed has been disposed of. -/
def bereft (wide : Bool) : Engine Journal :=
  { late wide with graph := (late wide).graph.remove [.node middle] }

theorem source_known (wide : Bool) : (known wide).graph.node? source =
    some ⟨.signal (.bool false), .clean, [], readers wide, none⟩ := by
  cases wide <;> cbv

theorem roamed_late (wide : Bool) : Roamed (· = true) Calm .default (late wide) := by
  have hsome : ((engine wide).readCell (refreshWithin 3) ⟨.computed, last⟩ true).isSome := by
    cases wide <;> cbv
  obtain ⟨⟨o, e'⟩, hread⟩ := Option.isSome_iff_exists.1 hsome
  have hknown : known wide = e' := by rw [known, hread]; rfl
  have hstart := roamed_engine wide
  obtain ⟨-, hstirred, -⟩ := hstart.atRest.read hread
  have heffectless : (known wide).graph.Effectless := fun x m hm => by
    obtain ⟨n, hn, hk⟩ := hstirred.origin (hknown ▸ hm)
    exact (Node.isEffect_of_skeleton hk).trans (effectless_cells hn)
  exact (hknown ▸ hstart.read hread : Roamed _ _ _ (known wide)).written heffectless
    (source_known wide) rfl (.bool true)

theorem last_late (wide : Bool) : (late wide).graph.node? last = some ⟨.computed (lastBody wide) false
    (some (.ok (.bool false))), .stale, readers wide, [], none⟩ := by
  cases wide <;> cbv

/-- The computed that is left beside the middle one will run again. -/
theorem other_bereft : (bereft true).graph.node? other = some ⟨.computed sourceBody false
    (some (.ok (.bool false))), .dirty, [source], [last], none⟩ := by
  cbv

theorem source_bereft (wide : Bool) :
    (bereft wide).graph.sheet.value? source = some (.bool true) := by
  cases wide <;> cbv

/-- The last computed has recorded what it reads, and knows what that shows. -/
theorem not_deaf_last : ¬(late true).graph.Deaf last := by
  have hmiddle : (late true).graph.node? middle = some ⟨.computed sourceBody false
    (some (.ok (.bool false))), .dirty, [source], [last], none⟩ := by cbv
  have hother : (late true).graph.node? other = some ⟨.computed sourceBody false
    (some (.ok (.bool false))), .dirty, [source], [last], none⟩ := by cbv
  rintro ⟨n, body, o, hn, hk, ⟨-, hcurrent⟩ | ⟨clean, -⟩⟩ <;>
    obtain rfl := Option.some.inj ((last_late true).symm.trans hn)
  · cases hk
    have hmiddle' : (late true).graph.shown middle = .ok (.bool false) := shown_eq hmiddle
    have hother' : (late true).graph.shown other = .ok (.bool false) := shown_eq hother
    refine hcurrent ⟨?_, ?_, ?_⟩
    · simp [lastBody, reading, Program.cells, hmiddle', hother', readers]
      decide
    · simp only [lastBody, reading, Program.result, hmiddle', hother', if_true]
      exact .refl (Value.Proper.bool false)
    · simp only [lastBody, reading, Program.cells, hmiddle', hother', if_true]
      rintro cell hcell
      obtain rfl | rfl : cell = ⟨.computed, other⟩ ∨ cell = ⟨.computed, middle⟩ := by
        simpa [Program.cells, Program.pure] using hcell
      · exact ⟨_, body?_of_kind hother rfl⟩
      · exact ⟨_, body?_of_kind hmiddle rfl⟩
  · cases clean

theorem ends_other : (bereft true).graph.sheet.Ends 0 sourceBody (.ok (.bool true)) :=
  .signal (source_bereft true) (.done _)

/-- Nothing stands in the way of its evaluation. -/
theorem not_hindered_other : ¬(bereft true).graph.Hindered other := by
  have hbody := body?_of_kind other_bereft rfl
  rintro ⟨x, calls, obstacle | deaf⟩
  · exact ends_other.whole hbody calls obstacle
  · rcases Relation.reflTransGen_iff_eq_or_transGen.1 calls with rfl | calls
    · obtain ⟨n, body, o, hn, -, ⟨higher, -⟩ | ⟨clean, -⟩⟩ := deaf <;>
        obtain rfl := Option.some.inj (other_bereft.symm.trans hn)
      · exact higher rfl
      · cases clean
    · obtain ⟨k, hk, -⟩ := ends_of_calls calls hbody ends_other
      simp at hk

end Chain

/-- The chain has lost its middle, and the last computed still shows what was true before. -/
theorem stale_outlives_disposal : ∃ n body last e', Roamed (· = true) Calm .default (Chain.late false) ∧
    (Chain.late false).graph.node? Chain.last = some n ∧ n.kind = .computed body false last ∧
    Chain.middle ∈ n.sources ∧
    (Chain.late false).graph.shown Chain.middle = .ok (.bool false) ∧
    (Chain.late false).graph.sheet.Gives ⟨.computed, Chain.middle⟩ (.ok (.bool true)) ∧
    (Chain.bereft false).readCell (refreshWithin 3) ⟨.computed, Chain.last⟩ true =
      some (.ok (.bool false), e') ∧
    (Chain.bereft false).graph.sheet.Gives ⟨.computed, Chain.last⟩
      (.error (.reactive (.disposed .computed))) := by
  have hmiddle : (Chain.late false).graph.node? Chain.middle = some ⟨.computed Chain.sourceBody false
    (some (.ok (.bool false))), .dirty, [Chain.source], [Chain.last], none⟩ := by cbv
  have hlast : (Chain.bereft false).graph.node? Chain.last = some ⟨.computed (Chain.lastBody false)
    false (some (.ok (.bool false))), .stale, [], [], none⟩ := by cbv
  have hread : ((Chain.bereft false).readCell (refreshWithin 3) ⟨.computed, Chain.last⟩
    true).isSome := by cbv
  have hstale : (((Chain.bereft false).readCell (refreshWithin 3) ⟨.computed, Chain.last⟩
    true).get hread).1 = .ok (.bool false) := by cbv
  refine ⟨_, _, _, _, Chain.roamed_late false, Chain.last_late false, rfl, by simp [Chain.readers],
    shown_eq hmiddle, ?_, (Option.some_get hread).symm.trans (congrArg some (Prod.ext hstale rfl)), ?_⟩
  · exact .computed (body?_of_kind hmiddle rfl) (.signal (by cbv) (.done _))
  · exact .computed (body?_of_kind hlast rfl) (.goneComputed (by cbv) (.done _))

/-- With another source that has changed, the last computed runs. -/
theorem reads_bereft_beside : ∃ e'' : Engine Journal,
    Moment.Steps ⟨.read ⟨.computed, Chain.last⟩ true (.program .done), [], Chain.bereft true⟩
      ⟨.work (Chain.lastBody true), [.computing Chain.last,
        .reading ⟨.computed, Chain.last⟩ true (.program .done)], e''⟩ ∧
      e''.graph.node? Chain.middle = none := by
  have hbody := body?_of_kind Chain.other_bereft rfl
  have hchanged : ¬((Chain.bereft true).graph.shown Chain.other).Alike
      ((Chain.bereft true).graph.sheet.outcome Chain.other) := by
    rw [show (Chain.bereft true).graph.shown Chain.other = _ from shown_eq Chain.other_bereft,
      Sheet.outcome_computed (value?_of_body? hbody) hbody Chain.ends_other.evaluates]
    rintro ⟨-, -, hagrees⟩
    cases hagrees
  have hgone : ((Chain.late true).graph.remove [.node Chain.middle]).node? Chain.middle = none := by
    cbv
  have hfree : ∀ s ∈ Chain.readers true, ((Chain.bereft true).graph.node? s).isSome →
      ¬(Chain.bereft true).graph.Hindered s := by
    rintro s hs hlive
    obtain rfl | rfl : s = Chain.other ∨ s = Chain.middle := by simpa [Chain.readers] using hs
    · exact Chain.not_hindered_other
    · exact absurd hgone (Option.isSome_iff_ne_none.1 hlive)
  exact (Roamed.reads_bereft (Chain.roamed_late true) (Chain.last_late true) rfl
    (by simp [Chain.readers]) Chain.not_deaf_last hgone (by cbv) hfree).1
    (.inr ⟨rfl, Chain.other, by simp [Chain.readers], by cbv, hchanged⟩)

end Engine

end LiveTemplate.Reactive
