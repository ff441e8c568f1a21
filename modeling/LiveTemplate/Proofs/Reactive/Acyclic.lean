import Mathlib.Logic.Relation
import LiveTemplate.Proofs.Reactive.Attention
import LiveTemplate.Proofs.Reactive.Cycles

/-!
# Recorded sources without cycles

As long as only computeds are read whose evaluation ends, the sources that the computeds have recorded
form no cycle, although they were recorded at different times, and so every read and every flush
returns (`Engine.Visited.acyclic`). A computed that was just brought up to date has recorded what it
reads as things stand, and so has everything that it depends on; all the others have the sources that
they had before. So a new cycle would be a cycle of evaluation.
-/
namespace LiveTemplate.Reactive

variable {σ : Type}

namespace Graph

/-- The computed has recorded the node as a source. A cycle is one of computeds. -/
def Depends (g : Graph (Program σ)) (x y : NodeId) : Prop :=
  ∃ n, g.node? x = some n ∧ y ∈ n.sources ∧ g.sheet.Computes x

def Acyclic (g : Graph (Program σ)) : Prop :=
  ∀ x, ¬Relation.TransGen g.Depends x x

section Acyclic

variable {g h : Graph (Program σ)} {F : Forecast} {P : NodeId → Prop} {x y : NodeId}

theorem Acyclic.mono (hg : g.Acyclic) (fewer : ∀ {x y}, h.Depends x y → g.Depends x y) : h.Acyclic :=
  fun x cycle => hg x (cycle.lift id fun _ _ => fewer)

/-- A settled computed depends on settled computeds of lower rank. -/
theorem Coherent.lower_of_depends (hg : g.Coherent) (hF : g.sheet.Obeys F) (covered : F.covers x)
    (settled : g.Settled x) (depends : g.Depends x y) (computes : g.sheet.Computes y) :
    F.covers y ∧ g.Settled y ∧ F.rank y < F.rank x := by
  obtain ⟨n, hn, hy, body, found⟩ := depends
  obtain ⟨n', running, last, hn', hk⟩ := body?_eq_some.1 found
  obtain rfl := Option.some.inj (hn.symm.trans hn')
  obtain ⟨n', hn', hset⟩ := settled
  obtain rfl := Option.some.inj (hn.symm.trans hn')
  obtain ⟨rfl, hclean⟩ := (Node.isSettled_computed hk).1 hset
  have hcurrent := hg.current hn hk (by simp [hclean])
  have hsources := hg.settled hn hk hclean
  -- what it recorded is what the body reads from scratch
  have hcells : body.cells g.shown = body.cells F.outcome :=
    ((hg.lawful found).follow _ _ fun cell hc hc' =>
      hg.alike_of_settled hF (hF.holds covered found cell hc)
        (fun hk => (hF.lower covered found cell hc hk).1)
        (hsources _ (hcurrent.mem_sources.2 ⟨cell, hc', rfl⟩))).1
  obtain ⟨⟨kind, y⟩, hcell, rfl⟩ := hcurrent.mem_sources.1 hy
  rw [hcells] at hcell
  cases kind with
  | signal =>
    obtain ⟨v, hv⟩ := hF.holds covered found _ hcell
    obtain ⟨body', found'⟩ := computes
    simp [value?_of_body? found'] at hv
  | computed =>
    obtain ⟨covered', hlower⟩ := hF.lower covered found _ hcell rfl
    exact ⟨covered', hsources _ hy, hlower⟩

theorem Coherent.lower_of_path (hg : g.Coherent) (hF : g.sheet.Obeys F) (covered : F.covers x)
    (settled : g.Settled x) (path : Relation.TransGen g.Depends x y) (computes : g.sheet.Computes y) :
    F.covers y ∧ g.Settled y ∧ F.rank y < F.rank x := by
  induction path with
  | single depends => exact hg.lower_of_depends hF covered settled depends computes
  | tail _ depends ih =>
    obtain ⟨n, hn, hmem, computes'⟩ := depends
    obtain ⟨covered', settled', hlower⟩ := ih computes'
    obtain ⟨covered'', settled'', hlower'⟩ :=
      hg.lower_of_depends hF covered' settled' ⟨n, hn, hmem, computes'⟩ computes
    exact ⟨covered'', settled'', Nat.lt_trans hlower' hlower⟩

/-- A node that was not brought up to date depends on what it depended on. -/
theorem Refreshed.depends (hr : g.Refreshed P h) (depends : h.Depends x y) :
    (P x ∧ h.Settled x) ∨ g.Depends x y := by
  obtain ⟨m, hm, hy, body, found⟩ := depends
  obtain ⟨n, hn, hkept | ⟨hP, hup⟩⟩ := hr.origin hm
  · exact .inr ⟨n, hn, hkept.sources ▸ hy, body, hr.sheet ▸ found⟩
  · obtain ⟨m', running, last, hm', hk⟩ := body?_eq_some.1 found
    obtain rfl := Option.some.inj (hm.symm.trans hm')
    have hidle : m.isRunning = false := (Node.isRunning_of_skeleton hup.skeleton).trans hup.idle
    obtain rfl : running = false := by simpa [Node.isRunning, hk] using hidle
    exact .inl ⟨hP, m, hm, (Node.isSettled_computed hk).2 ⟨rfl, hup.clean⟩⟩

theorem Acyclic.refreshed (hg : g.Acyclic) (hh : h.Coherent) (hF : h.sheet.Obeys F)
    (hr : g.Refreshed P h) (covered : ∀ x, P x → h.sheet.Computes x → F.covers x) : h.Acyclic := by
  have step {x y : NodeId} (depends : h.Depends x y) (computes : h.sheet.Computes y) :
      (F.covers y ∧ h.Settled y) ∨ g.Depends x y := by
    refine (hr.depends depends).imp_left fun ⟨hP, settled⟩ => ?_
    obtain ⟨n, hn, hmem, computes'⟩ := depends
    obtain ⟨covered', settled', -⟩ := hh.lower_of_depends hF (covered x hP computes') settled
      ⟨n, hn, hmem, computes'⟩ computes
    exact ⟨covered', settled'⟩
  -- from the first node on that was brought up to date, the path is settled
  have split {x y : NodeId} (path : Relation.TransGen h.Depends x y) (computes : h.sheet.Computes y) :
      (F.covers y ∧ h.Settled y) ∨ Relation.TransGen g.Depends x y := by
    induction path with
    | single depends => exact (step depends computes).imp_right .single
    | tail _ depends ih =>
      have computes' : h.sheet.Computes _ := depends.choose_spec.2.2
      rcases ih computes' with ⟨covered, settled⟩ | path
      · obtain ⟨covered', settled', -⟩ := hh.lower_of_depends hF covered settled depends computes
        exact .inl ⟨covered', settled'⟩
      · exact (step depends computes).imp_right path.tail
  intro x cycle
  obtain ⟨y, ⟨n, hn, hmem, computes⟩, -⟩ := Relation.TransGen.head'_iff.1 cycle
  rcases split cycle computes with ⟨covered, settled⟩ | cycle
  · obtain ⟨-, -, hlower⟩ := hh.lower_of_path hF covered settled cycle computes
    exact Nat.lt_irrefl _ hlower
  · exact hg x cycle

theorem Acyclic.insertNode (hg : g.Acyclic) {kind : NodeKind (Program σ)} {freshness : Freshness}
    {owner : Option ScopeId} : (g.insertNode kind freshness owner).2.Acyclic := by
  refine hg.mono fun {x y} ⟨m, hm, hy, body, found⟩ => ?_
  obtain ⟨m', running, last, hm', hk⟩ := body?_eq_some.1 found
  obtain rfl := Option.some.inj (hm.symm.trans hm')
  rcases insertNode_origin hm with ⟨-, rfl⟩ | hm
  · cases hy
  · exact ⟨m, hm, hy, body, body?_of_kind hm hk⟩

end Acyclic

section Sound

variable {mode : Bool → Prop} {g h : Graph (Program Journal)}

theorem Acyclic.written (hg : g.Acyclic) {id : NodeId} {n : Node (Program Journal)} {old : Value}
    (found : g.node? id = some n) (kind : n.kind = .signal old) (value : Value) :
    (g.written id value n.subscribers).Acyclic := by
  refine hg.mono fun {x y} ⟨m, hm, hy, body, hbody⟩ => ?_
  rw [body?_written found kind] at hbody
  have hx : x ≠ id := by
    rintro rfl
    exact not_computes_of_signal found kind ⟨body, hbody⟩
  obtain ⟨m₀, hm₀, hd⟩ := written_of_ne hx hm
  exact ⟨m₀, hm₀, hd.sources ▸ hy, body, hbody⟩

/-- In a sound graph every computed has an outcome. -/
theorem Acyclic.of_sound {P : NodeId → Prop} (hg : g.Acyclic) (hs : h.Sound mode)
    (hr : g.Refreshed P h) : h.Acyclic := by
  obtain ⟨F, hF⟩ := hs.coherent.exists_foretold hs.ranked
  exact hg.refreshed hs.coherent hF.obeys hr fun _ _ _ => hF.covers _

end Sound

end Graph

namespace Engine

open Reactive.Graph

variable {mode : Bool → Prop} {allowed : Except Fault Unit → Prop} {settings : Settings}
  {e e' : Engine Journal}

theorem upheld_acyclic (mode : Bool → Prop) (allowed : Except Fault Unit → Prop) :
    Upheld mode allowed fun _ g _ => g.Acyclic where
  dequeued _ acyclic := acyclic
  attended hs _ attended acyclic := acyclic.of_sound (attended.onward hs).sound attended.refreshed
  start := by
    intro x cycle
    obtain ⟨y, ⟨n, hn, -⟩, -⟩ := Relation.TransGen.head'_iff.1 cycle
    cases hn
  refreshed hs acyclic hr := acyclic.of_sound hs hr
  written _ found kind acyclic := acyclic.written found kind _
  dropped := by
    intro e _ _ _ hs acyclic
    refine acyclic.mono fun {x y} ⟨m, hm, hy, computes⟩ => ?_
    rw [(dropQueue_onward hs).1.sheet] at computes
    rw [node?_dropQueue] at hm
    split at hm
    · obtain ⟨n, hn, rfl⟩ := Option.map_eq_some_iff.1 hm
      exact ⟨n, hn, hy, computes⟩
    · exact ⟨m, hm, hy, computes⟩
  cell _ _ acyclic := acyclic.insertNode
  effect _ acyclic := acyclic.insertNode
  pruned hp acyclic := by
    refine acyclic.mono fun {x y} ⟨m, hm, hy, computes⟩ => ?_
    obtain ⟨n, hn, -, -, hsources⟩ := hp.origin hm
    exact ⟨n, hn, hsources ▸ hy, hp.cells.sheet ▸ computes⟩

theorem Visited.recorded (visited : Visited mode allowed settings e) : e.graph.Acyclic := by
  induction visited with
  | reached reached => exact reached.upholds (upheld_acyclic mode allowed)
  | newSignal _ _ inserted ih =>
    obtain rfl := congrArg Prod.snd inserted
    exact ih.insertNode
  | newComputed _ _ inserted ih =>
    obtain rfl := congrArg Prod.snd inserted
    exact ih.insertNode
  | @read e _ _ _ _ _ visited ends read ih =>
    obtain ⟨g, _, rfl, hr, hg⟩ := (visited.consistent.read _ _ ends).1 _ read
    have hF : g.sheet.Obeys e.graph.sheet.forecast :=
      hr.sheet.symm ▸ Sheet.obeys_forecast fun _ _ => value?_of_body?
    exact ih.refreshed hg hF hr fun _ covered _ => covered
  | write visited proper effectless written ih =>
    rcases writeSignal_cases written with ⟨-, rfl⟩ | ⟨-, rfl⟩ | ⟨n, old, hn, hk, -, hflush⟩
    · exact ih
    · exact ih
    · have hwritten := visited.resting.written hn hk proper
      obtain rfl := hwritten.flushed (fun rest => (effectless rest).written hn _ _) hflush
      exact ih.written hn hk _
  | openBatch _ ih => exact ih
  | @closeBatch e _ _ _ visited opened effectless flushed ih =>
    obtain rfl := (visited.resting.batch (e.batchDepth - 1)).flushed
      (fun rest => effectless (by simp only at rest; omega)) flushed
    exact ih

/-! ## Reads and writes return -/

section Effects

variable {F : Forecast} {d depth : Nat} {refresh : NodeId → Engine Journal → Option (Engine Journal)}

/-- The forecast covers everything, and no rank is above the depth. -/
structure Shallow (F : Forecast) (d : Nat) (g : Graph (Program Journal)) : Prop where
  foretold : g.Foretold F
  low : ∀ x, (g.node? x).isSome → F.rank x < d

theorem Shallow.refreshed {g h : Graph (Program Journal)} {P : NodeId → Prop}
    (shallow : Shallow F d g) (hr : g.Refreshed P h) : Shallow F d h :=
  ⟨shallow.foretold.congr hr.sheet, fun x hx => shallow.low x ((hr.live x).symm.trans hx)⟩

theorem exec_watched_returns (serves : Serves F d refresh) {p : Program Journal} (reads : p.Reads mode)
    {label : Nat} {seen : List Reading} (hg : e.graph.Coherent) (shallow : Shallow F d e.graph)
    (idle : e.graph.Idle e.graph.sheet.Computes) :
    ((p.watched label seen).exec depth refresh e).isSome := by
  induction reads generalizing e seen with
  | done o => rfl
  | @read cell tracked next allowed _ ih =>
    have read := readCell_any serves hg shallow.foretold.obeys idle
      (fun _ => shallow.foretold.covers cell.node) tracked
    have returns : (e.readCell refresh cell tracked).isSome := read.2 fun holds => by
      obtain ⟨n, hn, -⟩ := node_of_holds holds
      exact shallow.low _ (Option.isSome_of_eq_some hn)
    obtain ⟨⟨o, e₁⟩, hread⟩ := Option.isSome_iff_exists.1 returns
    obtain ⟨g, hr, hg', -, hcase⟩ := read.1 _ hread
    obtain rfl : e₁.graph = g := by
      rcases hcase with ⟨rfl, -⟩ | ⟨rfl, -⟩
      · exact graph_trackIf _ _ _
      · rfl
    simp only [Program.watched, Program.exec, hread, Option.bind_some]
    exact ih _ hg' (shallow.refreshed hr) (hr.sheet ▸ hr.idle idle)

theorem runNode_effect_returns (serves : Serves F d refresh) {p : Program Journal}
    (reads : p.Reads mode) {label : Nat} (hg : e.graph.Coherent) (shallow : Shallow F d e.graph)
    (idle : e.graph.Idle e.graph.sheet.Computes) {id : NodeId} {n : Node (Program Journal)}
    (found : e.graph.node? id = some n) (kind : n.kind = .effect (p.watched label []) false) :
    (runNode depth refresh id e).isSome := by
  have hsame := sameCells_begun found kind
  have hidle : (e.graph.begun id (.effect (p.watched label []) true)).Idle e.graph.sheet.Computes :=
    idle_begun_effect found kind idle
  obtain ⟨_, freshness, sources, subscribers, owner⟩ := n
  subst kind
  simp only [runNode, found, Option.isSome_map]
  refine exec_watched_returns (e := e.beginRun id (.effect (p.watched label []) true)) serves reads
    (hg.begun_effect found rfl) ⟨shallow.foretold.congr hsame.sheet, fun x hx => shallow.low x ?_⟩
    (hsame.sheet ▸ hidle)
  rw [show ((e.beginRun id _).graph.node? x) = _ from node?_begun e.graph id _ x] at hx
  split at hx <;> simpa using hx

/-- Bringing an effect up to date. -/
theorem refresh_effect_returns (serves : Serves F d refresh) {p : Program Journal}
    (reads : p.Reads mode) {label : Nat} (hg : e.graph.Coherent) (shallow : Shallow F d e.graph)
    (idle : e.graph.Idle e.graph.sheet.Computes) {id : NodeId} {n : Node (Program Journal)}
    (found : e.graph.node? id = some n) (kind : n.kind = .effect (p.watched label []) false) :
    (refreshOver depth refresh id e).isSome := by
  have hfresh : e.graph.freshness? id = some n.freshness := by simp [freshness?, found]
  simp only [refreshOver, found]
  cases hcase : n.freshness with
  | clean => simp [hfresh, hcase]
  | dirty =>
    simp only [reduceCtorEq, if_false, Option.bind_some, hfresh, hcase]
    exact runNode_effect_returns serves reads hg shallow idle found kind
  | stale =>
    have hfar : ¬e.graph.sheet.below F d id := by
      rintro ⟨⟨body, hbody⟩, -⟩
      simp [sheet, found, kind, NodeKind.formula?] at hbody
    have hlow (x : NodeId) (hx : x ∈ n.sources) : F.rank x < d :=
      shallow.low x (hg.linked.source_live found hx)
    have hasked := askSources_spec serves hg shallow.foretold.obeys (idle.mono fun x hx => hx.1) hfar
      found hcase (walkable_effect shallow.foretold.covers hlow)
      (show n.sources = [] ++ n.sources from rfl) (by simp)
    obtain ⟨e₁, hask⟩ := Option.isSome_iff_exists.1 (hasked.2 (Nat.le_refl d))
    obtain ⟨g, rfl, hr, hg', m, hm, hkept, -⟩ := hasked.1 _ hask
    have hfresh' : g.freshness? id = some m.freshness := by simp [freshness?, hm]
    simp only [if_true, hask, Option.bind_some, hfresh']
    cases m.freshness with
    | clean => rfl
    | stale => rfl
    | dirty =>
      exact runNode_effect_returns (e := { e with graph := g }) serves reads hg' (shallow.refreshed hr)
        (hr.sheet ▸ hr.idle idle) hm (hkept.kind.trans kind)

theorem drain_returns {runs : Nat} (hs : e.graph.Sound mode) (shallow : Shallow F d e.graph) :
    (drain (refreshWithin (d + 1)) runs e).isSome := by
  refine drain_turns
    (motive := fun _ e r => e.graph.Sound mode → Shallow F d e.graph → r.isSome)
    (fun _ _ _ => rfl) (fun _ _ _ => rfl) (fun {_ e _ id} hsome ih hs shallow => ?_) runs e hs shallow
  obtain ⟨rest, hp, rfl⟩ := dequeue_eq_some hsome
  have hs₀ : (e.queueing rest).graph.Sound mode := hs.dequeued (hp ▸ List.sublist_cons_self _ _)
  have shallow₀ : Shallow F d (e.queueing rest).graph :=
    ⟨shallow.foretold.congr rfl, fun x hx => shallow.low x hx⟩
  have hfirst : (refreshWithin (d + 1) id (e.queueing rest)).isSome := by
    obtain ⟨n, hn, heffect⟩ := hs.queued id (by simp [hp])
    obtain ⟨body, running, hk⟩ := Node.kind_of_isEffect heffect
    obtain rfl : running = false := by simpa [Node.isRunning, hk] using hs.idle trivial hn
    obtain ⟨label, p, reads, rfl⟩ := hs.watching hn hk
    exact refresh_effect_returns (serves_refreshWithin F d) reads hs₀.coherent shallow₀
      (Idle.mono hs₀.idle fun _ _ => trivial) hn hk
  obtain ⟨e₁, hrefresh⟩ := Option.isSome_iff_exists.1 hfirst
  obtain ⟨-, label, -, hattended⟩ := turn_spec (attends_refreshWithin mode (d + 1)) hs hp hrefresh
  change ((refreshWithin (d + 1) id (e.queueing rest)).bind _).isSome
  rw [hrefresh, Option.bind_some]
  exact ih e₁ (hattended.onward hs₀).sound (shallow₀.refreshed hattended.refreshed)

theorem exists_shallow {g : Graph (Program Journal)} (hs : g.Sound mode) :
    ∃ F enough, ∀ d, enough ≤ d → Shallow F d g := by
  obtain ⟨F, hF⟩ := hs.coherent.exists_foretold hs.ranked
  obtain ⟨keys, hkeys⟩ := g.nodes.exists_keys
  obtain ⟨bound, hbound⟩ := exists_bound F.rank keys
  exact ⟨F, bound, fun d hd => ⟨hF, fun x hx => Nat.lt_of_lt_of_le (hbound x (hkeys x hx)) hd⟩⟩

theorem flush_returns (hs : e.graph.Sound mode) :
    ∃ enough, ∀ depth, enough ≤ depth → (flush (refreshWithin depth) e).isSome := by
  obtain ⟨F, enough, shallow⟩ := exists_shallow hs
  refine ⟨enough + 1, fun depth hdepth => ?_⟩
  obtain ⟨d, rfl⟩ : ∃ d, depth = d + 1 := ⟨depth - 1, by omega⟩
  unfold flush
  split
  · rfl
  · rw [Option.isSome_map]
    exact drain_returns (e := { e with flushing := true }) hs (shallow d (by omega))

end Effects

/-- Either every computed has an outcome, or a flush that is not held back finds no effect. -/
def Flushes (mode : Bool → Prop) (e : Engine Journal) : Prop :=
  e.graph.Sound mode ∨ (e.batchDepth = 0 → e.graph.Effectless)

theorem Resting.flush_returns (h : e.Resting) (flushes : e.Flushes mode) :
    ∃ enough, ∀ depth, enough ≤ depth → (flush (refreshWithin depth) e).isSome := by
  rcases flushes with sound | effectless
  · exact Engine.flush_returns sound
  · rcases Nat.eq_zero_or_pos e.batchDepth with rest | held
    · exact ⟨0, fun depth _ => by
        rw [flush_rest rest h.still (h.drained (effectless rest))]
        rfl⟩
    · exact ⟨0, fun depth _ => by
        rw [flush_held held]
        rfl⟩

theorem Resting.write_returns (h : e.Resting) (flushes : e.Flushes mode) (id : NodeId) {value : Value}
    (proper : value.Proper) :
    ∃ enough, ∀ depth, enough ≤ depth → (writeSignal (refreshWithin depth) id value e).isSome := by
  by_cases signal : ∃ n old, e.graph.node? id = some n ∧ n.kind = .signal old
  · obtain ⟨n, old, hn, hk⟩ := signal
    have written : ({ e with graph := e.graph.written id value n.subscribers } : Engine Journal).Flushes
        mode :=
      flushes.imp (fun sound => sound.written hn hk proper)
        fun effectless rest => (effectless rest).written hn _ _
    obtain ⟨enough, returns⟩ := (h.written hn hk proper).flush_returns written
    obtain ⟨_, _, _, subscribers, _⟩ := n
    subst hk
    refine ⟨enough, fun depth hdepth => ?_⟩
    simp only [writeSignal, hn]
    split
    · rfl
    · exact returns depth hdepth
  · refine ⟨0, fun depth _ => ?_⟩
    unfold writeSignal
    split
    · next hn => exact absurd ⟨_, _, hn, rfl⟩ signal
    · rfl

/-- As long as only computeds are read whose evaluation ends, the recorded sources form no cycle, and
with enough depth the reads, the writes and the ends of batches return. -/
theorem Visited.acyclic (visited : Visited mode allowed settings e) :
    e.graph.Acyclic ∧
      (∀ (cell : Cell) (tracked : Bool),
        (cell.kind = .computed → e.graph.sheet.forecast.covers cell.node) →
          ∃ enough, ∀ depth, enough ≤ depth →
            (e.readCell (refreshWithin depth) cell tracked).isSome) ∧
      (Reached mode allowed settings e ∨ (e.batchDepth ≤ 1 → e.graph.Effectless) →
        (∀ (id : NodeId) (value : Value), value.Proper → ∃ enough, ∀ depth, enough ≤ depth →
          (writeSignal (refreshWithin depth) id value e).isSome) ∧
        ∃ enough, ∀ depth, enough ≤ depth →
          (flush (refreshWithin depth) { e with batchDepth := e.batchDepth - 1 }).isSome) := by
  have h := visited.resting
  refine ⟨visited.recorded, fun cell tracked ends =>
    ⟨e.graph.sheet.forecast.rank cell.node + 1, fun depth enough =>
      (visited.consistent.read depth tracked ends).2 fun _ => enough⟩, fun clients => ?_⟩
  have sound : e.graph.Sound mode ∨ (e.batchDepth ≤ 1 → e.graph.Effectless) :=
    clients.imp_left fun reached => reached.poised.sound
  exact ⟨fun id value proper =>
      h.write_returns (sound.imp_right fun effectless rest => effectless (by omega)) id proper,
    (h.batch _).flush_returns (sound.imp_right fun effectless rest =>
      effectless (by simp only at rest; omega))⟩

/-- The pair of computeds of which each calls the other one if a flag is set. The outer one has
recorded the inner one while it was not, and that is no cycle either when it has been set. -/
theorem acyclic_turned : Visited (· = true) Calm .default Pair.turned ∧
    Pair.turned.graph.Effectless ∧ Pair.turned.graph.Acyclic ∧
    Pair.turned.graph.Depends Pair.outer Pair.inner ∧
    ∃ enough, ∀ depth, enough ≤ depth →
      (writeSignal (refreshWithin depth) Pair.flag (.bool false) Pair.turned).isSome := by
  have visited := Pair.visited_turned (· = true) Calm
  have effectless : Pair.turned.graph.Effectless :=
    (Pair.visited_begun (· = true) Calm).2.1.written Pair.flag_begun _ _
  obtain ⟨acyclic, -, returns⟩ := visited.acyclic
  refine ⟨visited, effectless, acyclic, ?_,
    (returns (.inr fun _ => effectless)).1 Pair.flag (.bool false) (.bool false)⟩
  have recorded : (Pair.turned.graph.node? Pair.outer).map (·.sources) = some [Pair.inner] := by cbv
  obtain ⟨n, hn, hsources⟩ := Option.map_eq_some_iff.1 recorded
  exact ⟨n, hn, by simp [hsources], Pair.outerBody, Pair.body_turned ▸ rfl⟩

end Engine

end LiveTemplate.Reactive
