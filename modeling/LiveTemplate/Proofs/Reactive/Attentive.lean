import LiveTemplate.Proofs.Reactive.Deafness

/-!
# Effects that read as computeds do

An effect whose body is lawful can be kept account of as a computed: unless it is dirty, it has recorded
what its body reads as things stand, in the order of these reads (`Graph.Attentive`). So if it is stale,
its sources can be asked one after the other, and each one that is asked is a cell that the body reads
from scratch.

Bringing such an effect up to date runs only computeds that the evaluation of its body from scratch
consults (`Sheet.Consults`), and so does a flush (`Engine.drain_attentive`).
-/
namespace LiveTemplate.Reactive

variable {σ : Type}

namespace Sheet

variable {s t : Sheet σ} {p : Program σ}

/-- Whatever the signals hold, the evaluation of the program ends, and reads live cells only. -/
def Grounded (s : Sheet σ) (p : Program σ) : Prop :=
  ∀ t, s.Revalued t → ∃ k o, t.Ends k p o

theorem Grounded.revalued (h : s.Grounded p) (hr : s.Revalued t) : t.Grounded p :=
  fun u hu => h u (hr.trans hu)

theorem Ends.grow {k : Nat} {o : Outcome} (h : s.Ends k p o)
    (value : ∀ {id v}, s.value? id = some v → t.value? id = some v)
    (body : ∀ {id b}, s.body? id = some b → t.body? id = some b) : t.Ends k p o := by
  induction h with
  | done o => exact .done o
  | signal found _ ih => exact .signal (value found) ih
  | computed found _ _ ihInner ih => exact .computed (body found) ihInner ih

/-- A program does not mind cells that it does not know of. -/
theorem Grounded.grow (h : s.Grounded p)
    (value : ∀ id, (s.value? id).isSome = true → (t.value? id).isSome = true)
    (body : ∀ {id b}, s.body? id = some b → t.body? id = some b) : t.Grounded p := by
  intro u hu
  -- the values of the signals that there were before
  let cut : Sheet σ := ⟨fun id => if (s.value? id).isSome then u.value? id else none, s.body?⟩
  have hcut : s.Revalued cut := by
    refine ⟨rfl, fun id => ?_, fun id v hv => ?_⟩
    · cases hs : (s.value? id).isSome with
      | true => simp [cut, hs, hu.2.1 id, value id hs]
      | false => simp [cut, hs]
    · simp only [cut] at hv
      split at hv
      · exact hu.2.2 id v hv
      · cases hv
  obtain ⟨k, o, ends⟩ := h cut hcut
  refine ⟨k, o, ends.grow (fun {id v} hv => ?_) fun {id b} hb => ?_⟩
  · simp only [cut] at hv
    split at hv
    · exact hv
    · cases hv
  · rw [hu.1]
    exact body hb

/-- The evaluation of the program from scratch reads the computed, itself or through others. -/
def Consults (s : Sheet σ) (p : Program σ) (x : NodeId) : Prop :=
  ∃ y, s.Asks p y ∧ Relation.ReflTransGen s.Calls y x

theorem Consults.calls {x y : NodeId} (h : s.Consults p x) (calls : s.Calls x y) : s.Consults p y := by
  obtain ⟨z, asks, path⟩ := h
  exact ⟨z, asks, path.tail calls⟩

end Sheet

namespace Graph

/-- The node recorded what the program reads as things stand. -/
structure Noted (g : Graph (Program σ)) (p : Program σ) (n : Node (Program σ)) : Prop where
  sources : n.sources = record [] (p.cells g.shown)
  holds : ∀ cell ∈ p.cells g.shown, g.sheet.Holds cell

theorem Noted.mono {g h : Graph (Program σ)} {p : Program σ} {n m : Node (Program σ)}
    (hn : g.Noted p n) (lawful : p.Lawful) (sources : m.sources = n.sources)
    (holds : ∀ cell, cell.node ∈ n.sources → g.sheet.Holds cell → h.sheet.Holds cell)
    (alike : ∀ s ∈ n.sources, (g.shown s).Alike (h.shown s)) : h.Noted p m := by
  have hmem {cell : Cell} (hc : cell ∈ p.cells g.shown) : cell.node ∈ n.sources := by
    rw [hn.sources, mem_record]
    exact .inr ⟨cell, hc, rfl⟩
  obtain ⟨hcells, -⟩ := lawful.follow h.shown g.shown fun cell hc _ => (alike _ (hmem hc)).symm
  exact
    { sources := by rw [sources, hn.sources, hcells]
      holds := by
        rw [hcells]
        exact fun cell hc => holds cell (hmem hc) (hn.holds cell hc) }

/-- A graph between the operations of a client whose effects are lawful. -/
structure Attentive (g : Graph (Program σ)) : Prop where
  coherent : g.Coherent
  ranked : g.sheet.Ranked
  idle : g.Idle fun _ => True
  queued : ∀ x ∈ g.pending, ∃ n, g.node? x = some n ∧ n.isEffect = true
  effects : ∀ {x : NodeId} {n : Node (Program σ)} {p : Program σ} {running : Bool},
    g.node? x = some n → n.kind = .effect p running → p.Lawful ∧ g.sheet.Grounded p
  noted : ∀ {x : NodeId} {n : Node (Program σ)} {p : Program σ} {running : Bool},
    g.node? x = some n → n.kind = .effect p running → n.freshness ≠ .dirty → g.Noted p n
  settled : ∀ {x : NodeId} {n : Node (Program σ)} {p : Program σ} {running : Bool},
    g.node? x = some n → n.kind = .effect p running → n.freshness = .clean →
      ∀ s ∈ n.sources, g.Settled s

variable {g h : Graph (Program σ)} {P : NodeId → Prop} {id : NodeId} {n : Node (Program σ)}

theorem attentive_empty : (empty : Graph (Program σ)).Attentive :=
  ⟨coherent_empty, ranked_empty, nofun, nofun, nofun, nofun, nofun⟩

theorem kind_of_skeleton {n m : Node (Program σ)} (same : m.kind.skeleton = n.kind.skeleton)
    {p : Program σ} {running : Bool} (kind : m.kind = .effect p running) :
    n.kind = .effect p running := by
  rw [kind] at same
  cases hk : n.kind <;> simp_all [NodeKind.skeleton]

theorem not_computes_of_effect {p : Program σ} {running : Bool} (found : g.node? id = some n)
    (kind : n.kind = .effect p running) : ¬g.sheet.Computes id := by
  rintro ⟨body, hbody⟩
  simp [sheet, found, kind, NodeKind.formula?] at hbody

/-- When nodes are brought up to date, the other effects keep what they have noted. -/
theorem Attentive.refreshed (hs : g.Attentive) (hr : g.Refreshed P h) (coherent : h.Coherent)
    (updated : ∀ {x : NodeId} {m : Node (Program σ)} {p : Program σ} {running : Bool}, P x →
      h.node? x = some m → m.kind = .effect p running →
        h.Noted p m ∧ ∀ s ∈ m.sources, h.Settled s) : h.Attentive := by
  have origin {x : NodeId} {m : Node (Program σ)} {p : Program σ} {running : Bool}
      (hm : h.node? x = some m) (hk : m.kind = .effect p running) :
      ∃ n, g.node? x = some n ∧ n.kind = .effect p running ∧ (n.Kept m ∨ P x) := by
    obtain ⟨n, hn, hcase⟩ := hr.origin hm
    refine ⟨n, hn, kind_of_skeleton ?_ hk, hcase.imp_right (·.1)⟩
    exact hcase.elim (·.skeleton) (·.2.skeleton)
  refine
    { coherent := coherent
      ranked := hr.sheet ▸ hs.ranked
      idle := hr.idle hs.idle
      queued := fun x hx => ?_
      effects := fun hm hk => ?_
      noted := fun {x m p running} hm hk hf => ?_
      settled := fun {x m p running} hm hk hf s hmem => ?_ }
  · obtain ⟨n, hn, heffect⟩ := hs.queued x (hr.pending ▸ hx)
    obtain ⟨m, hm, -⟩ := hr.find hn
    exact ⟨m, hm, (hr.isEffect hn hm).trans heffect⟩
  · obtain ⟨n, hn, hk', -⟩ := origin hm hk
    exact hr.sheet ▸ hs.effects hn hk'
  · obtain ⟨n, hn, hk', hkept | hp⟩ := origin hm hk
    case inr => exact (updated hp hm hk).1
    have hsame : m.freshness = n.freshness := hkept.freshness.resolve_right fun h => hf h.2
    refine (hs.noted hn hk' (hsame ▸ hf)).mono (hs.effects hn hk').1 hkept.sources
      (fun cell _ holds => hr.sheet ▸ holds) fun s hmem => ?_
    cases hcase : n.freshness with
    | clean =>
      rw [(hr.of_settled (hs.settled hn hk' hcase s hmem)).2]
      exact .refl (hs.coherent.shown_proper s)
    | stale => exact hr.steady hn hm hcase (hsame.trans hcase) s hmem
    | dirty => exact absurd (hsame.trans hcase) hf
  · obtain ⟨n, hn, hk', hkept | hp⟩ := origin hm hk
    case inr => exact (updated hp hm hk).2 s hmem
    exact hr.settled (hs.settled hn hk' (hkept.clean_iff.1 hf) s (hkept.sources ▸ hmem))

/-- Computeds are brought up to date. -/
theorem Attentive.refreshed_cells (hs : g.Attentive) (hr : g.Refreshed P h) (coherent : h.Coherent)
    (cells : ∀ x, P x → g.sheet.Computes x) : h.Attentive :=
  hs.refreshed hr coherent fun hp hm hk =>
    absurd (hr.sheet ▸ cells _ hp) (not_computes_of_effect hm hk)

theorem Attentive.congr (hs : g.Attentive) (same : ∀ x, h.node? x = g.node? x)
    (pending : h.pending ⊆ g.pending) : h.Attentive := by
  have hsheet : h.sheet = g.sheet := sheet_congr (fun x => by rw [same]) fun x => by rw [same]
  have hshown : h.shown = g.shown := funext fun x => by simp only [shown, same]
  refine
    { coherent := hs.coherent.congr same
      ranked := hsheet ▸ hs.ranked
      idle := fun _ hm => hs.idle trivial ((same _).symm.trans hm)
      queued := fun x hx => by rw [same]; exact hs.queued x (pending hx)
      effects := fun hm hk => hsheet ▸ hs.effects ((same _).symm.trans hm) hk
      noted := fun hm hk hf => ?_
      settled := fun hm hk hf s hmem => ?_ }
  · have hnoted := hs.noted ((same _).symm.trans hm) hk hf
    exact ⟨hshown ▸ hnoted.sources, by rw [hshown, hsheet]; exact hnoted.holds⟩
  · obtain ⟨t, ht, hset⟩ := hs.settled ((same _).symm.trans hm) hk hf s hmem
    exact ⟨t, (same s).trans ht, hset⟩

theorem Attentive.insertNode (hs : g.Attentive) {kind : NodeKind (Program σ)} {freshness : Freshness}
    {owner : Option ScopeId} (coherent : (g.insertNode kind freshness owner).2.Coherent)
    (ranked : (g.insertNode kind freshness owner).2.sheet.Ranked)
    (resting : ∀ n : Node (Program σ), n.kind = kind → n.isRunning = false)
    (effect : ∀ p running, kind = .effect p running →
      p.Lawful ∧ g.sheet.Grounded p ∧ freshness = .dirty) :
    (g.insertNode kind freshness owner).2.Attentive := by
  have hgrow {p : Program σ} (hp : g.sheet.Grounded p) :
      (g.insertNode kind freshness owner).2.sheet.Grounded p := by
    have hlive {x : NodeId} {m : Node (Program σ)} (hm : g.node? x = some m) :
        (g.insertNode kind freshness owner).2.node? x = some m :=
      (insertNode_live hm).2
    refine hp.grow (fun x hx => ?_) fun hb => ?_
    · obtain ⟨v, hv⟩ := Option.isSome_iff_exists.1 hx
      obtain ⟨m, hm, hk⟩ := value?_eq_some.1 hv
      exact Option.isSome_iff_exists.2 ⟨v, value?_eq_some.2 ⟨m, hlive hm, hk⟩⟩
    · obtain ⟨m, _, _, hm, hk⟩ := body?_eq_some.1 hb
      exact body?_of_kind (hlive hm) hk
  refine
    { coherent := coherent
      ranked := ranked
      idle := fun {x m} _ hm => ?_
      queued := fun x hx => ?_
      effects := fun hm hk => ?_
      noted := fun hm hk hf => ?_
      settled := fun hm hk hf s hmem => ?_ }
  · rcases insertNode_origin hm with ⟨-, rfl⟩ | hm
    · exact resting _ rfl
    · exact hs.idle trivial hm
  · obtain ⟨m, hm, heffect⟩ := hs.queued x hx
    exact ⟨m, (insertNode_live hm).2, heffect⟩
  · rcases insertNode_origin hm with ⟨-, rfl⟩ | hm
    · exact ⟨(effect _ _ hk).1, hgrow (effect _ _ hk).2.1⟩
    · exact ⟨(hs.effects hm hk).1, hgrow (hs.effects hm hk).2⟩
  · rcases insertNode_origin hm with ⟨-, rfl⟩ | hm
    · exact absurd (effect _ _ hk).2.2 hf
    · refine (hs.noted hm hk hf).mono (hs.effects hm hk).1 rfl (fun cell _ hc => holds_insertNode hc)
        fun s hmem => ?_
      obtain ⟨t, ht, -⟩ := hs.coherent.cells hm hmem
      rw [shown_insertNode ht]
      exact .refl (hs.coherent.shown_proper s)
  · rcases insertNode_origin hm with ⟨-, rfl⟩ | hm
    · cases hmem
    · obtain ⟨t, ht, hset⟩ := hs.settled hm hk hf s hmem
      exact ⟨t, (insertNode_live ht).2, hset⟩

theorem Attentive.insertComputed (hs : g.Attentive) {body : Program σ} {owner : Option ScopeId}
    (lawful : body.Lawful)
    (ranked : (g.insertNode (.computed body false none) .dirty owner).2.sheet.Ranked) :
    (g.insertNode (.computed body false none) .dirty owner).2.Attentive := by
  refine hs.insertNode (hs.coherent.insertNode .undefined ?_ nofun) ranked
    (fun n hn => by simp [Node.isRunning, hn]) nofun
  rintro _ _ _ ⟨⟩
  exact ⟨lawful, rfl, rfl⟩

theorem Attentive.insertEffect (hs : g.Attentive) {p : Program σ} {owner : Option ScopeId}
    (lawful : p.Lawful) (grounded : g.sheet.Grounded p) :
    (g.insertNode (.effect p false) .dirty owner).2.Attentive := by
  refine hs.insertNode (hs.coherent.insertNode trivial nofun ?_) ?_
    (fun n hn => by simp [Node.isRunning, hn]) ?_
  · rintro _ _ ⟨⟩
    rfl
  · rw [sheet_insertEffect]
    exact hs.ranked
  · rintro _ _ ⟨⟩
    exact ⟨lawful, grounded, rfl⟩

theorem Attentive.written (hs : g.Attentive) (found : g.node? id = some n) {old value : Value}
    (kind : n.kind = .signal old) (proper : value.Proper) :
    (g.written id value n.subscribers).Attentive := by
  have origin {x : NodeId} {m : Node (Program σ)} {p : Program σ} {running : Bool}
      (hm : (g.written id value n.subscribers).node? x = some m) (hk : m.kind = .effect p running) :
      ∃ m₀, g.node? x = some m₀ ∧ m₀.kind = .effect p running ∧ m₀.Delayed m := by
    obtain ⟨m₀, hm₀, hd⟩ := written_of_unset found hm fun v => by simp [hk]
    exact ⟨m₀, hm₀, hd.kind ▸ hk, hd⟩
  have hrevalued := revalued_written hs.coherent found kind proper
  refine
    { coherent := hs.coherent.written found kind proper hs.idle
      ranked := hs.ranked.revalued hrevalued
      idle := idle_written found value _ hs.idle
      queued := queued_written found kind _ hs.queued
      effects := fun hm hk => ?_
      noted := fun {x m p running} hm hk hf => ?_
      settled := fun hm hk hf => ?_ }
  · obtain ⟨m₀, hm₀, hk₀, -⟩ := origin hm hk
    exact (hs.effects hm₀ hk₀).imp_right fun grounded => grounded.revalued hrevalued
  · obtain ⟨m₀, hm₀, hk₀, hd⟩ := origin hm hk
    refine (hs.noted hm₀ hk₀ fun h => hf (hd.dirty h)).mono (hs.effects hm₀ hk₀).1 hd.sources
      (fun cell _ => (holds_written found kind _).2) fun s hmem => ?_
    have hsid : s ≠ id := by
      rintro rfl
      exact hf (markAll_dirty ((hs.coherent.linked.edge hm₀ found).1 hmem) hm)
    rw [shown_written hsid]
    exact .refl (hs.coherent.shown_proper s)
  · obtain ⟨m₀, hm₀, hk₀, hd⟩ := origin hm hk
    exact (hs.coherent.on fun _ => True).settled_of_clean found kind hm₀ (hs.settled hm₀ hk₀) hm hd hf

end Graph

/-! ## Bringing an effect up to date -/

namespace Engine

open Reactive.Graph

variable {F : Forecast} {depth d bound : Nat} {refresh : NodeId → Engine σ → Option (Engine σ)}
  {e : Engine σ} {id : NodeId} {n : Node (Program σ)} {p : Program σ}

/-- Only these cells and the effect itself were brought up to date. -/
structure Heeded (P : NodeId → Prop) (id : NodeId) (g h : Graph (Program σ)) : Prop where
  refreshed : g.Refreshed (fun x => P x ∨ x = id) h
  attentive : h.Attentive
  clean : h.freshness? id = some .clean

/-- The sources of a stale node are asked before it is decided whether it runs. -/
def askStale (refresh : NodeId → Engine σ → Option (Engine σ)) (id : NodeId) (e : Engine σ) :
    Option (Engine σ) :=
  match e.graph.node? id with
  | some n => if n.freshness = .stale then askSources refresh id n.sources e else some e
  | none => some e

theorem refreshOver_eq (depth : Nat) (refresh : NodeId → Engine σ → Option (Engine σ)) (id : NodeId)
    (e : Engine σ) : refreshOver depth refresh id e = (askStale refresh id e).bind fun e =>
      match e.graph.freshness? id with
      | some .dirty => runNode depth refresh id e
      | some .stale => some { e with graph := e.graph.setFreshness id .clean }
      | _ => some e := rfl

theorem heed_run (serves : Serves F d refresh) (hs : e.graph.Attentive)
    (hF : e.graph.sheet.Obeys F) (found : e.graph.node? id = some n) (kind : n.kind = .effect p false)
    (late : n.freshness ≠ .clean)
    (ready : ∀ cell ∈ p.cells F.outcome, Ready F bound e.graph.sheet cell) :
    Yields (bound ≤ d) (runNode depth refresh id e) fun e' => ∃ g, e' = { e with graph := g } ∧
      Heeded (e.graph.sheet.below F bound) id e.graph g := by
  have hsheet := (sameCells_begun found kind).sheet
  have hidle : (e.graph.begun id (.effect p true)).Idle (e.graph.sheet.below F bound) :=
    Idle.mono (idle_begun_effect found kind (Idle.mono hs.idle fun _ _ => trivial)) fun x hx => hx.1
  have hrun := ServesOn.exec depth serves.on (fun _ _ => trivial) (hs.effects found kind).1
    (e := { e with
      graph := e.graph.begun id (.effect p true)
      tracking := some [] :: e.tracking })
    ((hs.coherent.begun_effect found kind).on _) (hsheet ▸ hF) (hsheet ▸ ready) (hsheet ▸ hidle) rfl
  have hnot := not_computes_of_effect found kind
  obtain ⟨_, freshness, sources, subscribers, owner⟩ := n
  subst kind
  simp only [runNode, found]
  refine hrun.map ?_
  rintro ⟨o, e'⟩ ⟨g, rfl, hr, hg, rfl, hcells⟩
  have hcell (s : NodeId) (hmem : s ∈ record [] (p.cells g.shown)) :
      ∃ t, g.node? s = some t ∧ t.isEffect = false := by
    obtain ⟨cell, hc, rfl⟩ := by simpa [mem_record] using hmem
    exact node_of_holds (hcells cell hc).1
  have hlive (s : NodeId) (hmem : s ∈ record [] (p.cells g.shown)) : (g.node? s).isSome := by
    obtain ⟨t, ht, -⟩ := hcell s hmem
    simp [ht]
  obtain ⟨hwhole, n₂, m, hn₂, hk₂, hm, hk, hclean, hsources⟩ :=
    Coherent.refreshed_effect found rfl late hr hlive
  have hsame := sameCells_effectFinished hn₂ hk₂ hlive
  have hcoherent := hg.coherent.effectFinished hn₂ hk₂ hcell
  have hwhole : e.graph.Refreshed (fun x => e.graph.sheet.below F bound x ∨ x = id)
      (g.effectFinished id (record [] (p.cells g.shown))) := hsheet ▸ hwhole
  refine ⟨g.effectFinished id (record [] (p.cells g.shown)), ?_, hwhole,
    hs.refreshed hwhole hcoherent fun {x m' p' running} hx hm' hk' => ?_,
    by rw [freshness?, hm, Option.map_some, hclean]⟩
  · rw [restEffect_closeRun]
    rfl
  · rcases hx with hx | rfl
    · exact absurd (hwhole.sheet ▸ hx.1) (not_computes_of_effect hm' hk')
    obtain rfl := Option.some.inj (hm.symm.trans hm')
    obtain ⟨rfl, -⟩ := NodeKind.effect.inj (hk.symm.trans hk')
    refine ⟨⟨by rw [hsources, hsame.shown], fun cell hc => ?_⟩, fun s hmem => ?_⟩
    · rw [hsame.sheet]
      exact (hcells cell (hsame.shown ▸ hc)).1
    · obtain ⟨cell, hc, rfl⟩ := by simpa [hsources, mem_record] using hmem
      exact hsame.settled (hcells cell hc).2

/-- The sources of a stale effect are asked. Each one that is asked is a cell that its body reads from
scratch, as the ones before it show what is forecast. -/
theorem heed_ask (serves : Serves F d refresh) (hs : e.graph.Attentive)
    (hF : e.graph.sheet.Obeys F) (found : e.graph.node? id = some n) (kind : n.kind = .effect p false)
    (stale : n.freshness = .stale)
    (ready : ∀ cell ∈ p.cells F.outcome, Ready F bound e.graph.sheet cell)
    {before rest : List NodeId} (sources : n.sources = before ++ rest)
    (asked : ∀ s ∈ before, e.graph.Settled s ∧ (e.graph.shown s).Alike (F.outcome s)) :
    Yields (bound ≤ d) (askSources refresh id rest e) fun e' => ∃ g,
      e' = { e with graph := g } ∧ e.graph.Refreshed (e.graph.sheet.below F bound) g ∧
        g.Coherent ∧ ∃ m, g.node? id = some m ∧ n.Kept m ∧
          (m.freshness = .dirty ∨ ∀ s ∈ m.sources, g.Settled s) := by
  induction rest generalizing e before n with
  | nil =>
    refine .some ⟨e.graph, rfl, .refl hs.coherent.shown_proper, hs.coherent, n, found, .refl n,
      .inr fun s hmem => ?_⟩
    exact (asked s (by simpa [sources] using hmem)).1
  | cons x rest ih =>
    have hnoted := hs.noted found kind (by simp [stale])
    obtain ⟨cell, hc, rfl⟩ := (hs.effects found kind).1.next_read _ F.outcome
      (hnoted.sources.symm.trans sources) List.nil_prefix fun s hmem => (asked s hmem).2
    refine askSources_cons serves hs.coherent hF (Idle.mono hs.idle fun _ _ => trivial)
      (fun h => not_computes_of_effect found kind h.1) found stale (ready cell hc)
      (fun _ _ hd => .inl hd) fun {g m} hr hg hset hm hkept hstale => ?_
    have hsheet := hr.sheet
    have hasked (s : NodeId) (hmem : s ∈ before ++ [cell.node]) :
        g.Settled s ∧ (g.shown s).Alike (F.outcome s) := by
      rcases List.mem_append.1 hmem with hmem | hmem
      · obtain ⟨hset', hshown⟩ := hr.of_settled (asked s hmem).1
        exact ⟨hset', hshown ▸ (asked s hmem).2⟩
      · obtain rfl := List.mem_singleton.1 hmem
        exact ⟨hset, Ready.alike (hsheet ▸ ready cell hc) hg (hsheet ▸ hF) hset⟩
    exact ih (e := { e with graph := g }) (hs.refreshed_cells hr hg fun x hx => hx.1) (hsheet ▸ hF) hm
      (hkept.kind.trans kind) hstale (hsheet ▸ ready)
      (show m.sources = (before ++ [cell.node]) ++ rest by simp [hkept.sources, sources]) hasked

/-- The effect did not have to run. -/
theorem Heeded.rested {g : Graph (Program σ)} {P : NodeId → Prop} (hs : g.Attentive)
    (found : g.node? id = some n) (kind : n.kind = .effect p false) (stale : n.freshness = .stale)
    (settled : ∀ s ∈ n.sources, g.Settled s) : Heeded P id g (g.setFreshness id .clean) := by
  have hr := ((hs.coherent.on fun _ => True).refreshed_rested found stale).mono (Q := fun x => P x ∨ x = id)
    fun x hx => .inr hx
  have hcoherent := ((hs.coherent.on fun _ => True).rested found stale fun _ => settled).coherent
  have hself : (g.setFreshness id .clean).node? id = some (n.withFreshness .clean) := by
    rw [node?_setFreshness, if_pos rfl, found, Option.map_some]
  refine ⟨hr, hs.refreshed (P := (· = id)) ((hs.coherent.on fun _ => True).refreshed_rested found stale)
    hcoherent fun {x m p' running} hx hm hk => ?_, by rw [freshness?, hself]; rfl⟩
  subst hx
  obtain rfl := Option.some.inj (hself.symm.trans hm)
  have hnoted := hs.noted found kind (by simp [stale])
  obtain ⟨rfl, -⟩ := NodeKind.effect.inj (kind.symm.trans hk)
  refine ⟨hnoted.mono (hs.effects found kind).1 rfl (fun cell _ holds => hr.sheet ▸ holds)
    fun s _ => ?_, fun s hmem => hr.settled (settled s hmem)⟩
  rw [shown_setFreshness]
  exact .refl (hs.coherent.shown_proper s)

/-- After its sources were asked, an effect has to run, or is clean, or all it has recorded is settled. -/
theorem heed_askStale (serves : Serves F d refresh) (hs : e.graph.Attentive)
    (hF : e.graph.sheet.Obeys F) (found : e.graph.node? id = some n) (kind : n.kind = .effect p false)
    (ready : ∀ cell ∈ p.cells F.outcome, Ready F bound e.graph.sheet cell) :
    Yields (bound ≤ d) (askStale refresh id e) fun e' => ∃ g, e' = { e with graph := g } ∧
      e.graph.Refreshed (e.graph.sheet.below F bound) g ∧ g.Attentive ∧
        ∃ m, g.node? id = some m ∧ n.Kept m ∧ (m.freshness = .stale → ∀ s ∈ m.sources, g.Settled s) := by
  simp only [askStale, found]
  by_cases hstale : n.freshness = .stale
  · rw [if_pos hstale]
    refine (heed_ask serves hs hF found kind hstale ready (show n.sources = [] ++ n.sources from rfl)
      (by simp)).mono (fun h => h) ?_
    rintro _ ⟨g, rfl, hr, hg, m, hm, hkept, hend⟩
    exact ⟨g, rfl, hr, hs.refreshed_cells hr hg fun x hx => hx.1, m, hm, hkept,
      fun h => hend.resolve_left (by simp [h])⟩
  · rw [if_neg hstale]
    exact .some ⟨e.graph, rfl, .refl hs.coherent.shown_proper, hs, n, found, .refl n,
      fun h => absurd h hstale⟩

/-- One level of bringing an effect up to date. -/
theorem heed_refreshOver (serves : Serves F d refresh) (hs : e.graph.Attentive)
    (hF : e.graph.sheet.Obeys F) (found : e.graph.node? id = some n) (kind : n.kind = .effect p false)
    (ready : ∀ cell ∈ p.cells F.outcome, Ready F bound e.graph.sheet cell) :
    Yields (bound ≤ d) (refreshOver depth refresh id e) fun e' => ∃ g, e' = { e with graph := g } ∧
      Heeded (e.graph.sheet.below F bound) id e.graph g := by
  rw [refreshOver_eq]
  refine (heed_askStale serves hs hF found kind ready).bind ?_
  rintro _ ⟨g, rfl, hr, hs', m, hm, hkept, hend⟩
  have hsheet := hr.sheet
  have hr' := hr.mono (Q := fun x => e.graph.sheet.below F bound x ∨ x = id) fun x hx => .inl hx
  have hfresh : g.freshness? id = some m.freshness := by simp [freshness?, hm]
  simp only [hfresh]
  cases hcase : m.freshness with
  | clean => exact .some ⟨g, rfl, hr', hs', hfresh.trans (by rw [hcase])⟩
  | dirty =>
    refine (heed_run (e := { e with graph := g }) serves hs' (hsheet ▸ hF) hm
      (hkept.kind.trans kind) (by simp [hcase]) (hsheet ▸ ready)).mono (fun h => h) ?_
    rintro _ ⟨g', rfl, hheeded⟩
    exact ⟨g', rfl, hr'.trans (hsheet ▸ hheeded.refreshed), hheeded.attentive, hheeded.clean⟩
  | stale =>
    have hheeded := Heeded.rested (P := e.graph.sheet.below F bound) hs' hm (hkept.kind.trans kind)
      hcase (hend hcase)
    exact .some ⟨_, rfl, hr'.trans hheeded.refreshed, hheeded.attentive, hheeded.clean⟩

/-- On the way to an effect that is up to date, only computeds that its body consults are. -/
theorem heed_refreshWithin (hs : e.graph.Attentive) (found : e.graph.node? id = some n)
    (kind : n.kind = .effect p false) {o : Outcome} (ends : e.graph.sheet.Ends bound p o) (depth : Nat) :
    Yields (bound < depth) (refreshWithin depth id e) fun e' => ∃ g, e' = { e with graph := g } ∧
      Heeded (e.graph.sheet.Consults p) id e.graph g := by
  cases depth with
  | zero => exact .none (Nat.not_lt_zero _)
  | succ d =>
    have hready (cell : Cell) (hc : cell ∈ p.cells e.graph.sheet.outcome) :
        Ready (e.graph.sheet.forecast.only (e.graph.sheet.Consults p)) bound e.graph.sheet cell := by
      obtain ⟨holds, lower⟩ := (ends.foretold fun _ _ => value?_of_body?).2 cell hc
      refine ⟨holds, fun hk => ⟨⟨(lower hk).1, cell.node, ?_, .refl⟩, (lower hk).2⟩⟩
      exact ends.asks (fun _ _ => value?_of_body?) hc hk
    refine (heed_refreshOver (serves_refreshWithin _ d) hs
      (Sheet.obeys_only (fun _ _ => value?_of_body?) Sheet.Consults.calls) found kind hready).mono
      Nat.le_of_lt_succ ?_
    rintro _ ⟨g, rfl, hheeded⟩
    exact ⟨g, rfl, hheeded.refreshed.mono fun x hx => hx.imp_left fun hx => hx.2.1.2,
      hheeded.attentive, hheeded.clean⟩

end Engine

/-! ## Working off the queue -/

namespace Graph

variable {g h : Graph (Program σ)} {P Q : NodeId → Prop} {x : NodeId}

/-- A queued effect that an evaluation of it from scratch consults the node for. -/
def Concerns (g : Graph (Program σ)) (x : NodeId) : Prop :=
  ∃ y n p running, y ∈ g.pending ∧ g.node? y = some n ∧ n.kind = .effect p running ∧
    g.sheet.Consults p x

/-- Evaluations of the queued effects from scratch end within so many levels. -/
def Shallow (bound : Nat) (g : Graph (Program σ)) : Prop :=
  ∀ y ∈ g.pending, ∀ {n : Node (Program σ)} {p : Program σ} {running : Bool}, g.node? y = some n →
    n.kind = .effect p running → ∃ o, g.sheet.Ends bound p o

theorem Attentive.exists_shallow (hs : g.Attentive) : ∃ bound, g.Shallow bound := by
  have heach (y : NodeId) : ∃ k, ∀ {n : Node (Program σ)} {p : Program σ} {running : Bool},
      g.node? y = some n → n.kind = .effect p running → ∃ o, g.sheet.Ends k p o := by
    by_cases hy : ∃ n p running, g.node? y = some n ∧ n.kind = .effect p running
    · obtain ⟨n, p, running, hn, hk⟩ := hy
      obtain ⟨k, o, ends⟩ := (hs.effects hn hk).2 _ hs.coherent.revalued_refl
      refine ⟨k, fun {n' p' running'} hn' hk' => ?_⟩
      obtain rfl := Option.some.inj (hn.symm.trans hn')
      obtain ⟨rfl, -⟩ := NodeKind.effect.inj (hk.symm.trans hk')
      exact ⟨o, ends⟩
    · exact ⟨0, fun {n p running} hn hk => absurd ⟨n, p, running, hn, hk⟩ hy⟩
  choose k hk using heach
  obtain ⟨bound, hbound⟩ := Engine.exists_bound k g.pending
  refine ⟨bound, fun y hy {n p running} hn hkind => ?_⟩
  obtain ⟨o, ends⟩ := hk y hn hkind
  exact ⟨o, ends.mono (Nat.le_of_lt (hbound y hy))⟩

theorem Refreshed.requeued (hr : g.Refreshed P h) (queue : List NodeId) :
    Refreshed P { g with pending := queue } { h with pending := queue } where
  pending := rfl
  live := hr.live
  each := hr.each
  steady := hr.steady
  roused hn hm hstale hdirty := by
    obtain ⟨s, hs, news⟩ := hr.roused hn hm hstale hdirty
    exact ⟨s, hs, news.late, news.settled, news.differs⟩

/-- Nodes of a refreshed graph that are effects were the same effects. -/
theorem Refreshed.effect (hr : g.Refreshed P h) {m : Node (Program σ)} {p : Program σ} {running : Bool}
    (found : h.node? x = some m) (kind : m.kind = .effect p running) :
    ∃ n, g.node? x = some n ∧ n.kind = .effect p running := by
  obtain ⟨n, hn, hcase⟩ := hr.origin found
  refine ⟨n, hn, kind_of_skeleton ?_ kind⟩
  exact hcase.elim (·.skeleton) (·.2.skeleton)

/-- The queue was worked off: it is empty, and only the effects that stood in it, and what concerns
them, were brought up to date. -/
def Worked (g h : Graph (Program σ)) : Prop :=
  Refreshed (fun x => g.Concerns x ∨ x ∈ g.pending) { g with pending := [] } h

/-- One turn, and what comes after it. -/
theorem Worked.turn {id : NodeId} {rest : List NodeId} {n : Node (Program σ)} {p : Program σ}
    {running : Bool} {g₁ : Graph (Program σ)} (first : g.pending = id :: rest)
    (found : g.node? id = some n) (kind : n.kind = .effect p running)
    (hr : Refreshed (fun x => g.sheet.Consults p x ∨ x = id) { g with pending := rest } g₁)
    (later : g₁.Worked h) : g.Worked h := by
  have hpending : g₁.pending = rest := hr.pending
  refine Refreshed.trans ((hr.requeued []).mono fun x hx => ?_) (later.mono fun x hx => ?_)
  · rcases hx with hx | rfl
    · exact .inl ⟨id, n, p, running, by simp [first], found, kind, hx⟩
    · exact .inr (by simp [first])
  · rcases hx with ⟨y, m, q, running', hy, hm, hk, consults⟩ | hx
    · obtain ⟨m₀, hm₀, hk₀⟩ := hr.effect hm hk
      exact .inl ⟨y, m₀, q, running', by simp [first, ← hpending, hy], hm₀, hk₀, hr.sheet ▸ consults⟩
    · exact .inr (by simp [first, ← hpending, hx])

end Graph

namespace Engine

open Reactive.Graph

variable {e : Engine σ} {bound : Nat}

/-- Dropping the queue makes its effects clean and changes nothing else. -/
theorem worked_dropQueue (hs : e.graph.Attentive) : e.graph.Worked e.dropQueue.graph := by
  have hshown : e.dropQueue.graph.shown = e.graph.shown := by
    funext x
    refine shown_congr ?_
    rw [node?_dropQueue]
    split
    · cases e.graph.node? x <;> rfl
    · rfl
  refine ⟨rfl, fun x => ?_, fun {x n m} hn hm => ?_, fun {x n m} _ _ _ _ s _ => ?_,
    fun {x n m} hn hm hstale hdirty => ?_⟩
  · rw [node?_dropQueue]
    split
    · rw [Option.isSome_map]
      rfl
    · rfl
  · have hn : e.graph.node? x = some n := hn
    rw [node?_dropQueue, hn] at hm
    split at hm
    next hx =>
      obtain rfl := Option.some.inj hm
      by_cases hclean : n.freshness = .clean
      · exact .inl ⟨rfl, rfl, .inl hclean.symm⟩
      · exact .inr ⟨.inr hx, rfl, hs.idle trivial hn, hclean, rfl⟩
    next =>
      obtain rfl := Option.some.inj hm
      exact .inl (.refl _)
  · rw [hshown]
    exact .refl (hs.coherent.shown_proper s)
  · have hn : e.graph.node? x = some n := hn
    rw [node?_dropQueue, hn] at hm
    split at hm <;> obtain rfl := Option.some.inj hm
    · cases hdirty
    · simp [hstale] at hdirty

theorem drain_attentive (hs : e.graph.Attentive) (shallow : e.graph.Shallow bound) (runs depth : Nat) :
    Yields (bound < depth) (drain (refreshWithin depth) runs e) fun (settled, e') => ∃ g,
      e' = { e with graph := g } ∧ e.graph.Worked g ∧ (settled = true → g.Attentive) := by
  refine drain_turns (motive := fun _ e r => e.graph.Attentive → e.graph.Shallow bound →
      Yields (bound < depth) r fun (settled, e') => ∃ g,
        e' = { e with graph := g } ∧ e.graph.Worked g ∧ (settled = true → g.Attentive))
    (fun {_ e} hnone hs _ => ?_) (fun _ hs _ => ?_) (fun {_ e _ id} hsome ih hs shallow => ?_)
    runs e hs shallow
  · refine .some ⟨e.graph, rfl, ?_, fun _ => hs⟩
    rw [Worked, ← dequeue_eq_none.1 hnone]
    exact .refl hs.coherent.shown_proper
  · exact .some ⟨_, rfl, worked_dropQueue hs, nofun⟩
  · obtain ⟨rest, hp, rfl⟩ := dequeue_eq_some hsome
    obtain ⟨n, hn, heffect⟩ := hs.queued id (by simp [hp])
    obtain ⟨p, running, hk⟩ := Node.kind_of_isEffect heffect
    obtain rfl : running = false := by simpa [Node.isRunning, hk] using hs.idle trivial hn
    obtain ⟨o, ends⟩ := shallow id (by simp [hp]) hn hk
    have hs₀ : (e.queueing rest).graph.Attentive :=
      hs.congr (fun _ => rfl) (by simp [queueing, hp])
    refine (heed_refreshWithin hs₀ (by exact hn) hk (by exact ends) depth).bind ?_
    rintro _ ⟨g₁, rfl, hheeded⟩
    have hr := hheeded.refreshed
    have hshallow : g₁.Shallow bound := fun y hy {m q running} hm hkind => by
      obtain ⟨m₀, hm₀, hk₀⟩ := hr.effect hm hkind
      have hrest : y ∈ rest := show y ∈ (e.queueing rest).graph.pending from hr.pending ▸ hy
      rw [hr.sheet]
      exact shallow y (by simp [hp, hrest]) hm₀ hk₀
    refine (ih { e with graph := g₁ } hheeded.attentive hshallow).mono (fun h => h) ?_
    rintro ⟨settled, _⟩ ⟨g, rfl, hworked, hattentive⟩
    exact ⟨g, rfl, .turn hp hn hk hr hworked, hattentive⟩

/-- A flush changes nothing, or works off the queue. -/
theorem flush_attentive (hs : e.graph.Attentive) (shallow : e.graph.Shallow bound) (depth : Nat) :
    Yields (bound < depth) (flush (refreshWithin depth) e) fun (r, e') =>
      (e' = e ∨ ∃ g, e' = { e with graph := g } ∧ e.graph.Worked g) ∧ (Calm r → e'.graph.Attentive) := by
  rw [flush]
  split
  next => exact .some ⟨.inl rfl, fun _ => hs⟩
  next hfree =>
    have hstill : e.flushing = false := by simp_all
    refine (drain_attentive (e := { e with flushing := true }) hs shallow _ depth).map ?_
    rintro ⟨settled, _⟩ ⟨g, rfl, hworked, hattentive⟩
    refine ⟨.inr ⟨g, by simp only [← hstill], hworked⟩, fun calm => hattentive ?_⟩
    cases settled
    · exact absurd rfl (calm _)
    · rfl

/-! ## Reads from outside -/

/-- On the way to a computed that is up to date, only those are that its evaluation comes to. -/
theorem refresh_attentive (hs : e.graph.Attentive) {id : NodeId} (computes : e.graph.sheet.Computes id) :
    ∃ bound, ∀ depth, Yields (bound < depth) (refreshWithin depth id e) fun e' => ∃ g,
      e' = { e with graph := g } ∧
        e.graph.Refreshed (Relation.ReflTransGen e.graph.sheet.Calls id) g ∧ g.Attentive := by
  obtain ⟨body, found⟩ := computes
  obtain ⟨rank, fits⟩ := hs.ranked
  let F := e.graph.sheet.forecast.only (Relation.ReflTransGen e.graph.sheet.Calls id)
  have hF : e.graph.sheet.Obeys F := Sheet.obeys_only (fun _ _ => value?_of_body?) .tail
  have covered : F.covers id :=
    ⟨fun b hb => ⟨rank id, Sheet.exists_ends (fits _ hs.coherent.revalued_refl) hb⟩, .refl⟩
  refine ⟨F.rank id, fun depth => ((serves_refreshWithin F depth) hs.coherent hF found covered
    (Idle.mono hs.idle fun _ _ => trivial)).mono (fun h => h) ?_⟩
  rintro _ ⟨g, rfl, hr, hg, -⟩
  exact ⟨g, rfl, hr.mono fun x hx => hx.2.1.2, hs.refreshed_cells hr hg fun x hx => hx.1⟩

theorem readCell_attentive (hs : e.graph.Attentive) {depth : Nat} {cell : Cell} {tracked : Bool}
    {o : Outcome} {e' : Engine σ} (read : e.readCell (refreshWithin depth) cell tracked = some (o, e')) :
    e'.graph.Attentive := by
  unfold readCell at read
  split at read <;> split at read
  · obtain ⟨-, rfl⟩ := Prod.mk.inj (Option.some.inj read)
    rwa [graph_trackIf]
  · obtain ⟨-, rfl⟩ := Prod.mk.inj (Option.some.inj read)
    exact hs
  · obtain ⟨-, rfl⟩ := Prod.mk.inj (Option.some.inj read)
    exact hs
  next hn =>
    obtain ⟨e₁, h₁, he⟩ := Option.map_eq_some_iff.1 read
    obtain ⟨-, rfl⟩ := Prod.mk.inj he
    obtain ⟨bound, hbound⟩ := refresh_attentive hs ⟨_, body?_of_kind hn rfl⟩
    obtain ⟨g, rfl, -, hg⟩ := (hbound depth).1 _ h₁
    rwa [graph_trackIf]
  · obtain ⟨-, rfl⟩ := Prod.mk.inj (Option.some.inj read)
    exact hs

/-! ## Clients -/

/-- What a client brings about if its computeds are lawful and ranked, its effects only read, and it
removes nothing. A write is stored first, and then flushed unless a batch is open. -/
inductive Driven : Engine σ → Prop where
  | start (settings : Settings) (host : σ) : Driven (start settings host)
  /-- A batch or an untracked region is entered or left, or the host changes. -/
  | aside {e e' : Engine σ} (driven : Driven e) (same : e'.graph = e.graph) : Driven e'
  | newSignal {e : Engine σ} {value : Value} (driven : Driven e) (proper : value.Proper) :
      Driven { e with graph := (e.graph.insertNode (.signal value) .clean none).2 }
  | newComputed {e : Engine σ} {body : Program σ} (driven : Driven e) (lawful : body.Lawful)
      (ranked : (e.graph.insertNode (.computed body false none) .dirty none).2.sheet.Ranked) :
      Driven { e with graph := (e.graph.insertNode (.computed body false none) .dirty none).2 }
  | newOwnedComputed {e : Engine σ} {body : Program σ} {owner : ScopeId} {id : NodeId}
      {g : Graph (Program σ)} (driven : Driven e) (lawful : body.Lawful)
      (inserted : e.graph.insertOwned (.computed body false none) owner = some (id, g))
      (ranked : g.sheet.Ranked) : Driven { e with graph := g }
  | newEffect {e e' : Engine σ} {p : Program σ} {depth : Nat} {owner : ScopeId} {id : NodeId}
      {g : Graph (Program σ)} (driven : Driven e) (lawful : p.Lawful)
      (grounded : e.graph.sheet.Grounded p)
      (inserted : e.graph.insertOwned (.effect p false) owner = some (id, g))
      (ran : refreshWithin depth id { e with graph := g } = some e') : Driven e'
  | newScope {e : Engine σ} (driven : Driven e) : Driven { e with graph := e.graph.insertScope.2 }
  | newChildScope {e : Engine σ} {parent id : ScopeId} {g : Graph (Program σ)} (driven : Driven e)
      (inserted : e.graph.insertChildScope parent = some (id, g)) : Driven { e with graph := g }
  | read {e e' : Engine σ} {depth : Nat} {cell : Cell} {tracked : Bool} {o : Outcome}
      (driven : Driven e) (read : e.readCell (refreshWithin depth) cell tracked = some (o, e')) :
      Driven e'
  | store {e : Engine σ} {id : NodeId} {n : Node (Program σ)} {old value : Value} (driven : Driven e)
      (found : e.graph.node? id = some n) (kind : n.kind = .signal old) (proper : value.Proper) :
      Driven { e with graph := e.graph.written id value n.subscribers }
  | flush {e e' : Engine σ} {depth : Nat} {r : Except Fault Unit} (driven : Driven e)
      (flushed : flush (refreshWithin depth) e = some (r, e')) (calm : Calm r) : Driven e'

theorem Driven.attentive {e : Engine σ} (driven : Driven e) : e.graph.Attentive := by
  induction driven with
  | start => exact attentive_empty
  | aside _ same ih => exact same ▸ ih
  | newSignal _ proper ih =>
    exact ih.insertNode (ih.coherent.insertNode proper nofun nofun) (ranked_insertSignal ih.ranked _)
      (fun n hn => by simp [Node.isRunning, hn]) nofun
  | newComputed _ lawful ranked ih => exact ih.insertComputed lawful ranked
  | newOwnedComputed _ lawful inserted ranked ih =>
    obtain ⟨-, hsame, hpending⟩ := insertOwned_eq_some inserted
    refine (ih.insertComputed lawful ?_).congr hsame ?_
    · rwa [← sheet_of_node? hsame]
    · rw [hpending]
      exact List.Subset.refl _
  | @newEffect e e' p depth owner id g _ lawful grounded inserted ran ih =>
    obtain ⟨rfl, hsame, hpending⟩ := insertOwned_eq_some inserted
    have hs : g.Attentive := by
      refine (ih.insertEffect lawful grounded).congr hsame ?_
      rw [hpending]
      exact List.Subset.refl _
    have hself : g.node? (e.graph.insertNode (.effect p false) .dirty (some owner)).1 =
        some ⟨.effect p false, .dirty, [], [], some owner⟩ :=
      (hsame _).trans (insertNode_self _ _ _ _)
    obtain ⟨k, o, ends⟩ := (hs.effects hself rfl).2 _ hs.coherent.revalued_refl
    obtain ⟨g', rfl, hheeded⟩ := (heed_refreshWithin (e := { e with graph := g }) hs hself rfl ends
      depth).1 _ ran
    exact hheeded.attentive
  | newScope _ ih => exact ih.congr (fun _ => rfl) (List.Subset.refl _)
  | newChildScope _ inserted ih =>
    obtain ⟨hsame, hpending⟩ := insertChildScope_eq_some inserted
    refine ih.congr hsame ?_
    rw [hpending]
    exact List.Subset.refl _
  | read _ read ih => exact readCell_attentive ih read
  | store _ found kind proper ih => exact ih.written found kind proper
  | flush _ flushed calm ih =>
    obtain ⟨bound, hshallow⟩ := ih.exists_shallow
    exact ((flush_attentive ih hshallow _).1 _ flushed).2 calm

end Engine

end LiveTemplate.Reactive
