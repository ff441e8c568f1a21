import LiveTemplate.Proofs.Reactive.Vigilance

/-!
# Working off the queue

Draining the queue brings the queued effects up to date one after the other. Nothing is queued
meanwhile, so each effect has at most one turn, and what one run saw is what all the later ones see:
the values of the signals do not change until the queue is empty.
-/
namespace LiveTemplate.Reactive

namespace Engine

open Reactive.Graph

variable {mode : Bool → Prop} {refresh : NodeId → Engine Journal → Option (Engine Journal)}

/-- A way of refreshing that brings effects of sound graphs up to date. -/
def AttendsBy (mode : Bool → Prop)
    (refresh : NodeId → Engine Journal → Option (Engine Journal)) : Prop :=
  ∀ {e e' : Engine Journal} {id : NodeId} {label : Nat}, e.graph.Sound mode →
    e.graph.EffectAt id label → refresh id e = some e' → Attended mode id label e e'

theorem attends_refreshWithin (mode : Bool → Prop) (depth : Nat) :
    AttendsBy mode (refreshWithin depth) := by
  intro e e' id label hs hat refreshed
  cases depth with
  | zero => cases refreshed
  | succ d =>
    obtain ⟨F, hF⟩ := hs.coherent.exists_foretold hs.ranked
    obtain ⟨n, p, running, hn, hk⟩ := hat
    obtain rfl : running = false := by simpa [Node.isRunning, hk] using hs.idle trivial hn
    obtain ⟨label', q, reads, hbody⟩ := hs.watching hn hk
    obtain rfl := Program.watched_label hbody
    rw [hbody] at hk
    exact refresh_effect (serves_refreshWithin F d) hF.covers reads hs.coherent hF.obeys
      (Idle.mono hs.idle fun _ _ => trivial) hn hk refreshed

/-- What the sightings made on the way say: each effect ran once at most, was queued, and what it
saw is fresh in the end. -/
structure Recorded (recs : Journal) (g h : Graph (Program Journal)) : Prop where
  nodup : (recs.map (·.label)).Nodup
  queued : ∀ s ∈ recs, ∃ id ∈ g.pending, g.EffectAt id s.label
  fresh : ∀ s ∈ recs, ∀ r ∈ s.readings, h.Fresh r

/-- Going on without a change of the sheet, of the effects, or of what settled cells show. -/
structure Onward (mode : Bool → Prop) (e e' : Engine Journal) : Prop where
  frame : e' = { e with graph := e'.graph, host := e'.host }
  sound : e'.graph.Sound mode
  sheet : e'.graph.sheet = e.graph.sheet
  effects : ∀ {id : NodeId} {label : Nat}, e'.graph.EffectAt id label ↔ e.graph.EffectAt id label
  fresh : ∀ {r : Reading}, e.graph.Fresh r → e'.graph.Fresh r

theorem Onward.refl {e : Engine Journal} (hs : e.graph.Sound mode) : Onward mode e e :=
  ⟨rfl, hs, rfl, Iff.rfl, id⟩

theorem Onward.trans {e₁ e₂ e₃ : Engine Journal} (h : Onward mode e₁ e₂) (h' : Onward mode e₂ e₃) :
    Onward mode e₁ e₃ where
  frame := by rw [h'.frame, h.frame]
  sound := h'.sound
  sheet := h'.sheet.trans h.sheet
  effects := h'.effects.trans h.effects
  fresh hf := h'.fresh (h.fresh hf)

theorem Attended.onward {e e' : Engine Journal} {id : NodeId} {label : Nat}
    (h : Attended mode id label e e') (hs : e.graph.Sound mode) : Onward mode e e' where
  frame := h.frame
  sound := hs.refreshed h.refreshed h.coherent
  sheet := h.refreshed.sheet
  effects := effectAt_of_skeleton (skeleton_of_refreshed h.refreshed)
  fresh := h.refreshed.fresh

theorem Attended.recorded {e e' : Engine Journal} {id : NodeId} {label : Nat}
    (h : Attended mode id label e e') : ∃ recs, e'.host = e.host ++ recs ∧
      (recs = [] ∨ ∃ readings, recs = [⟨label, readings⟩] ∧ ∀ r ∈ readings, e'.graph.Fresh r) := by
  rcases h.ending with ⟨hhost, -⟩ | ⟨readings, hhost, hsaw⟩
  · exact ⟨[], by simp [hhost], .inl rfl⟩
  · exact ⟨_, hhost, .inr ⟨readings, rfl, hsaw.fresh⟩⟩

theorem node?_dropQueue {σ : Type} (e : Engine σ) (x : NodeId) : e.dropQueue.graph.node? x =
    if x ∈ e.graph.pending then (e.graph.node? x).map (Node.withFreshness .clean)
    else e.graph.node? x :=
  node?_foldl_modifyNode (f := Node.withFreshness .clean) _ _ (fun _ => rfl) x

/-- The effects that stay in the queue after a failure count as clean. -/
theorem dropQueue_onward {e : Engine Journal} (hs : e.graph.Sound mode) :
    Onward mode e e.dropQueue ∧ e.dropQueue.host = e.host ∧ e.dropQueue.graph.pending = [] := by
  have hnode := e.node?_dropQueue
  have hfind {x : NodeId} {m : Node (Program Journal)} (hm : e.dropQueue.graph.node? x = some m) :
      ∃ n, e.graph.node? x = some n ∧ m.kind = n.kind ∧ ends m = ends n ∧
        (m.freshness = .clean ∨ m.freshness = n.freshness) := by
    rw [hnode] at hm
    split at hm
    · obtain ⟨n, hn, rfl⟩ := Option.map_eq_some_iff.1 hm
      exact ⟨n, hn, rfl, rfl, .inl rfl⟩
    · exact ⟨m, hm, rfl, rfl, .inr rfl⟩
  have hcells : e.graph.SameCells e.dropQueue.graph := by
    intro x
    rw [hnode]
    split
    next hx =>
      obtain ⟨n, hn, heffect⟩ := hs.queued x hx
      rw [hn, Option.map_some, Option.bind_some, Option.bind_some, Node.memory?_effect heffect,
        Node.memory?_effect (by exact heffect)]
    next => rfl
  have hskeleton (x : NodeId) : (e.dropQueue.graph.node? x).map (·.kind.skeleton) =
      (e.graph.node? x).map (·.kind.skeleton) := by
    rw [hnode]
    split
    · cases e.graph.node? x <;> rfl
    · rfl
  have hlinked : e.dropQueue.graph.Linked := hs.coherent.linked.congr fun x => by
    rw [hnode]
    split
    · cases e.graph.node? x <;> rfl
    · rfl
  have hcoherent : e.dropQueue.graph.Coherent := by
    refine hs.coherent.of_memory hlinked hcells fun {x m} hm _ => ?_
    obtain ⟨n, hn, hk, hends, hfresh⟩ := hfind hm
    refine ⟨fun hr => ?_, fun s hmem => hs.coherent.cells hn ?_⟩
    · exact hfresh.elim id fun h => h.trans (hs.coherent.running hn (by rwa [Node.isRunning, ← hk]))
    · rwa [← show m.sources = n.sources from congrArg Prod.fst hends]
  have heffects {id : NodeId} {label : Nat} :
      e.dropQueue.graph.EffectAt id label ↔ e.graph.EffectAt id label :=
    effectAt_of_skeleton hskeleton
  refine ⟨⟨rfl, ⟨hcoherent, hcells.sheet ▸ hs.ranked, fun {x m} _ hm => ?_,
    fun {x m body running} hm hk => ?_, fun hx hy => hs.distinct (heffects.1 hx) (heffects.1 hy),
    .nil, by simp [dropQueue]⟩, hcells.sheet, heffects, hcells.fresh⟩, rfl, rfl⟩
  · obtain ⟨n, hn, hk, -⟩ := hfind hm
    rw [Node.isRunning, hk]
    exact hs.idle trivial hn
  · obtain ⟨n, hn, hk', -⟩ := hfind hm
    exact hs.watching hn (hk'.symm.trans hk)

/-- The engine with the first effect taken off its queue. -/
def queueing {σ : Type} (e : Engine σ) (rest : List NodeId) : Engine σ :=
  { e with graph := { e.graph with pending := rest } }

section Equations

variable {σ : Type} {refresh : NodeId → Engine σ → Option (Engine σ)} {e : Engine σ} {id : NodeId}
  {rest : List NodeId}

theorem drain_nil (runs : Nat) (hp : e.graph.pending = []) :
    drain refresh runs e = some (true, e) := by
  rw [drain, dequeue]
  simp only [hp]

theorem drain_zero (hp : e.graph.pending = id :: rest) :
    drain refresh 0 e = some (false, e.dropQueue) := by
  rw [drain, dequeue]
  simp only [hp]

theorem drain_succ (runs : Nat) (hp : e.graph.pending = id :: rest) :
    drain refresh (runs + 1) e = (refresh id (e.queueing rest)).bind (drain refresh runs) := by
  rw [drain, dequeue]
  simp only [hp, queueing]

end Equations

/-- One turn: the first effect of the queue is brought up to date. -/
theorem turn_spec (attends : AttendsBy mode refresh) {e e₁ : Engine Journal}
    (hs : e.graph.Sound mode) {id : NodeId} {rest : List NodeId}
    (first : e.graph.pending = id :: rest) (refreshed : refresh id (e.queueing rest) = some e₁) :
    (e.queueing rest).graph.Sound mode ∧
      ∃ label, e.graph.EffectAt id label ∧ Attended mode id label (e.queueing rest) e₁ := by
  have hs₀ : (e.queueing rest).graph.Sound mode :=
    hs.dequeued (first ▸ List.sublist_cons_self _ _)
  obtain ⟨n, hn, heffect⟩ := hs.queued id (by simp [first])
  cases hk : n.kind with
  | effect body running =>
    obtain ⟨label, p, -, rfl⟩ := hs.watching hn hk
    have hat : e.graph.EffectAt id label := ⟨n, p, running, hn, hk⟩
    exact ⟨hs₀, label, hat, attends hs₀ hat refreshed⟩
  | _ => simp [Node.isEffect, hk] at heffect

/-- Induction on the turns of a drain: it finds the queue empty, or drops it, or goes on after a turn. -/
theorem drain_induct (attends : AttendsBy mode refresh)
    {motive : Engine Journal → Bool → Engine Journal → Prop}
    (empty : ∀ {e : Engine Journal}, e.graph.Sound mode → e.graph.pending = [] → motive e true e)
    (dropped : ∀ {e : Engine Journal}, e.graph.Sound mode → motive e false e.dropQueue)
    (turn : ∀ {e e₁ e' : Engine Journal} {settled : Bool} {id : NodeId} {rest : List NodeId}
      {label : Nat}, e.graph.Sound mode → e.graph.pending = id :: rest → e.graph.EffectAt id label →
      (e.queueing rest).graph.Sound mode → Attended mode id label (e.queueing rest) e₁ →
      motive e₁ settled e' → motive e settled e')
    {runs : Nat} {e e' : Engine Journal} {settled : Bool} (hs : e.graph.Sound mode)
    (hdrain : drain refresh runs e = some (settled, e')) : motive e settled e' := by
  refine drain_turns
    (motive := fun _ e r => e.graph.Sound mode → r = some (settled, e') → motive e settled e')
    (fun hnone hs h => ?_) (fun _ hs h => ?_) (fun hsome ih hs h => ?_) runs e hs hdrain
  · obtain ⟨rfl, rfl⟩ := Prod.mk.inj (Option.some.inj h)
    exact empty hs (dequeue_eq_none.1 hnone)
  · obtain ⟨rfl, rfl⟩ := Prod.mk.inj (Option.some.inj h)
    exact dropped hs
  · obtain ⟨rest, hp, rfl⟩ := dequeue_eq_some hsome
    obtain ⟨e₁, hrefresh, hothers⟩ := Option.bind_eq_some_iff.1 h
    obtain ⟨hs₀, label, hat, hattended⟩ := turn_spec attends hs hp hrefresh
    exact turn hs hp hat hs₀ hattended (ih e₁ (hattended.onward hs₀).sound hothers)

theorem recorded_nil (g h : Graph (Program Journal)) : Recorded [] g h :=
  ⟨by simp, by simp, by simp⟩

/-- What a turn records comes before what is recorded after it. -/
theorem Recorded.turn {e e₁ e' : Engine Journal} {id : NodeId} {rest : List NodeId} {label : Nat}
    (hs : e.graph.Sound mode) (first : e.graph.pending = id :: rest) (hat : e.graph.EffectAt id label)
    (hs₀ : (e.queueing rest).graph.Sound mode) (attended : Attended mode id label (e.queueing rest) e₁)
    (onward : Onward mode e₁ e') {recs' : Journal} (later : Recorded recs' e₁.graph e'.graph) :
    ∃ recs, e₁.host = e.host ++ recs ∧ Recorded (recs ++ recs') e.graph e'.graph := by
  have hpending : e₁.graph.pending = rest := attended.refreshed.pending
  have hback (s : Sighting) (hmem : s ∈ recs') : ∃ x ∈ rest, e.graph.EffectAt x s.label := by
    obtain ⟨x, hx, hat'⟩ := later.queued s hmem
    exact ⟨x, hpending ▸ hx, (attended.onward hs₀).effects.1 hat'⟩
  obtain ⟨recs, hhost, hcase⟩ := attended.recorded
  refine ⟨recs, hhost, ?_, fun s hmem => ?_, fun s hmem r hr => ?_⟩
  · rcases hcase with rfl | ⟨readings, rfl, -⟩
    · exact later.nodup
    · refine List.nodup_cons.2 ⟨fun hmem => ?_, later.nodup⟩
      -- the effect that ran first is not in the rest of the queue
      obtain ⟨s, hs', hlabel⟩ := List.mem_map.1 hmem
      obtain ⟨x, hx, hat'⟩ := hback s hs'
      obtain rfl := hs.distinct hat (hlabel ▸ hat')
      have hnodup := hs.nodup
      rw [first] at hnodup
      exact (List.nodup_cons.1 hnodup).1 hx
  · rcases List.mem_append.1 hmem with hmem | hmem
    · rcases hcase with rfl | ⟨readings, rfl, -⟩
      · cases hmem
      · obtain rfl := List.mem_singleton.1 hmem
        exact ⟨id, by simp [first], hat⟩
    · obtain ⟨x, hx, hat'⟩ := hback s hmem
      exact ⟨x, by simp [first, hx], hat'⟩
  · rcases List.mem_append.1 hmem with hmem | hmem
    · rcases hcase with rfl | ⟨readings, rfl, hfresh⟩
      · cases hmem
      · obtain rfl := List.mem_singleton.1 hmem
        exact onward.fresh (hfresh r hr)
    · exact later.fresh s hmem r hr

/-- Draining the queue. -/
theorem drain_spec (attends : AttendsBy mode refresh) {runs : Nat} {e e' : Engine Journal}
    {settled : Bool} (hs : e.graph.Sound mode) (hdrain : drain refresh runs e = some (settled, e')) :
    Onward mode e e' ∧ e'.graph.pending = [] ∧
      ∃ recs, e'.host = e.host ++ recs ∧ Recorded recs e.graph e'.graph := by
  refine drain_induct (motive := fun e _ e' => Onward mode e e' ∧ e'.graph.pending = [] ∧
    ∃ recs, e'.host = e.host ++ recs ∧ Recorded recs e.graph e'.graph) attends
    (fun hs hp => ⟨.refl hs, hp, [], by simp, recorded_nil _ _⟩) (fun {e} hs => ?_)
    (fun {e e₁ e'} _ id rest label hs hp hat hs₀ attended later => ?_) hs hdrain
  · obtain ⟨honward, hhost, hpending⟩ := dropQueue_onward hs
    exact ⟨honward, hpending, [], by simp [hhost], recorded_nil _ _⟩
  · obtain ⟨honward, hempty, recs', hhost', hrec⟩ := later
    obtain ⟨recs, hhost, hrec⟩ := hrec.turn hs hp hat hs₀ attended honward
    have hwhole := (attended.onward hs₀).trans honward
    exact ⟨⟨hwhole.frame, hwhole.sound, hwhole.sheet, hwhole.effects, hwhole.fresh⟩, hempty,
      recs ++ recs', by rw [hhost', hhost, List.append_assoc], hrec⟩

/-! ## What lasts through a drain -/

/-- A property that outlasts the runs of effects. While an effect is to run next, the property may
make an exception of it. -/
structure Lasting (mode : Bool → Prop)
    (I : Option NodeId → Graph (Program Journal) → Journal → Prop) : Prop where
  dequeued : ∀ {g : Graph (Program Journal)} {journal : Journal} {id : NodeId} {rest : List NodeId},
    g.pending = id :: rest → I none g journal → I (some id) { g with pending := rest } journal
  attended : ∀ {e e' : Engine Journal} {id : NodeId} {label : Nat}, e.graph.Sound mode →
    e.graph.EffectAt id label → Attended mode id label e e' → I (some id) e.graph e.host →
    I none e'.graph e'.host

theorem lasting_queues (mode : Bool → Prop) : Lasting mode fun x g _ => g.QueuesBut x where
  dequeued first queues := by
    intro x n hn heffect hlate
    have hx := (queues hn heffect hlate).resolve_right nofun
    rw [first] at hx
    exact (List.mem_cons.1 hx).symm.imp_right (congrArg some)
  attended _ _ attended queues := queues.attended attended

theorem lasting_pays (tracked : ∀ t, mode t → t = true) (D : Duty) :
    Lasting mode fun _ g journal => g.Pays D journal ∧ D.base <+: journal where
  dequeued _ pays := by
    refine ⟨fun hx howes => (pays.1 hx howes).imp_left fun h => ?_, pays.2⟩
    exact ⟨⟨h.source, h.settled⟩, h.holds, h.alike⟩
  attended hs hat attended pays := by
    refine ⟨Pays.attended hs pays.1 attended hat pays.2 tracked, ?_⟩
    obtain ⟨recs, hhost, -⟩ := attended.recorded
    rw [hhost]
    exact pays.2.trans (List.prefix_append _ _)

theorem lasting_minding (mode : Bool → Prop) : Lasting mode fun _ g _ => g.Minding where
  dequeued _ minding := by
    intro x s n hn heffect hs
    exact ⟨(minding hn heffect hs).source, (minding hn heffect hs).settled⟩
  attended _ hat attended minding := minding.attended attended hat

theorem lasting_recalls (tracked : ∀ t, mode t → t = true) :
    Lasting mode fun _ g journal => g.Recalls journal where
  dequeued _ recalls := recalls
  attended hs hat attended recalls := recalls.attended hs attended hat tracked

theorem drain_keeps (attends : AttendsBy mode refresh)
    {I : Option NodeId → Graph (Program Journal) → Journal → Prop} (lasting : Lasting mode I)
    {runs : Nat} {e e' : Engine Journal} {settled : Bool} (hs : e.graph.Sound mode)
    (start : I none e.graph e.host)
    (drop : settled = false → ∀ {e : Engine Journal}, e.graph.Sound mode →
      I none e.graph e.host → I none e.dropQueue.graph e.dropQueue.host)
    (hdrain : drain refresh runs e = some (settled, e')) : I none e'.graph e'.host := by
  refine drain_induct (motive := fun e settled e' => I none e.graph e.host →
    (settled = false → ∀ {e : Engine Journal}, e.graph.Sound mode → I none e.graph e.host →
      I none e.dropQueue.graph e.dropQueue.host) → I none e'.graph e'.host) attends
    (fun _ _ start _ => start) (fun hs start drop => drop rfl hs start)
    (fun _ hp hat hs₀ attended later start drop => later ?_ drop) hs hdrain start drop
  exact lasting.attended hs₀ hat attended (lasting.dequeued hp start)

end Engine

end LiveTemplate.Reactive
