import LiveTemplate.Proofs.Reactive.Reached

/-!
# Computeds without a ranking

A client may also make computeds that call one another in a cycle, for some values of the signals or
for all. As long as only computeds are read whose evaluation ends, and no effect runs, the engine
remembers nothing that is not so (`Engine.Visited.consistent`).
-/
namespace LiveTemplate.Reactive

namespace Graph

def Effectless (g : Graph (Program Journal)) : Prop :=
  ∀ ⦃x : NodeId⦄ ⦃n : Node (Program Journal)⦄, g.node? x = some n → n.isEffect = false

theorem Effectless.written {g : Graph (Program Journal)} (h : g.Effectless) {id : NodeId}
    {n : Node (Program Journal)} (found : g.node? id = some n) (value : Value)
    (subscribers : List NodeId) : (g.written id value subscribers).Effectless := by
  intro x m hm
  refine Bool.eq_false_iff.2 fun heffect => ?_
  obtain ⟨m₀, hm₀, heffect₀, -⟩ := isEffect_written found hm heffect
  simp [h hm₀] at heffect₀

theorem Effectless.refreshed {P : NodeId → Prop} {g h : Graph (Program Journal)} (hg : g.Effectless)
    (hr : g.Refreshed P h) : h.Effectless := by
  intro x m hm
  obtain ⟨n, hn, -⟩ := hr.origin hm
  exact (hr.isEffect hn hm).trans (hg hn)

end Graph

namespace Engine

open Reactive.Graph

/-- What the engine remembers is what its bodies give on what it remembers, and nothing is running. -/
structure Consistent {σ : Type} (e : Engine σ) : Prop where
  coherent : e.graph.Coherent
  idle : e.graph.Idle fun _ => True

/-- The engines that clients can bring about from a reached one when there is no ranking any more. They
read only what has an outcome, and no flush finds an effect. -/
inductive Visited (mode : Bool → Prop) (allowed : Except Fault Unit → Prop) (settings : Settings) :
    Engine Journal → Prop where
  | reached {e : Engine Journal} (reached : Reached mode allowed settings e) :
      Visited mode allowed settings e
  | newSignal {e : Engine Journal} {value : Value} {id : NodeId} {g : Graph (Program Journal)}
      (visited : Visited mode allowed settings e) (proper : value.Proper)
      (inserted : e.graph.insertNode (.signal value) .clean none = (id, g)) :
      Visited mode allowed settings { e with graph := g }
  | newComputed {e : Engine Journal} {body : Program Journal} {id : NodeId}
      {g : Graph (Program Journal)} (visited : Visited mode allowed settings e)
      (lawful : body.Lawful)
      (inserted : e.graph.insertNode (.computed body false none) .dirty none = (id, g)) :
      Visited mode allowed settings { e with graph := g }
  | read {e e' : Engine Journal} {depth : Nat} {cell : Cell} {tracked : Bool} {o : Outcome}
      (visited : Visited mode allowed settings e)
      (ends : cell.kind = .computed → e.graph.sheet.forecast.covers cell.node)
      (read : e.readCell (refreshWithin depth) cell tracked = some (o, e')) :
      Visited mode allowed settings e'
  | write {e e' : Engine Journal} {depth : Nat} {id : NodeId} {value : Value} {r : Except Fault Unit}
      (visited : Visited mode allowed settings e) (proper : value.Proper)
      (effectless : e.batchDepth = 0 → e.graph.Effectless)
      (written : writeSignal (refreshWithin depth) id value e = some (r, e')) :
      Visited mode allowed settings e'
  | openBatch {e : Engine Journal} (visited : Visited mode allowed settings e) :
      Visited mode allowed settings { e with batchDepth := e.batchDepth + 1 }
  | closeBatch {e e' : Engine Journal} {depth : Nat} {r : Except Fault Unit}
      (visited : Visited mode allowed settings e) (opened : 0 < e.batchDepth)
      (effectless : e.batchDepth = 1 → e.graph.Effectless)
      (flushed : flush (refreshWithin depth) { e with batchDepth := e.batchDepth - 1 } = some (r, e')) :
      Visited mode allowed settings e'

variable {mode : Bool → Prop} {allowed : Except Fault Unit → Prop} {settings : Settings}
  {e e' : Engine Journal}

/-- A consistent engine that is not flushing, with nothing but effects in its queue. -/
structure Resting (e : Engine Journal) : Prop extends e.Consistent where
  still : e.flushing = false
  queued : ∀ x ∈ e.graph.pending, ∃ n, e.graph.node? x = some n ∧ n.isEffect = true

theorem drained_of_effectless {g : Graph (Program Journal)}
    (queued : ∀ x ∈ g.pending, ∃ n, g.node? x = some n ∧ n.isEffect = true)
    (effectless : g.Effectless) : g.pending = [] := by
  refine List.eq_nil_iff_forall_not_mem.2 fun x hx => ?_
  obtain ⟨n, hn, heffect⟩ := queued x hx
  simp [effectless hn] at heffect

/-- A flush that finds no effect changes nothing. -/
theorem flush_of_effectless (still : e.flushing = false)
    (queued : ∀ x ∈ e.graph.pending, ∃ n, e.graph.node? x = some n ∧ n.isEffect = true)
    (effectless : e.batchDepth = 0 → e.graph.Effectless) {depth : Nat} {r : Except Fault Unit}
    (flushed : flush (refreshWithin depth) e = some (r, e')) : e' = e := by
  rcases Nat.eq_zero_or_pos e.batchDepth with rest | held
  · rw [flush_rest rest still (drained_of_effectless queued (effectless rest))] at flushed
    exact (Prod.mk.inj (Option.some.inj flushed)).2.symm
  · rw [flush_held held] at flushed
    exact (Prod.mk.inj (Option.some.inj flushed)).2.symm

theorem Resting.drained (h : e.Resting) (effectless : e.graph.Effectless) :
    e.graph.pending = [] :=
  drained_of_effectless h.queued effectless

theorem Resting.flushed (h : e.Resting) (effectless : e.batchDepth = 0 → e.graph.Effectless)
    {depth : Nat} {r : Except Fault Unit}
    (flushed : flush (refreshWithin depth) e = some (r, e')) : e' = e :=
  flush_of_effectless h.still h.queued effectless flushed

theorem Resting.insertNode (h : e.Resting) {kind : NodeKind (Program Journal)} {freshness : Freshness}
    (coherent : (e.graph.insertNode kind freshness none).2.Coherent)
    (resting : ∀ n : Node (Program Journal), n.kind = kind → n.isRunning = false) :
    ({ e with graph := (e.graph.insertNode kind freshness none).2 } : Engine Journal).Resting := by
  refine ⟨⟨coherent, fun {x n} _ hn => ?_⟩, h.still, fun x hx => ?_⟩
  · rcases insertNode_origin hn with ⟨-, rfl⟩ | hn
    · exact resting _ rfl
    · exact h.idle trivial hn
  · obtain ⟨n, hn, heffect⟩ := h.queued x hx
    exact ⟨n, (insertNode_live hn).2, heffect⟩

theorem Resting.written (h : e.Resting) {id : NodeId} {n : Node (Program Journal)} {old value : Value}
    (found : e.graph.node? id = some n) (kind : n.kind = .signal old) (proper : value.Proper) :
    ({ e with graph := e.graph.written id value n.subscribers } : Engine Journal).Resting :=
  ⟨⟨h.coherent.written found kind proper h.idle, idle_written found value _ h.idle⟩, h.still,
    queued_written found kind _ h.queued⟩

theorem Resting.refreshed (h : e.Resting) {P : NodeId → Prop} {g : Graph (Program Journal)}
    (hr : e.graph.Refreshed P g) (hg : g.Coherent) :
    ({ e with graph := g } : Engine Journal).Resting := by
  refine ⟨⟨hg, hr.idle h.idle⟩, h.still, fun x hx => ?_⟩
  obtain ⟨n, hn, heffect⟩ := h.queued x (hr.pending ▸ hx)
  obtain ⟨m, hm, -⟩ := hr.find hn
  exact ⟨m, hm, (hr.isEffect hn hm).trans heffect⟩

theorem Resting.batch (h : e.Resting) (batchDepth : Nat) :
    ({ e with batchDepth := batchDepth } : Engine Journal).Resting :=
  ⟨⟨h.coherent, h.idle⟩, h.still, h.queued⟩

/-- A read of a cell that has an outcome brings computeds up to date that have one. -/
theorem Consistent.read (h : e.Consistent) (depth : Nat) {cell : Cell} (tracked : Bool)
    (ends : cell.kind = .computed → e.graph.sheet.forecast.covers cell.node) :
    Yields (e.graph.sheet.Holds cell → e.graph.sheet.forecast.rank cell.node < depth)
      (e.readCell (refreshWithin depth) cell tracked) fun (_, e') => ∃ g tracking,
        e' = { e with graph := g, tracking := tracking } ∧
          e.graph.Refreshed e.graph.sheet.forecast.covers g ∧ g.Coherent := by
  refine (readCell_any (serves_refreshWithin _ depth) h.coherent
    (Sheet.obeys_forecast fun _ _ => value?_of_body?) (Idle.mono h.idle fun _ _ => trivial) ends
    tracked).mono id ?_
  rintro ⟨o, e'⟩ ⟨g, hr, hg, -, ⟨rfl, -⟩ | ⟨rfl, -⟩⟩
  · obtain ⟨tracking, heq⟩ := trackIf_eq { e with graph := g } tracked cell.node
    exact ⟨g, tracking, heq, hr.mono fun x hx => hx.2.1, hg⟩
  · exact ⟨g, e.tracking, rfl, hr.mono fun x hx => hx.2.1, hg⟩

theorem Resting.read (h : e.Resting) {depth : Nat} {cell : Cell} {tracked : Bool} {o : Outcome}
    (ends : cell.kind = .computed → e.graph.sheet.forecast.covers cell.node)
    (read : e.readCell (refreshWithin depth) cell tracked = some (o, e')) :
    e'.Resting ∧ (e.graph.Effectless → e'.graph.Effectless) := by
  obtain ⟨g, tracking, rfl, hr, hg⟩ := (h.toConsistent.read depth tracked ends).1 _ read
  have hresting := h.refreshed hr hg
  exact ⟨⟨⟨hresting.coherent, hresting.idle⟩, hresting.still, hresting.queued⟩,
    fun effectless => effectless.refreshed hr⟩

theorem Visited.resting (visited : Visited mode allowed settings e) : e.Resting := by
  induction visited with
  | reached reached =>
    have hp := reached.poised
    exact ⟨⟨hp.sound.coherent, hp.sound.idle⟩, hp.still, hp.sound.queued⟩
  | newSignal _ proper inserted ih =>
    obtain rfl := congrArg Prod.snd inserted
    exact ih.insertNode (ih.coherent.insertNode proper (by simp) (by simp))
      fun n hn => by simp [Node.isRunning, hn]
  | newComputed _ lawful inserted ih =>
    obtain rfl := congrArg Prod.snd inserted
    refine ih.insertNode (ih.coherent.insertNode .undefined ?_ (by simp))
      fun n hn => by simp [Node.isRunning, hn]
    rintro _ _ _ ⟨⟩
    exact ⟨lawful, rfl, rfl⟩
  | read _ ends read ih => exact (ih.read ends read).1
  | write _ proper effectless written ih =>
    rcases writeSignal_cases written with ⟨-, rfl⟩ | ⟨-, rfl⟩ | ⟨n, old, hn, hk, -, hflush⟩
    · exact ih
    · exact ih
    · have hwritten := ih.written hn hk proper
      obtain rfl := hwritten.flushed (fun rest => (effectless rest).written hn _ _) hflush
      exact hwritten
  | openBatch _ ih => exact ih.batch _
  | @closeBatch e _ _ _ _ opened effectless flushed ih =>
    have hclosed := ih.batch (e.batchDepth - 1)
    obtain rfl := hclosed.flushed (fun rest => effectless (by simp only at rest; omega)) flushed
    exact hclosed

/-- So it remembers nothing that is not so. -/
theorem Visited.consistent (visited : Visited mode allowed settings e) : e.Consistent :=
  visited.resting.toConsistent

/-- A write when there are no effects stores its value and marks, and that is all. -/
theorem exists_writeSignal (still : e.flushing = false)
    (queued : ∀ x ∈ e.graph.pending, ∃ n, e.graph.node? x = some n ∧ n.isEffect = true)
    (effectless : e.graph.Effectless) {id : NodeId} {old value : Value} {freshness : Freshness}
    {sources subscribers : List NodeId} {owner : Option ScopeId}
    (found : e.graph.node? id = some ⟨.signal old, freshness, sources, subscribers, owner⟩)
    (changed : old.equals value = false) : ∃ r, writeSignal (refreshWithin 0) id value e =
      some (r, { e with graph := e.graph.written id value subscribers }) := by
  rcases Nat.eq_zero_or_pos e.batchDepth with rest | held
  · exact ⟨_, (writeSignal_stored (refreshWithin 0) found changed).trans (flush_rest rest still
      (drained_of_effectless (queued_written found rfl _ queued) (effectless.written found _ _)))⟩
  · exact ⟨_, writeSignal_of_held (refreshWithin 0) held found changed⟩

theorem Visited.written (visited : Visited mode allowed settings e) (effectless : e.graph.Effectless)
    {id : NodeId} {old value : Value} {freshness : Freshness} {sources subscribers : List NodeId}
    {owner : Option ScopeId}
    (found : e.graph.node? id = some ⟨.signal old, freshness, sources, subscribers, owner⟩)
    (changed : old.equals value = false) (proper : value.Proper) :
    Visited mode allowed settings { e with graph := e.graph.written id value subscribers } := by
  have hrest := visited.resting
  obtain ⟨r, written⟩ := exists_writeSignal hrest.still hrest.queued effectless found changed
  exact visited.write proper (fun _ => effectless) written

end Engine

end LiveTemplate.Reactive
