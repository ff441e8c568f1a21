import Mathlib
import LiveTemplate.Proofs.Reactive.Frames
import LiveTemplate.Proofs.Reactive.Hearing

/-!
# Back to rest

A body may read and write, open batches and untracked regions, create nodes, and dispose of others or
of itself; reads fail, and flushes give up. Each of these sets back what it changes: a region takes its
frame from the stack, a batch counts down what it counted up, a flush empties the queue and lowers its
flag, a run puts the body back. So an engine at rest is at rest again after every program
(`Engine.run_quiescent`), whatever the outcome.
-/
namespace LiveTemplate.Reactive

variable {σ : Type}

namespace Engine

/-- Nothing is going on: no body runs, no reads are collected, no batch is open, no effect waits. -/
structure Quiescent (e : Engine σ) : Prop where
  /-- The two ends of every edge know of each other. -/
  linked : e.graph.Linked
  tracking : e.tracking = []
  batchDepth : e.batchDepth = 0
  flushing : e.flushing = false
  pending : e.graph.pending = []
  effects : ∀ {x : NodeId} {n : Node (Program σ)}, e.graph.node? x = some n → n.isEffect = true →
    n.freshness = .clean
  idle : ∀ {x : NodeId} {n : Node (Program σ)}, e.graph.node? x = some n → n.isRunning = false

variable {e e' : Engine σ} {evs : List Event}

theorem quiescent_start (settings : Settings) (host : σ) : (start settings host).Quiescent :=
  ⟨Graph.linked_empty, rfl, rfl, rfl, rfl, nofun, nofun⟩

theorem Quiescent.orderly (h : e.Quiescent) : e.Orderly fun _ => False where
  tidy := ⟨h.linked, fun hn heffect hlate => absurd (h.effects hn heffect) hlate⟩
  known := by simp [h.tracking]
  opening _ x n hn _ hrunning := by simp [h.idle hn] at hrunning
  drained _ _ := h.pending

/-- What is orderly and was reached from rest is at rest, if all frames are gone. -/
theorem Quiescent.follow (h : e.Quiescent) (orderly : e'.Orderly fun _ => False)
    (follows : Follows e evs e') (tracking : e'.tracking = []) : e'.Quiescent := by
  have batchDepth : e'.batchDepth = 0 := follows.batchDepth.trans h.batchDepth
  have flushing : e'.flushing = false := follows.flushing.trans h.flushing
  have pending : e'.graph.pending = [] := orderly.drained flushing batchDepth
  refine ⟨orderly.tidy.linked, tracking, batchDepth, flushing, pending, fun hn heffect => ?_,
    fun hn => ?_⟩
  · -- what is late is queued, and nothing is
    by_contra hlate
    rcases orderly.tidy.queued hn heffect hlate with hqueued | hhand
    · simp [pending] at hqueued
    · exact hhand
  · -- whoever runs now ran before
    rw [Bool.eq_false_iff]
    intro hrunning
    obtain ⟨_, hm, persists⟩ := follows.continues.origin hn hrunning
    simp [persists.running, h.idle hm] at hrunning

/-- A course that takes back all its frames comes back to rest. -/
theorem Quiescent.course (h : e.Quiescent) (course : Course .work e evs e')
    (framed : e'.tracking.length = e.tracking.length) : e'.Quiescent := by
  obtain ⟨orderly, follows⟩ := course.upholds _ h.orderly
  have tracking : e'.tracking.length = 0 := by rw [framed, h.tracking, List.length_nil]
  exact h.follow orderly follows (List.length_eq_zero_iff.1 tracking)

/-- After every program an engine that was at rest is at rest again, whether the program succeeded or
failed. -/
theorem run_quiescent {depth : Nat} {p : Program σ} {o : Outcome} (h : e.Quiescent)
    (ran : run depth p e = some (o, e')) : e'.Quiescent := by
  obtain ⟨_, course⟩ := run_course ran
  exact h.course course (run_framed ran).length

/-- So a read of a computed does not find it running. -/
theorem Quiescent.readCell_computed (h : e.Quiescent) (refresh : NodeId → Engine σ → Option (Engine σ))
    {cell : Cell} (sort : cell.kind = .computed) {n : Node (Program σ)} {body : Program σ}
    {running : Bool} {last : Option Outcome} (found : e.graph.node? cell.node = some n)
    (kind : n.kind = .computed body running last) (tracked : Bool) :
    e.readCell refresh cell tracked = (refresh cell.node e).map fun e =>
      (e.shownOutcome cell.node, e.trackIf tracked cell.node) := by
  obtain ⟨_, _, _, _, _⟩ := n
  cases kind
  obtain rfl : running = false := h.idle found
  simp [readCell, sort, found]

namespace Restless

def settings : Settings := ⟨.always, 2, Nat.two_pos⟩

def cell : NodeId := ⟨0, 0⟩

/-- Turns over what it reads, so each run asks for another one. -/
def body : Program Unit :=
  (Program.get ⟨.signal, cell⟩).bind fun
    | .bool b => .set cell (.bool !b)
    | _ => .pure .undefined

/-- In an untracked region of a batch. -/
def session : Program Unit :=
  .newScope none fun _ => .newSignal (.bool false) fun _ => .newEffect ⟨0, 0⟩ body fun _ =>
    .untrack (.batch (.set cell (.bool false)) .done) .done

def after : Engine Unit :=
  ((run 5 session (start settings ())).get (by cbv)).2

end Restless

/-- A flush gives up on an effect that would run forever. -/
theorem run_quiescent_unsettled :
    run 5 Restless.session (start Restless.settings ()) =
        some (.error (.reactive (.unsettled 2)), Restless.after) ∧
      Restless.after.Quiescent := by
  have ran : run 5 Restless.session (start Restless.settings ()) =
      some (.error (.reactive (.unsettled 2)), Restless.after) := by cbv
  exact ⟨ran, run_quiescent (quiescent_start Restless.settings ()) ran⟩

end Engine

end LiveTemplate.Reactive
