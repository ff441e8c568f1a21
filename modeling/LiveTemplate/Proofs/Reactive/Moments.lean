import Mathlib.Logic.Relation
import LiveTemplate.Proofs.Reactive.Writing

/-!
# Moments

The engine as a machine that can be looked at in the middle of its work. A `Moment` is what is being
done, what waits for it, and the state of the engine; a `Step` leads to the next moment. The bodies
that are running stand on the stack of what waits, so a moment inside nested runs, batches and
untracked regions is a moment like any other.

A program runs to where the steps from it lead (`Engine.run_steps`), and a moment has one next moment
at most (`Moment.Step.functional`), so these are the moments that every run passes.
-/
namespace LiveTemplate.Reactive

variable {σ : Type}

/-- What is done with the answer to a read. -/
inductive Reader (σ : Type) where
  | program (next : Outcome → Program σ)
  /-- Cells are being followed; these nodes were met. -/
  | chain (visited : List NodeId) (next : Outcome → Program σ)

inductive Task (σ : Type) where
  | work (p : Program σ)
  | read (cell : Cell) (tracked : Bool) (reader : Reader σ)
  | follow (visited : List NodeId) (value : Value) (next : Outcome → Program σ)
  | refresh (id : NodeId)
  /-- The sources of a stale node are asked, these of them next. -/
  | ask (id : NodeId) (sources : List NodeId)
  /-- One of the sources has been asked. -/
  | asked (id : NodeId) (rest : List NodeId)
  /-- The sources of a node need not be asked any more. -/
  | settle (id : NodeId)
  | refreshed
  | flush
  /-- Queued effects are run, so many at most, out of so many. -/
  | drain (limit runs : Nat)
  | flushed (r : Except Fault Unit)

/-- What waits for a task to be over. -/
inductive Caller (σ : Type) where
  | reading (cell : Cell) (tracked : Bool) (reader : Reader σ)
  | asking (id : NodeId) (rest : List NodeId)
  /-- The node is in the middle of a run. -/
  | computing (id : NodeId)
  | performing (id : NodeId)
  | creating (id : NodeId) (next : Except Fault NodeId → Program σ)
  | batching (next : Outcome → Program σ)
  /-- The body of a batch has ended, and the queue is flushed. -/
  | closing (outcome : Outcome) (next : Outcome → Program σ)
  | untracking (next : Outcome → Program σ)
  | writing (next : Except Fault Unit → Program σ)
  | draining (limit runs : Nat)

structure Moment (σ : Type) where
  task : Task σ
  /-- The innermost first. -/
  callers : List (Caller σ)
  engine : Engine σ

def Reader.resume (answer : Outcome) (cell : Cell) : Reader σ → Task σ
  | program next => .work (next answer)
  | chain visited next =>
    match answer with
    | .ok value => .follow (cell.node :: visited) value next
    | .error fault => .work (next (.error fault))

namespace Moment

open Program in
/-- One moment comes after the other. -/
inductive Step : Moment σ → Moment σ → Prop where
  -- what programs ask for
  | read {cell tracked next k e} :
      Step ⟨.work (read cell tracked next), k, e⟩ ⟨.read cell tracked (.program next), k, e⟩
  | unwrap {value next k e} : Step ⟨.work (unwrap value next), k, e⟩ ⟨.follow [] value next, k, e⟩
  | writeGone {id value next k} {e : Engine σ}
      (gone : ∀ n old, e.graph.node? id = some n → n.kind ≠ .signal old) :
      Step ⟨.work (write id value next), k, e⟩
        ⟨.work (next (.error (.reactive (.disposed .signal)))), k, e⟩
  | writeSame {id value next k old} {e : Engine σ} {n} (found : e.graph.node? id = some n)
      (kind : n.kind = .signal old)
      (same : (e.settings.writeEquality = .skipEqual && old.equals value) = true) :
      Step ⟨.work (write id value next), k, e⟩ ⟨.work (next (.ok ())), k, e⟩
  | write {id value next k old} {e : Engine σ} {n} (found : e.graph.node? id = some n)
      (kind : n.kind = .signal old)
      (other : (e.settings.writeEquality = .skipEqual && old.equals value) = false) :
      Step ⟨.work (write id value next), k, e⟩
        ⟨.flush, .writing next :: k, { e with graph := e.graph.written id value n.subscribers }⟩
  | newSignal {value next k} {e : Engine σ} :
      Step ⟨.work (newSignal value next), k, e⟩
        ⟨.work (next (e.graph.insertNode (.signal value) .clean none).1), k,
          { e with graph := (e.graph.insertNode (.signal value) .clean none).2 }⟩
  | newComputed {body next k} {e : Engine σ} :
      Step ⟨.work (newComputed none body next), k, e⟩
        ⟨.work (next (.ok (e.graph.insertNode (.computed body false none) .dirty none).1)), k,
          { e with graph := (e.graph.insertNode (.computed body false none) .dirty none).2 }⟩
  | newOwnedComputed {owner body next k id g} {e : Engine σ}
      (inserted : e.graph.insertOwned (.computed body false none) owner = some (id, g)) :
      Step ⟨.work (newComputed (some owner) body next), k, e⟩
        ⟨.work (next (.ok id)), k, { e with graph := g }⟩
  | computedRefused {owner body next k} {e : Engine σ}
      (refused : e.graph.insertOwned (.computed body false none) owner = none) :
      Step ⟨.work (newComputed (some owner) body next), k, e⟩
        ⟨.work (next (.error (.reactive (.disposed .scope)))), k, e⟩
  | newEffect {owner body next k id g} {e : Engine σ}
      (inserted : e.graph.insertOwned (.effect body false) owner = some (id, g)) :
      Step ⟨.work (newEffect owner body next), k, e⟩
        ⟨.refresh id, .creating id next :: k, { e with graph := g }⟩
  | effectRefused {owner body next k} {e : Engine σ}
      (refused : e.graph.insertOwned (.effect body false) owner = none) :
      Step ⟨.work (newEffect owner body next), k, e⟩
        ⟨.work (next (.error (.reactive (.disposed .scope)))), k, e⟩
  | newScope {next k} {e : Engine σ} :
      Step ⟨.work (newScope none next), k, e⟩
        ⟨.work (next (.ok e.graph.insertScope.1)), k, { e with graph := e.graph.insertScope.2 }⟩
  | newChildScope {parent next k id g} {e : Engine σ}
      (inserted : e.graph.insertChildScope parent = some (id, g)) :
      Step ⟨.work (newScope (some parent) next), k, e⟩
        ⟨.work (next (.ok id)), k, { e with graph := g }⟩
  | scopeRefused {parent next k} {e : Engine σ}
      (refused : e.graph.insertChildScope parent = none) :
      Step ⟨.work (newScope (some parent) next), k, e⟩
        ⟨.work (next (.error (.reactive (.disposed .scope)))), k, e⟩
  | disposeNode {id next k} {e : Engine σ} :
      Step ⟨.work (disposeNode id next), k, e⟩
        ⟨.work next, k, { e with graph := e.graph.removeNode id }⟩
  | disposeScope {id next k} {e : Engine σ} :
      Step ⟨.work (disposeScope id next), k, e⟩
        ⟨.work next, k, { e with graph := e.graph.removeScope id }⟩
  | batch {body next k} {e : Engine σ} :
      Step ⟨.work (batch body next), k, e⟩
        ⟨.work body, .batching next :: k, { e with batchDepth := e.batchDepth + 1 }⟩
  | untrack {body next k} {e : Engine σ} :
      Step ⟨.work (untrack body next), k, e⟩
        ⟨.work body, .untracking next :: k, e.pushFrame none⟩
  | number {next k} {e : Engine σ} :
      Step ⟨.work (fresh next), k, e⟩
        ⟨.work (next e.identities), k, { e with identities := e.identities + 1 }⟩
  | inspect {next k} {e : Engine σ} : Step ⟨.work (inspect next), k, e⟩ ⟨.work (next e.view), k, e⟩
  | consult {next k} {e : Engine σ} : Step ⟨.work (consult next), k, e⟩ ⟨.work (next e.host), k, e⟩
  | adjust {change next k} {e : Engine σ} :
      Step ⟨.work (adjust change next), k, e⟩ ⟨.work next, k, { e with host := change e.host }⟩
  -- reads
  | readSignal {cell tracked reader k value} {e : Engine σ} {n} (signal : cell.kind = .signal)
      (found : e.graph.node? cell.node = some n) (kind : n.kind = .signal value) :
      Step ⟨.read cell tracked reader, k, e⟩
        ⟨reader.resume (.ok value) cell, k, e.trackIf tracked cell.node⟩
  | readNoSignal {cell tracked reader k} {e : Engine σ} (signal : cell.kind = .signal)
      (gone : ∀ n value, e.graph.node? cell.node = some n → n.kind ≠ .signal value) :
      Step ⟨.read cell tracked reader, k, e⟩
        ⟨reader.resume (.error (.reactive (.disposed .signal))) cell, k, e⟩
  | readRunning {cell tracked reader k body last} {e : Engine σ} {n} (computed : cell.kind = .computed)
      (found : e.graph.node? cell.node = some n) (kind : n.kind = .computed body true last) :
      Step ⟨.read cell tracked reader, k, e⟩
        ⟨reader.resume (.error (.reactive .cyclic)) cell, k, e⟩
  | readComputed {cell tracked reader k body last} {e : Engine σ} {n}
      (computed : cell.kind = .computed) (found : e.graph.node? cell.node = some n)
      (kind : n.kind = .computed body false last) :
      Step ⟨.read cell tracked reader, k, e⟩
        ⟨.refresh cell.node, .reading cell tracked reader :: k, e⟩
  | readNoComputed {cell tracked reader k} {e : Engine σ} (computed : cell.kind = .computed)
      (gone : ∀ n body running last, e.graph.node? cell.node = some n →
        n.kind ≠ .computed body running last) :
      Step ⟨.read cell tracked reader, k, e⟩
        ⟨reader.resume (.error (.reactive (.disposed .computed))) cell, k, e⟩
  | answered {cell tracked reader k} {e : Engine σ} :
      Step ⟨.refreshed, .reading cell tracked reader :: k, e⟩
        ⟨reader.resume (e.shownOutcome cell.node) cell, k, e.trackIf tracked cell.node⟩
  | reached {visited value next k} {e : Engine σ} (plain : ∀ cell, value ≠ .cell cell) :
      Step ⟨.follow visited value next, k, e⟩ ⟨.work (next (.ok value)), k, e⟩
  | circle {visited cell next k} {e : Engine σ} (met : cell.node ∈ visited) :
      Step ⟨.follow visited (.cell cell) next, k, e⟩
        ⟨.work (next (.error (.reactive .cyclic))), k, e⟩
  | follow {visited cell next k} {e : Engine σ} (new : cell.node ∉ visited) :
      Step ⟨.follow visited (.cell cell) next, k, e⟩ ⟨.read cell true (.chain visited next), k, e⟩
  -- bringing a node up to date
  | stale {id k} {e : Engine σ} {n} (found : e.graph.node? id = some n) (stale : n.freshness = .stale) :
      Step ⟨.refresh id, k, e⟩ ⟨.ask id n.sources, k, e⟩
  | known {id k} {e : Engine σ} (known : e.graph.freshness? id ≠ some .stale) :
      Step ⟨.refresh id, k, e⟩ ⟨.settle id, k, e⟩
  | allAsked {id k} {e : Engine σ} : Step ⟨.ask id [], k, e⟩ ⟨.settle id, k, e⟩
  | ask {id source rest k} {e : Engine σ}
      (idle : (e.graph.node? source).any Node.isIdleComputed = true) :
      Step ⟨.ask id (source :: rest), k, e⟩ ⟨.refresh source, .asking id rest :: k, e⟩
  | skip {id source rest k} {e : Engine σ}
      (busy : (e.graph.node? source).any Node.isIdleComputed = false) :
      Step ⟨.ask id (source :: rest), k, e⟩ ⟨.asked id rest, k, e⟩
  | told {id rest k} {e : Engine σ} : Step ⟨.refreshed, .asking id rest :: k, e⟩ ⟨.asked id rest, k, e⟩
  | changed {id rest k} {e : Engine σ} (dirty : e.graph.freshness? id = some .dirty) :
      Step ⟨.asked id rest, k, e⟩ ⟨.settle id, k, e⟩
  | unchanged {id rest k} {e : Engine σ} (higher : e.graph.freshness? id ≠ some .dirty) :
      Step ⟨.asked id rest, k, e⟩ ⟨.ask id rest, k, e⟩
  | upToDate {id k} {e : Engine σ} (dirty : e.graph.freshness? id ≠ some .dirty)
      (stale : e.graph.freshness? id ≠ some .stale) : Step ⟨.settle id, k, e⟩ ⟨.refreshed, k, e⟩
  | cleaned {id k} {e : Engine σ} (stale : e.graph.freshness? id = some .stale) :
      Step ⟨.settle id, k, e⟩ ⟨.refreshed, k, { e with graph := e.graph.setFreshness id .clean }⟩
  | busy {id k} {e : Engine σ} {n} (found : e.graph.node? id = some n) (dirty : n.freshness = .dirty)
      (busy : n.isRunning = true ∨ ∃ value, n.kind = .signal value) :
      Step ⟨.settle id, k, e⟩ ⟨.refreshed, k, e⟩
  | compute {id k body last} {e : Engine σ} {n} (found : e.graph.node? id = some n)
      (dirty : n.freshness = .dirty) (kind : n.kind = .computed body false last) :
      Step ⟨.settle id, k, e⟩
        ⟨.work body, .computing id :: k, e.beginRun id (.computed body true last)⟩
  | perform {id k body} {e : Engine σ} {n} (found : e.graph.node? id = some n)
      (dirty : n.freshness = .dirty) (kind : n.kind = .effect body false) :
      Step ⟨.settle id, k, e⟩ ⟨.work body, .performing id :: k, e.beginRun id (.effect body true)⟩
  | computed {o id k} {e : Engine σ} :
      Step ⟨.work (done o), .computing id :: k, e⟩
        ⟨.refreshed, k, (e.closeRun id).storeOutcome id o⟩
  | performed {o id k} {e : Engine σ} :
      Step ⟨.work (done o), .performing id :: k, e⟩ ⟨.refreshed, k, (e.closeRun id).restEffect id⟩
  | created {id next k} {e : Engine σ} :
      Step ⟨.refreshed, .creating id next :: k, e⟩ ⟨.work (next (.ok id)), k, e⟩
  -- flushing
  | held {k} {e : Engine σ} (held : (e.batchDepth > 0 || e.flushing) = true) :
      Step ⟨.flush, k, e⟩ ⟨.flushed (.ok ()), k, e⟩
  | flush {k} {e : Engine σ} (free : (e.batchDepth > 0 || e.flushing) = false) :
      Step ⟨.flush, k, e⟩
        ⟨.drain e.settings.maxRuns e.settings.maxRuns, k, { e with flushing := true }⟩
  | drained {limit runs k} {e : Engine σ} (empty : e.dequeue = none) :
      Step ⟨.drain limit runs, k, e⟩ ⟨.flushed (.ok ()), k, { e with flushing := false }⟩
  | gaveUp {limit k next} {e : Engine σ} (waiting : e.dequeue = some next) :
      Step ⟨.drain limit 0, k, e⟩
        ⟨.flushed (.error (.reactive (.unsettled limit))), k, { e.dropQueue with flushing := false }⟩
  | dequeue {limit runs k id e'} {e : Engine σ} (waiting : e.dequeue = some (id, e')) :
      Step ⟨.drain limit (runs + 1), k, e⟩ ⟨.refresh id, .draining limit runs :: k, e'⟩
  | turn {limit runs k} {e : Engine σ} :
      Step ⟨.refreshed, .draining limit runs :: k, e⟩ ⟨.drain limit runs, k, e⟩
  -- going on with a program
  | written {r next k} {e : Engine σ} :
      Step ⟨.flushed r, .writing next :: k, e⟩ ⟨.work (next r), k, e⟩
  | close {o next k} {e : Engine σ} :
      Step ⟨.work (done o), .batching next :: k, e⟩
        ⟨.flush, .closing o next :: k, { e with batchDepth := e.batchDepth - 1 }⟩
  | closed {r o next k} {e : Engine σ} :
      Step ⟨.flushed r, .closing o next :: k, e⟩ ⟨.work (next (r.bind fun () => o)), k, e⟩
  | tracked {o next k} {e : Engine σ} :
      Step ⟨.work (done o), .untracking next :: k, e⟩ ⟨.work (next o), k, e.popFrame⟩

/-- No moment has two next ones. -/
theorem Step.functional {m m₁ m₂ : Moment σ} (h : Step m m₁) (h' : Step m m₂) : m₁ = m₂ := by
  cases h <;> cases h' <;> simp_all <;> simp_all [Graph.freshness?, Node.isRunning]

abbrev Steps : Moment σ → Moment σ → Prop := Relation.ReflTransGen Step

/-! ## What a program runs to -/

/-- Steps lead through bringing a node up to date. -/
def Refreshes (refresh : NodeId → Engine σ → Option (Engine σ)) : Prop :=
  ∀ {id : NodeId} {e e' : Engine σ} (k : List (Caller σ)), refresh id e = some e' →
    Steps ⟨.refresh id, k, e⟩ ⟨.refreshed, k, e'⟩

section Nested

variable {refresh : NodeId → Engine σ → Option (Engine σ)} {k : List (Caller σ)}

theorem readCell_steps (refreshes : Refreshes refresh) {cell : Cell} {tracked : Bool}
    {reader : Reader σ} {e e' : Engine σ} {o : Outcome}
    (h : e.readCell refresh cell tracked = some (o, e')) :
    Steps ⟨.read cell tracked reader, k, e⟩ ⟨reader.resume o cell, k, e'⟩ := by
  unfold Engine.readCell at h
  split at h
  next hcell =>
    split at h
    next hn =>
      obtain ⟨rfl, rfl⟩ := Prod.mk.inj (Option.some.inj h)
      exact .single (.readSignal hcell hn rfl)
    next hgone =>
      obtain ⟨rfl, rfl⟩ := Prod.mk.inj (Option.some.inj h)
      refine .single (.readNoSignal hcell ?_)
      rintro ⟨_, _, _, _, _⟩ value hn rfl
      exact hgone _ _ _ _ _ hn
  next hcell =>
    split at h
    next hn =>
      obtain ⟨rfl, rfl⟩ := Prod.mk.inj (Option.some.inj h)
      exact .single (.readRunning hcell hn rfl)
    next hn =>
      obtain ⟨e₁, h₁, he⟩ := Option.map_eq_some_iff.1 h
      obtain ⟨rfl, rfl⟩ := Prod.mk.inj he
      exact .head (.readComputed hcell hn rfl) ((refreshes _ h₁).tail .answered)
    next hrunning hidle =>
      obtain ⟨rfl, rfl⟩ := Prod.mk.inj (Option.some.inj h)
      refine .single (.readNoComputed hcell ?_)
      rintro ⟨_, _, _, _, _⟩ body running last hn rfl
      cases running
      · exact hidle _ _ _ _ _ _ hn
      · exact hrunning _ _ _ _ _ _ hn

theorem follow_steps (refreshes : Refreshes refresh) {steps : Nat} {visited : List NodeId}
    {value : Value} {next : Outcome → Program σ} {e e' : Engine σ} {o : Outcome}
    (h : e.follow refresh steps visited value = some (o, e')) :
    Steps ⟨.follow visited value next, k, e⟩ ⟨.work (next o), k, e'⟩ := by
  fun_induction Engine.follow refresh steps visited value e with
  | case1 _ _ _ _ hmet =>
    obtain ⟨rfl, rfl⟩ := Prod.mk.inj (Option.some.inj h)
    exact .single (.circle hmet)
  | case2 => cases h
  | case3 => cases h
  | case4 _ _ _ hnew _ _ _ hread =>
    obtain ⟨rfl, rfl⟩ := Prod.mk.inj (Option.some.inj h)
    exact .head (.follow hnew) (readCell_steps refreshes hread)
  | case5 _ _ _ hnew _ _ _ hread ih =>
    exact .head (.follow hnew) ((readCell_steps refreshes hread).trans (ih h))
  | case6 _ _ _ _ hplain =>
    obtain ⟨rfl, rfl⟩ := Prod.mk.inj (Option.some.inj h)
    exact .single (.reached hplain)

theorem drain_steps (refreshes : Refreshes refresh) {limit runs : Nat} {e e' : Engine σ}
    {settled : Bool} (h : Engine.drain refresh runs e = some (settled, e')) :
    Steps ⟨.drain limit runs, k, e⟩
      ⟨.flushed (if settled then .ok () else .error (.reactive (.unsettled limit))), k,
        { e' with flushing := false }⟩ := by
  refine Engine.drain_turns (motive := fun runs e r => r = some (settled, e') →
      Steps ⟨.drain limit runs, k, e⟩
        ⟨.flushed (if settled then .ok () else .error (.reactive (.unsettled limit))), k,
          { e' with flushing := false }⟩)
    (fun hempty h => ?_) (fun hwaiting h => ?_) (fun hwaiting ih h => ?_) runs e h
  · obtain ⟨rfl, rfl⟩ := Prod.mk.inj (Option.some.inj h)
    exact .single (.drained hempty)
  · obtain ⟨rfl, rfl⟩ := Prod.mk.inj (Option.some.inj h)
    exact .single (.gaveUp hwaiting)
  · obtain ⟨e₁, hfirst, hothers⟩ := Option.bind_eq_some_iff.1 h
    exact .head (.dequeue hwaiting) (((refreshes _ hfirst).tail .turn).trans (ih e₁ hothers))

theorem flush_steps (refreshes : Refreshes refresh) {e e' : Engine σ} {r : Except Fault Unit}
    (h : Engine.flush refresh e = some (r, e')) :
    Steps ⟨.flush, k, e⟩ ⟨.flushed r, k, e'⟩ := by
  unfold Engine.flush at h
  split at h
  next hheld =>
    obtain ⟨rfl, rfl⟩ := Prod.mk.inj (Option.some.inj h)
    exact .single (.held hheld)
  next hfree =>
    obtain ⟨⟨settled, e₁⟩, hdrain, he⟩ := Option.map_eq_some_iff.1 h
    obtain ⟨rfl, rfl⟩ := Prod.mk.inj he
    exact .head (.flush (Bool.eq_false_iff.2 hfree)) (drain_steps refreshes hdrain)

theorem writeSignal_steps (refreshes : Refreshes refresh) {id : NodeId} {value : Value}
    {next : Except Fault Unit → Program σ} {e e' : Engine σ} {r : Except Fault Unit}
    (h : e.writeSignal refresh id value = some (r, e')) :
    Steps ⟨.work (.write id value next), k, e⟩ ⟨.work (next r), k, e'⟩ := by
  unfold Engine.writeSignal at h
  split at h
  next hn =>
    split at h
    next hsame =>
      obtain ⟨rfl, rfl⟩ := Prod.mk.inj (Option.some.inj h)
      exact .single (.writeSame hn rfl hsame)
    next hother =>
      exact .head (.write hn rfl (Bool.eq_false_iff.2 hother)) ((flush_steps refreshes h).tail .written)
  next hgone =>
    obtain ⟨rfl, rfl⟩ := Prod.mk.inj (Option.some.inj h)
    refine .single (.writeGone ?_)
    rintro ⟨_, _, _, _, _⟩ old hn rfl
    exact hgone _ _ _ _ _ hn

theorem askSources_steps (refreshes : Refreshes refresh) {id : NodeId} {sources : List NodeId}
    {e e' : Engine σ} (h : Engine.askSources refresh id sources e = some e') :
    Steps ⟨.ask id sources, k, e⟩ ⟨.settle id, k, e'⟩ := by
  induction sources generalizing e with
  | nil =>
    obtain rfl := Option.some.inj h
    exact .single .allAsked
  | cons source rest ih =>
    obtain ⟨e₁, hfirst, hrest⟩ := Option.bind_eq_some_iff.1 h
    have hasked : Steps ⟨.ask id (source :: rest), k, e⟩ ⟨.asked id rest, k, e₁⟩ := by
      split at hfirst
      next hidle => exact .head (.ask hidle) ((refreshes _ hfirst).tail .told)
      next hbusy =>
        obtain rfl := Option.some.inj hfirst
        exact .single (.skip (Bool.eq_false_iff.2 hbusy))
    split at hrest
    next hdirty =>
      obtain rfl := Option.some.inj hrest
      exact hasked.tail (.changed hdirty)
    next hhigher => exact (hasked.tail (.unchanged hhigher)).trans (ih hrest)

theorem exec_steps (refreshes : Refreshes refresh) {depth : Nat} {p : Program σ} {e e' : Engine σ}
    {o : Outcome} (h : p.exec depth refresh e = some (o, e')) :
    Steps ⟨.work p, k, e⟩ ⟨.work (.done o), k, e'⟩ := by
  induction p generalizing k e e' o with
  | done =>
    obtain ⟨rfl, rfl⟩ := Prod.mk.inj (Option.some.inj h)
    exact .refl
  | read cell tracked next ih =>
    obtain ⟨⟨r, e₁⟩, hread, hrest⟩ := Option.bind_eq_some_iff.1 h
    exact .head .read ((readCell_steps refreshes hread).trans (ih _ hrest))
  | unwrap value next ih =>
    obtain ⟨⟨r, e₁⟩, hfollow, hrest⟩ := Option.bind_eq_some_iff.1 h
    exact .head .unwrap ((follow_steps refreshes hfollow).trans (ih _ hrest))
  | write signal value next ih =>
    obtain ⟨⟨r, e₁⟩, hwrite, hrest⟩ := Option.bind_eq_some_iff.1 h
    exact (writeSignal_steps refreshes hwrite).trans (ih _ hrest)
  | newSignal value next ih => exact .head .newSignal (ih _ h)
  | newComputed owner body next _ ih =>
    cases owner with
    | none => exact .head .newComputed (ih _ h)
    | some owner =>
      rw [Program.exec] at h
      split at h
      next hrefused => exact .head (.computedRefused hrefused) (ih _ h)
      next hinserted => exact .head (.newOwnedComputed hinserted) (ih _ h)
  | newEffect owner body next _ ih =>
    rw [Program.exec] at h
    split at h
    next hrefused => exact .head (.effectRefused hrefused) (ih _ h)
    next hinserted =>
      obtain ⟨e₁, hfirst, hrest⟩ := Option.bind_eq_some_iff.1 h
      exact .head (.newEffect hinserted) (((refreshes _ hfirst).tail .created).trans (ih _ hrest))
  | newScope parent next ih =>
    cases parent with
    | none => exact .head .newScope (ih _ h)
    | some parent =>
      rw [Program.exec] at h
      split at h
      next hrefused => exact .head (.scopeRefused hrefused) (ih _ h)
      next hinserted => exact .head (.newChildScope hinserted) (ih _ h)
  | disposeNode id next ih => exact .head .disposeNode (ih h)
  | disposeScope id next ih => exact .head .disposeScope (ih h)
  | batch body next ihBody ih =>
    obtain ⟨⟨r, e₁⟩, hbody, h⟩ := Option.bind_eq_some_iff.1 h
    obtain ⟨⟨f, e₂⟩, hflush, hrest⟩ := Option.bind_eq_some_iff.1 h
    exact .head .batch (((ihBody hbody).tail .close).trans
      (((flush_steps refreshes hflush).tail .closed).trans (ih _ hrest)))
  | untrack body next ihBody ih =>
    obtain ⟨⟨r, e₁⟩, hbody, hrest⟩ := Option.bind_eq_some_iff.1 h
    exact .head .untrack (((ihBody hbody).tail .tracked).trans (ih _ hrest))
  | fresh next ih => exact .head .number (ih _ h)
  | inspect next ih => exact .head .inspect (ih _ h)
  | consult next ih => exact .head .consult (ih _ h)
  | adjust change next ih => exact .head .adjust (ih h)

theorem runNode_steps (refreshes : Refreshes refresh) {depth : Nat} {id : NodeId} {e e' : Engine σ}
    (dirty : e.graph.freshness? id = some .dirty) (h : Engine.runNode depth refresh id e = some e') :
    Steps ⟨.settle id, k, e⟩ ⟨.refreshed, k, e'⟩ := by
  obtain ⟨n, hn, hdirty⟩ := Option.map_eq_some_iff.1 dirty
  obtain ⟨kind, freshness, sources, subscribers, owner⟩ := n
  unfold Engine.runNode at h
  simp only [hn] at h
  split at h
  next hkind =>
    obtain ⟨⟨outcome, e₁⟩, hbody, rfl⟩ := Option.map_eq_some_iff.1 h
    obtain ⟨rfl, -⟩ := Node.mk.inj (Option.some.inj hkind)
    exact .head (.compute hn hdirty rfl) ((exec_steps refreshes hbody).tail .computed)
  next hkind =>
    obtain ⟨⟨outcome, e₁⟩, hbody, rfl⟩ := Option.map_eq_some_iff.1 h
    obtain ⟨rfl, -⟩ := Node.mk.inj (Option.some.inj hkind)
    exact .head (.perform hn hdirty rfl) ((exec_steps refreshes hbody).tail .performed)
  next hcomputed heffect =>
    obtain rfl := Option.some.inj h
    refine .single (.busy hn hdirty ?_)
    cases kind with
    | signal value => exact .inr ⟨value, rfl⟩
    | computed body running last =>
      cases running
      · exact absurd rfl (hcomputed _ _ _ _ _ _)
      · exact .inl rfl
    | effect body running =>
      cases running
      · exact absurd rfl (heffect _ _ _ _ _)
      · exact .inl rfl

theorem refreshOver_steps (refreshes : Refreshes refresh) {depth : Nat} {id : NodeId}
    {e e' : Engine σ} (h : Engine.refreshOver depth refresh id e = some e') :
    Steps ⟨.refresh id, k, e⟩ ⟨.refreshed, k, e'⟩ := by
  obtain ⟨e₁, hasked, hsettled⟩ := Option.bind_eq_some_iff.1 h
  have hasked : Steps ⟨.refresh id, k, e⟩ ⟨.settle id, k, e₁⟩ := by
    split at hasked
    next n hn =>
      split at hasked
      next hstale => exact .head (.stale hn hstale) (askSources_steps refreshes hasked)
      next hknown =>
        obtain rfl := Option.some.inj hasked
        exact .single (.known (by simpa [Graph.freshness?, hn] using hknown))
    next hn =>
      obtain rfl := Option.some.inj hasked
      exact .single (.known (by simp [Graph.freshness?, hn]))
  refine hasked.trans ?_
  split at hsettled
  next hdirty => exact runNode_steps refreshes hdirty hsettled
  next hstale =>
    obtain rfl := Option.some.inj hsettled
    exact .single (.cleaned hstale)
  next hdirty hstale =>
    obtain rfl := Option.some.inj hsettled
    exact .single (.upToDate hdirty hstale)

end Nested

theorem refreshes_refreshWithin (depth : Nat) :
    Refreshes (Engine.refreshWithin (σ := σ) depth) := by
  induction depth with
  | zero => exact fun _ => nofun
  | succ depth ih => exact fun _ => refreshOver_steps ih

/-- Steps that go on as far as they can lead to one moment. -/
theorem Steps.unique {m m₁ m₂ : Moment σ} (h₁ : Steps m m₁) (h₂ : Steps m m₂)
    (last₁ : ∀ m', ¬Step m₁ m') (last₂ : ∀ m', ¬Step m₂ m') : m₁ = m₂ := by
  have right : Relator.RightUnique (fun m m' : Moment σ => Step m m') := fun _ _ _ => Step.functional
  rcases Relation.ReflTransGen.total_of_right_unique right h₁ h₂ with h | h
  · exact h.cases_head.resolve_right fun ⟨m', hstep, _⟩ => last₁ m' hstep
  · exact (h.cases_head.resolve_right fun ⟨m', hstep, _⟩ => last₂ m' hstep).symm

end Moment

/-- The depth does not matter to where bringing a node up to date leads. -/
theorem Engine.refreshWithin_agree {depth depth' : Nat} {id : NodeId} {e e₁ e₂ : Engine σ}
    (h₁ : refreshWithin depth id e = some e₁) (h₂ : refreshWithin depth' id e = some e₂) : e₁ = e₂ := by
  have last (e : Engine σ) (m : Moment σ) : ¬Moment.Step ⟨.refreshed, [], e⟩ m := nofun
  have steps₁ := Moment.refreshes_refreshWithin depth [] h₁
  have steps₂ := Moment.refreshes_refreshWithin depth' [] h₂
  exact congrArg Moment.engine (steps₁.unique steps₂ (last e₁) (last e₂))

/-- The steps from a program lead to where it runs to. -/
theorem Engine.run_steps {depth : Nat} {p : Program σ} {e e' : Engine σ} {o : Outcome}
    (h : Engine.run depth p e = some (o, e')) (k : List (Caller σ)) :
    Moment.Steps ⟨.work p, k, e⟩ ⟨.work (.done o), k, e'⟩ :=
  Moment.exec_steps (Moment.refreshes_refreshWithin depth) h

theorem Engine.run_agree {depth depth' : Nat} {p : Program σ} {e e₁ e₂ : Engine σ} {o₁ o₂ : Outcome}
    (h₁ : run depth p e = some (o₁, e₁)) (h₂ : run depth' p e = some (o₂, e₂)) : o₁ = o₂ ∧ e₁ = e₂ := by
  have last (o : Outcome) (e : Engine σ) (m : Moment σ) : ¬Moment.Step ⟨.work (.done o), [], e⟩ m :=
    nofun
  have heq := (run_steps h₁ []).unique (run_steps h₂ []) (last o₁ e₁) (last o₂ e₂)
  injection heq with htask _ hengine
  injection htask with hprogram
  injection hprogram with houtcome
  exact ⟨houtcome, hengine⟩

end LiveTemplate.Reactive
