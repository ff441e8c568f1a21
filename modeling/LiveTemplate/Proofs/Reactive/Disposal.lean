import LiveTemplate.Proofs.Reactive.Invariance

/-!
# Disposing of a scope

A scope is disposed of together with what is within it, and nothing else is lost with it
(`Moment.Reached.disposes`), whatever is running meanwhile. It is gone for good: whatever is done
afterwards, no body of a removed node begins to run, what is running comes to nothing when it ends,
and the handles of removed nodes and scopes are refused.
-/
namespace LiveTemplate.Reactive

variable {σ : Type}

/-- The run of this node waits for its body to end. -/
def Caller.runs? : Caller σ → Option NodeId
  | .computing id => some id
  | .performing id => some id
  | _ => none

/-- The body of the node begins to run. -/
def Moment.Begins (m m' : Moment σ) (x : NodeId) : Prop :=
  ∃ c, c.runs? = some x ∧ m'.callers = c :: m.callers

theorem Graph.removeScope_gone {β : Type} {g : Graph β} {s : ScopeId} (gone : g.scope? s = none) :
    g.removeScope s = g := by
  rw [removeScope, remove]
  split
  next => rw [remove]
  next record h => simp [scope?, h] at gone

namespace Engine

open Moment

/-- The node is gone, and this is what comes of it where it is still known. -/
structure Misses (e : Engine σ) (x : NodeId) : Prop where
  idle : ∀ {task k m}, Step ⟨task, k, e⟩ m → ¬Begins ⟨task, k, e⟩ m x
  /-- A run that was in progress stores no value and records no edge. -/
  computed : ∀ {o k}, Step ⟨.work (.done o), .computing x :: k, e⟩
    ⟨.refreshed, k, { e with tracking := e.tracking.drop 1 }⟩
  performed : ∀ {o k}, Step ⟨.work (.done o), .performing x :: k, e⟩
    ⟨.refreshed, k, { e with tracking := e.tracking.drop 1 }⟩
  read : ∀ {tracked reader k}, Step ⟨.read ⟨.computed, x⟩ tracked reader, k, e⟩
    ⟨reader.resume (.error (.reactive (.disposed .computed))) ⟨.computed, x⟩, k, e⟩
  /-- Nor is there an answer to a read that was in progress. -/
  answered : ∀ {tracked reader k}, Step ⟨.refreshed, .reading ⟨.computed, x⟩ tracked reader :: k, e⟩
    ⟨reader.resume (.error (.reactive (.disposed .computed))) ⟨.computed, x⟩, k, e.trackIf tracked x⟩
  disposed : ∀ {next k}, Step ⟨.work (.disposeNode x next), k, e⟩ ⟨.work next, k, e⟩

/-- The scope is gone: nothing can be made in it, and disposing of it again does nothing. -/
structure MissesScope (e : Engine σ) (s : ScopeId) : Prop where
  newComputed : ∀ {body next k}, Step ⟨.work (.newComputed (some s) body next), k, e⟩
    ⟨.work (next (.error (.reactive (.disposed .scope)))), k, e⟩
  newEffect : ∀ {body next k}, Step ⟨.work (.newEffect s body next), k, e⟩
    ⟨.work (next (.error (.reactive (.disposed .scope)))), k, e⟩
  newScope : ∀ {next k}, Step ⟨.work (.newScope (some s) next), k, e⟩
    ⟨.work (next (.error (.reactive (.disposed .scope)))), k, e⟩
  disposed : ∀ {next k}, Step ⟨.work (.disposeScope s next), k, e⟩ ⟨.work next, k, e⟩

theorem misses_of_spent {e : Engine σ} {x : NodeId} (spent : e.graph.Spent x) : e.Misses x where
  idle {task k m} step := by
    rintro ⟨c, hruns, hcallers⟩
    have hlength := congrArg List.length hcallers
    cases step with
    | compute found | perform found =>
      obtain rfl : _ = c := (List.cons.inj hcallers).1
      obtain rfl := Option.some.inj hruns
      simp [spent.node?] at found
    | _ => grind [Caller.runs?]
  computed {o k} := by
    have step : Step ⟨.work (.done o), .computing x :: k, e⟩ _ := .computed
    rwa [storeOutcome_closeRun, Graph.finished_gone spent.node?] at step
  performed {o k} := by
    have step : Step ⟨.work (.done o), .performing x :: k, e⟩ _ := .performed
    rwa [restEffect_closeRun, Graph.effectFinished_gone spent.node?] at step
  read := .readNoComputed rfl fun n _ _ _ found => by simp [spent.node?] at found
  answered {tracked reader k} := by
    have step : Step ⟨.refreshed, .reading ⟨.computed, x⟩ tracked reader :: k, e⟩ _ := .answered
    rwa [shownOutcome, spent.node?] at step
  disposed {next k} := by
    have step : Step ⟨.work (.disposeNode x next), k, e⟩ _ := .disposeNode
    rwa [Graph.removeNode, spent.node?] at step

theorem insertOwned_ended {e : Engine σ} {s : ScopeId} (ended : e.graph.Ended s)
    (kind : NodeKind (Program σ)) : e.graph.insertOwned kind s = none := by
  unfold Graph.insertOwned
  rw [if_neg]
  simp [Arena.contains, Arena.get?_of_spent ended]

theorem missesScope_of_ended {e : Engine σ} {s : ScopeId} (ended : e.graph.Ended s) :
    e.MissesScope s where
  newComputed := .computedRefused (insertOwned_ended ended _)
  newEffect := .effectRefused (insertOwned_ended ended _)
  newScope := .scopeRefused (by
    unfold Graph.insertChildScope
    rw [if_neg]
    simp [Arena.contains, Arena.get?_of_spent ended])
  disposed {next k} := by
    have step : Step ⟨.work (.disposeScope s next), k, e⟩ _ := .disposeScope
    rwa [Graph.removeScope_gone ended.scope?] at step

end Engine

namespace Moment

open Reactive.Graph

/-- A live scope is removed with what goes with it, and with nothing else; and whatever is done
afterwards, this stays away. -/
theorem Reached.disposes {s : ScopeId} {next : Program σ} {k : List (Caller σ)} {e : Engine σ}
    (h : Reached ⟨.work (.disposeScope s next), k, e⟩) (live : (e.graph.scope? s).isSome) :
    let e' : Engine σ := { e with graph := e.graph.removeScope s }
    Step ⟨.work (.disposeScope s next), k, e⟩ ⟨.work next, k, e'⟩ ∧
      Without (e.graph.Takes s) e.graph e'.graph ∧
      ∀ m, Later ⟨.work next, k, e'⟩ m →
        (∀ x, e.graph.Takes s (.node x) → m.engine.Misses x) ∧
        ∀ t, e.graph.Takes s (.scope t) → m.engine.MissesScope t := by
  intro e'
  have hwithout : Without (e.graph.Takes s) e.graph e'.graph := h.sound.graph.without_removeScope s
  refine ⟨.disposeScope, hwithout, fun m hlater => ?_⟩
  have hfirst : Onward _ ⟨.work next, k, e'⟩ := Step.onward .disposeScope h.sound
  have hlasts := (hlater.onward hfirst.sound).lasts
  constructor
  · intro x hx
    obtain ⟨t, ht, n, hn, howner⟩ := id hx
    refine Engine.misses_of_spent (hlasts.spent ((hfirst.lasts.node hn).resolve_right ?_))
    rintro ⟨l, hl, -⟩
    exact (hwithout.node_eq_some.1 hl).1 hx
  · intro t ht
    have hlive : (e.graph.scope? t).isSome := by
      rcases Relation.ReflTransGen.cases_tail ht with rfl | ⟨p, -, r, hr, -⟩
      · exact live
      · simp [hr]
    refine Engine.missesScope_of_ended (hlasts.ended ((hfirst.lasts.scope hlive).resolve_right ?_))
    intro hsome
    obtain ⟨r, hr⟩ := Option.isSome_iff_exists.1 hsome
    exact (hwithout.scope_eq_some.1 hr).1 ht

namespace Farewell

theorem takes_effect : leaving.engine.graph.Takes scope (.node effect) := by
  refine ⟨scope, .refl, ⟨.effect body true, .clean, [], [], some scope⟩, ?_, rfl⟩
  cbv

/-- The effect that disposes of its own scope never runs again. -/
theorem disposes_leaving : leaving.Reached ∧ (leaving.engine.graph.scope? scope).isSome ∧
    Without (leaving.engine.graph.Takes scope) leaving.engine.graph left.engine.graph ∧
    ∀ m, Later left m → m.engine.Misses effect ∧ m.engine.MissesScope scope := by
  have hlive : (leaving.engine.graph.scope? scope).isSome := by cbv
  obtain ⟨-, hwithout, hlater⟩ := Reached.disposes reached_leaving hlive
  exact ⟨reached_leaving, hlive, hwithout, fun m hm =>
    ⟨(hlater m hm).1 effect takes_effect, (hlater m hm).2 scope .refl⟩⟩

end Farewell

end Moment

end LiveTemplate.Reactive
