import LiveTemplate.Proofs.Reactive.Invariance

/-!
# Signals stay

No scope owns a signal, so none goes with a scope, and nothing else that the engine does takes a signal
away. It is lost only to a call that disposes of its very node, as if that were a computed or an effect
(`Moment.Sound.signal_stays`).
-/
namespace LiveTemplate.Reactive

variable {β σ : Type}

namespace Graph

variable {g h k : Graph β} {spared : NodeId → Prop}

def HasSignal (g : Graph β) (id : NodeId) : Prop :=
  ∃ n, g.node? id = some n ∧ n.sort = .signal

/-- No scope owns a signal. -/
def Unowned (g : Graph β) : Prop :=
  ∀ {id : NodeId} {n : Node β}, g.node? id = some n → n.sort = .signal → n.owner = none

/-- The signals that are spared are still there, and none has got an owner. -/
structure Retains (spared : NodeId → Prop) (g h : Graph β) : Prop where
  signal : ∀ {id : NodeId}, spared id → g.HasSignal id → h.HasSignal id
  unowned : g.Unowned → h.Unowned

theorem retains_of_nodes (same : ∀ x, h.node? x = g.node? x) : g.Retains spared h where
  signal _ hs := by rwa [HasSignal, same]
  unowned hg _ _ hn := hg (same _ ▸ hn)

theorem Retains.trans (hr : g.Retains spared h) (hr' : h.Retains spared k) : g.Retains spared k where
  signal hx hs := hr'.signal hx (hr.signal hx hs)
  unowned hg := hr'.unowned (hr.unowned hg)

theorem Alters.hasSignal (ha : g.Alters h) {id : NodeId} (signal : g.HasSignal id) :
    h.HasSignal id := by
  obtain ⟨n, hn, hsort⟩ := signal
  obtain ⟨m, hm, hshape⟩ := ha.find hn
  exact ⟨m, hm, (congrArg (·.1) hshape).trans hsort⟩

theorem Alters.retains (ha : g.Alters h) : g.Retains spared h where
  signal _ := ha.hasSignal
  unowned hg _ _ hm hsort := by
    obtain ⟨n, hn, hshape⟩ := ha.origin hm
    exact (congrArg (·.2.2) hshape).trans (hg hn ((congrArg (·.1) hshape).symm.trans hsort))

theorem retains_relink {id : NodeId} {n : Node β} (found : g.node? id = some n) (sources : List NodeId) :
    g.Retains spared (g.relink id sources) where
  signal _ hs := by
    obtain ⟨m, hm, hsort⟩ := hs
    exact ⟨_, (node?_relink found sources _).trans (congrArg _ hm), hsort⟩
  unowned hg x m hm hsort := by
    rw [node?_relink found] at hm
    obtain ⟨m₀, hm₀, rfl⟩ := Option.map_eq_some_iff.1 hm
    exact (hg hm₀ hsort :)

theorem retains_insertNode {kind : NodeKind β} {freshness : Freshness} {owner : Option ScopeId}
    (free : kind.sort = .signal → owner = none) :
    g.Retains spared (g.insertNode kind freshness owner).2 where
  signal _ hs := by
    obtain ⟨n, hn, hsort⟩ := hs
    refine ⟨n, ?_, hsort⟩
    rw [node?_insertNode, if_neg, hn]
    rintro rfl
    simp [node?_insertNode_fresh] at hn
  unowned hg x n hn hsort := by
    rw [node?_insertNode] at hn
    split at hn
    · cases hn
      exact free hsort
    · exact hg hn hsort

theorem retains_insertOwned {kind : NodeKind β} {owner : ScopeId} {id : NodeId}
    (inserted : g.insertOwned kind owner = some (id, h)) (bodied : kind.sort ≠ .signal) :
    g.Retains spared h :=
  (retains_insertNode fun signal => absurd signal bodied).trans
    (retains_of_nodes (insertOwned_eq_some inserted).2.1)

theorem Without.retains {gone : Doomed → Prop} (hw : Without gone g h)
    (apart : ∀ x, spared x → g.HasSignal x → ¬gone (.node x)) : g.Retains spared h where
  signal hx hs := by
    obtain ⟨n, hn, hsort⟩ := id hs
    exact ⟨_, hw.node_eq_some.2 ⟨apart _ hx hs, n, hn, rfl⟩, hsort⟩
  unowned hg x m hm hsort := by
    obtain ⟨-, n, hn, rfl⟩ := hw.node_eq_some.1 hm
    exact (hg hn hsort :)

end Graph

namespace Moment

open Reactive.Graph

variable {m m' : Moment σ}

/-- The program disposes of the node. -/
def Disposes (m : Moment σ) (id : NodeId) : Prop :=
  ∃ next, m.task = .work (.disposeNode id next)

/-- A run that is over leaves signals alone. -/
theorem retains_finished {g h : Graph (Program σ)} {spared : NodeId → Prop} {id : NodeId}
    {sources : List NodeId} (gone : g.node? id = none → h = g)
    (alters : (g.relink id sources).Alters h) : g.Retains spared h := by
  cases hn : g.node? id with
  | none => exact gone hn ▸ retains_of_nodes fun _ => rfl
  | some n => exact (retains_relink hn sources).trans alters.retains

theorem Step.retains (step : Step m m') (sound : m.Sound) (unowned : m.engine.graph.Unowned) :
    m.engine.graph.Retains (¬m.Disposes ·) m'.engine.graph := by
  cases step with
  | read | unwrap | writeGone | writeSame | computedRefused | effectRefused | scopeRefused | batch
  | untrack | number | inspect | consult | adjust | readNoSignal | readRunning | readComputed
  | readNoComputed | reached | circle | follow | stale | known | allAsked | ask | skip | told | changed
  | unchanged | upToDate | busy | created | held | flush | drained | turn | written | close | closed
  | tracked | newScope => exact retains_of_nodes fun _ => rfl
  | readSignal | answered =>
    refine retains_of_nodes fun _ => ?_
    rw [Engine.graph_trackIf]
  | write found kind _ => exact (alters_written found (Node.sort_eq_signal.2 ⟨_, kind⟩) _ _).retains
  | newSignal => exact retains_insertNode fun _ => rfl
  | newComputed => exact retains_insertNode nofun
  | newOwnedComputed inserted => exact retains_insertOwned inserted nofun
  | newEffect inserted => exact retains_insertOwned inserted nofun
  | newChildScope inserted => exact retains_of_nodes (insertChildScope_eq_some inserted).1
  | @disposeNode id =>
    refine (without_removeNode sound.graph.tight id).retains fun x spared _ heq => spared ?_
    cases heq
    exact ⟨_, rfl⟩
  | @disposeScope id =>
    refine (sound.graph.without_removeScope id).retains fun x _ signal taken => ?_
    obtain ⟨n, hn, hsort⟩ := signal
    obtain ⟨s, -, n', hn', howner⟩ := taken
    obtain rfl := Option.some.inj (hn.symm.trans hn')
    simp [unowned hn hsort] at howner
  | cleaned => exact (alters_setFreshness _ _ _).retains
  | compute found _ kind | perform found _ kind =>
    refine (alters_begun found ?_).retains
    rw [Node.sort, kind]
    rfl
  | computed =>
    rw [Engine.storeOutcome_closeRun]
    exact retains_finished (finished_gone · _ _) (alters_stored _ _ _)
  | performed =>
    rw [Engine.restEffect_closeRun]
    exact retains_finished (effectFinished_gone · _) (alters_effectFinished _ _ _)
  | gaveUp => exact (alters_dropQueue _).retains
  | dequeue waiting =>
    obtain ⟨rest, -, rfl⟩ := Engine.dequeue_eq_some waiting
    exact (alters_requeued _ _).retains

theorem Later.unowned (later : Later m m') (sound : m.Sound) (unowned : m.engine.graph.Unowned) :
    m'.engine.graph.Unowned := by
  induction later with
  | refl => exact unowned
  | tail first next ih =>
    rcases next with step | call
    · exact (step.retains (Later.onward first sound).sound ih).unowned ih
    · cases call
      exact ih

/-- Scopes own computeds and effects only, at every moment. -/
theorem Reached.unowned (reached : m.Reached) : m.engine.graph.Unowned := by
  obtain ⟨settings, host, p, later⟩ := reached
  exact later.unowned (sound_start settings host p) nofun

/-- A signal stays if only computeds and effects are disposed of by node. -/
theorem Sound.signal_stays (sound : m.Sound) (unowned : m.engine.graph.Unowned) (steps : Steps m m')
    (spared : ∀ m₁ id, Steps m m₁ → m₁.Disposes id → ¬m₁.engine.graph.HasSignal id) {id : NodeId}
    (signal : m.engine.graph.HasSignal id) : m'.engine.graph.HasSignal id := by
  induction steps with
  | refl => exact signal
  | tail steps step ih =>
    have later := later_of_steps steps
    refine (step.retains (later.onward sound).sound (later.unowned sound unowned)).signal ?_ ih
    exact fun disposes => spared _ _ steps disposes ih

end Moment

end LiveTemplate.Reactive
