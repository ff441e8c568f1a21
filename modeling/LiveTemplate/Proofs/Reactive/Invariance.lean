import LiveTemplate.Proofs.Reactive.Moments
import LiveTemplate.Proofs.Reactive.Removal

/-!
# Graphs stay well-formed

At every moment that can be reached, the graph is well-formed (`Moment.Reached.wellFormed`). Two more
facts carry this through the end of a run, when the sources of a node are recorded: what was tracked
is not an effect, and what is running is no signal. Both hold of a node until it is gone for good, so
it does no harm if a body removes what it has read, or its own node.
-/
namespace LiveTemplate.Reactive

variable {σ : Type}

/-- What waits for an answer knows the sort of its node. -/
def Caller.Fits (g : Graph (Program σ)) : Caller σ → Prop
  | .reading cell _ _ => g.OfSort (· ≠ .effect) cell.node
  | .computing id => g.OfSort (· = .computed) id
  | .performing id => g.OfSort (· = .effect) id
  | _ => True

theorem Caller.Fits.lasts {g h : Graph (Program σ)} {c : Caller σ} (hc : c.Fits g) (hl : g.Lasts h) :
    c.Fits h := by
  cases c with
  | reading | computing | performing =>
    simp only [Fits] at hc ⊢
    exact hl.ofSort hc
  | _ => trivial

namespace Moment

open Reactive.Graph

/-- A moment at which a program may be run from outside, and is. -/
inductive Call : Moment σ → Moment σ → Prop where
  | call (o : Outcome) (e : Engine σ) (p : Program σ) :
      Call ⟨.work (.done o), [], e⟩ ⟨.work p, [], e⟩

/-- What comes after a moment, sooner or later, when programs are run one after the other. -/
def Later : Moment σ → Moment σ → Prop :=
  Relation.ReflTransGen fun m m' => Step m m' ∨ Call m m'

theorem later_of_steps {m m' : Moment σ} (h : Steps m m') : Later m m' := by
  induction h with
  | refl => exact .refl
  | tail _ step ih => exact ih.tail (.inl step)

/-- A moment in a history of the engine. -/
def Reached (m : Moment σ) : Prop :=
  ∃ settings host p, Later ⟨.work p, [], .start settings host⟩ m

structure Sound (m : Moment σ) : Prop where
  graph : m.engine.graph.WellFormed
  tracked : ∀ ids, some ids ∈ m.engine.tracking → ∀ x ∈ ids, m.engine.graph.OfSort (· ≠ .effect) x
  callers : ∀ c ∈ m.callers, c.Fits m.engine.graph

/-- A moment stays sound, and what it holds lasts. -/
structure Onward (m m' : Moment σ) : Prop where
  sound : m'.Sound
  lasts : m.engine.graph.Lasts m'.engine.graph

variable {m m' : Moment σ}

theorem Sound.onward (hs : m.Sound) (graph : m'.engine.graph.WellFormed)
    (lasts : m.engine.graph.Lasts m'.engine.graph)
    (tracked : ∀ ids, some ids ∈ m'.engine.tracking →
      some ids ∈ m.engine.tracking ∨ ∀ x ∈ ids, m.engine.graph.OfSort (· ≠ .effect) x)
    (callers : ∀ c ∈ m'.callers, c ∈ m.callers ∨ c.Fits m.engine.graph) : m.Onward m' where
  sound := by
    refine ⟨graph, fun ids hids x hx => lasts.ofSort ?_, fun c hc => ?_⟩
    · exact (tracked ids hids).elim (fun hold => hs.tracked ids hold x hx) fun h => h x hx
    · exact ((callers c hc).elim (hs.callers c) id).lasts lasts
  lasts := lasts

/-- The graph and the tracked reads are as before. -/
theorem Sound.pass {task task' : Task σ} {k k' : List (Caller σ)} {e e' : Engine σ}
    (hs : Sound ⟨task, k, e⟩) (graph : e'.graph = e.graph)
    (tracked : ∀ ids, some ids ∈ e'.tracking → some ids ∈ e.tracking)
    (callers : ∀ c ∈ k', c ∈ k ∨ c.Fits e.graph) : Onward ⟨task, k, e⟩ ⟨task', k', e'⟩ := by
  refine hs.onward ?_ ?_ (fun ids hids => .inl (tracked ids hids)) callers
  · exact graph ▸ hs.graph
  · exact graph ▸ .refl _

/-- Only the graph changes. -/
theorem Sound.change {task task' : Task σ} {k k' : List (Caller σ)} {e e' : Engine σ}
    (hs : Sound ⟨task, k, e⟩) (graph : e'.graph.WellFormed) (lasts : e.graph.Lasts e'.graph)
    (tracking : e'.tracking = e.tracking) (callers : ∀ c ∈ k', c ∈ k ∨ c.Fits e.graph) :
    Onward ⟨task, k, e⟩ ⟨task', k', e'⟩ :=
  hs.onward graph lasts (fun _ hids => .inl (tracking ▸ hids)) callers

theorem mem_trackIf {e : Engine σ} {tracked : Bool} {id : NodeId} {ids : List NodeId}
    (h : some ids ∈ (e.trackIf tracked id).tracking) :
    some ids ∈ e.tracking ∨ ∃ ids', some ids' ∈ e.tracking ∧ ids = enlist id ids' := by
  cases tracked with
  | false => exact .inl h
  | true =>
    simp only [Engine.trackIf, Engine.track, if_true] at h
    split at h
    next sources rest hframe =>
      rcases List.mem_cons.1 h with h | h
      · exact .inr ⟨sources, hframe ▸ List.mem_cons_self, Option.some.inj h⟩
      · exact .inl (hframe ▸ List.mem_cons_of_mem _ h)
    next => exact .inl h

/-- A node that is no effect has been read. -/
theorem Sound.answer {task task' : Task σ} {k k' : List (Caller σ)} {e : Engine σ}
    (hs : Sound ⟨task, k, e⟩) (tracked : Bool) {id : NodeId} (cell : e.graph.OfSort (· ≠ .effect) id)
    (callers : ∀ c ∈ k', c ∈ k) : Onward ⟨task, k, e⟩ ⟨task', k', e.trackIf tracked id⟩ := by
  refine hs.onward ?_ ?_ (fun ids hids => ?_) fun c hc => .inl (callers c hc)
  · rw [Engine.graph_trackIf]
    exact hs.graph
  · rw [Engine.graph_trackIf]
    exact .refl _
  · refine (mem_trackIf hids).imp_right ?_
    rintro ⟨ids', hids', rfl⟩ x hx
    rcases mem_enlist.1 hx with rfl | hx
    · exact cell
    · exact hs.tracked ids' hids' x hx

theorem Sound.collected {task : Task σ} {k : List (Caller σ)} {e : Engine σ}
    (hs : Sound ⟨task, k, e⟩) {x : NodeId} (hx : x ∈ e.collected) :
    e.graph.OfSort (· ≠ .effect) x := by
  unfold Engine.collected at hx
  split at hx
  next sources rest hframe =>
    exact hs.tracked sources (show some sources ∈ e.tracking from hframe ▸ List.mem_cons_self) x hx
  next => cases hx

/-- The reads of a node that is no signal are recorded, and then its content changes. -/
theorem Sound.recorded {task task' : Task σ} {k k' : List (Caller σ)} {e : Engine σ}
    (hs : Sound ⟨task, k, e⟩) {id : NodeId} {g : Graph (Program σ)}
    (bodied : e.graph.OfSort (· ≠ .signal) id)
    (gone : e.graph.node? id = none → g = e.graph)
    (alters : (e.graph.relink id e.collected).Alters g) (pending : g.pending = e.graph.pending)
    (callers : ∀ c ∈ k', c ∈ k) :
    Onward ⟨task, k, e⟩ ⟨task', k', { e with graph := g, tracking := e.tracking.drop 1 }⟩ := by
  have hgraph : g.WellFormed ∧ e.graph.Lasts g := by
    rcases bodied with hspent | ⟨n, hn, hsort⟩
    · rw [gone hspent.node?]
      exact ⟨hs.graph, .refl _⟩
    · have hcells : ∀ s ∈ e.collected, ∀ m, e.graph.node? s = some m → m.sort ≠ .effect := by
        intro s hs' m hm
        rcases hs.collected hs' with hspent | ⟨m', hm', hsort'⟩
        · simp [hspent.node?] at hm
        · rwa [Option.some.inj (hm.symm.trans hm')]
      refine ⟨(hs.graph.relink hn hsort hcells).alters alters fun x hx => .inl ?_,
        (lasts_relink hn _).trans alters.lasts⟩
      rwa [pending_relink, ← pending]
  exact hs.onward hgraph.1 hgraph.2 (fun ids hids => .inl (List.mem_of_mem_drop hids))
    fun c hc => .inl (callers c hc)

theorem Sound.begin {task task' : Task σ} {k : List (Caller σ)} {e : Engine σ} {c : Caller σ}
    (hs : Sound ⟨task, k, e⟩) {id : NodeId} {n : Node (Program σ)} (found : e.graph.node? id = some n)
    {kind : NodeKind (Program σ)} (sort : kind.sort = n.sort) (fits : c.Fits e.graph) :
    Onward ⟨task, k, e⟩ ⟨task', c :: k, e.beginRun id kind⟩ := by
  refine hs.onward (hs.graph.alters (alters_begun found sort) fun _ h => .inl h)
    (alters_begun found sort).lasts (fun ids hids => ?_) fun c' hc' => ?_
  · refine (List.mem_cons.1 hids).symm.imp_right fun heq => ?_
    obtain rfl := Option.some.inj heq
    exact nofun
  · exact (List.mem_cons.1 hc').elim (fun heq => .inr (heq ▸ fits)) .inl

theorem Step.onward (h : Step m m') (hs : m.Sound) : m.Onward m' := by
  have same {k : List (Caller σ)} {P : Caller σ → Prop} : ∀ c ∈ k, c ∈ k ∨ P c := fun _ => .inl
  have pushed {k : List (Caller σ)} {P : Caller σ → Prop} {c : Caller σ} (hc : P c) :
      ∀ c' ∈ c :: k, c' ∈ k ∨ P c' := fun c' hc' =>
    (List.mem_cons.1 hc').elim (fun heq => .inr (heq ▸ hc)) .inl
  have popped {k : List (Caller σ)} {P : Caller σ → Prop} {c : Caller σ} :
      ∀ c' ∈ k, c' ∈ c :: k ∨ P c' := fun _ hc' => .inl (List.mem_cons_of_mem _ hc')
  have replaced {k : List (Caller σ)} {g : Graph (Program σ)} {c : Caller σ}
      {o : Outcome} {next : Outcome → Program σ} :
      ∀ c' ∈ .closing o next :: k, c' ∈ c :: k ∨ c'.Fits g := fun c' hc' =>
    (List.mem_cons.1 hc').elim (fun heq => .inr (heq ▸ trivial)) (popped c')
  cases h with
  | read | unwrap | writeGone | writeSame | computedRefused | effectRefused | scopeRefused | number
  | inspect | consult | adjust | readNoSignal | readRunning | readNoComputed | reached | circle | follow
  | stale | known | allAsked | skip | changed | unchanged | upToDate | busy | held | flush | drained =>
    exact hs.pass rfl (fun _ h => h) same
  | told | created | turn | written | closed => exact hs.pass rfl (fun _ h => h) popped
  | write found kind _ =>
    have hsort := Node.sort_eq_signal.2 ⟨_, kind⟩
    exact hs.change (hs.graph.written found hsort _ _) (alters_written found hsort _ _).lasts rfl
      (pushed trivial)
  | newSignal => exact hs.change (hs.graph.insertNode _ _) lasts_insertNode rfl same
  | newComputed => exact hs.change (hs.graph.insertNode _ _) lasts_insertNode rfl same
  | newOwnedComputed inserted =>
    exact hs.change (hs.graph.insertOwned inserted) (lasts_insertOwned inserted) rfl same
  | newEffect inserted =>
    exact hs.change (hs.graph.insertOwned inserted) (lasts_insertOwned inserted) rfl (pushed trivial)
  | newScope => exact hs.change hs.graph.insertScope (lasts_addScope _) rfl same
  | newChildScope inserted =>
    exact hs.change (hs.graph.insertChildScope inserted) (lasts_insertChildScope inserted) rfl same
  | disposeNode =>
    rw [removeNode_eq_remove]
    exact hs.change (hs.graph.remove _) (lasts_remove hs.graph.tight _) rfl same
  | disposeScope => exact hs.change (hs.graph.remove _) (lasts_remove hs.graph.tight _) rfl same
  | batch => exact hs.pass rfl (fun _ h => h) (pushed trivial)
  | untrack =>
    exact hs.pass rfl (fun ids hids => (List.mem_cons.1 hids).resolve_left nofun) (pushed trivial)
  | readSignal _ found kind =>
    exact hs.answer _ (.inr ⟨_, found, by simp [Node.sort_eq_signal.2 ⟨_, kind⟩]⟩) fun _ h => h
  | readComputed _ found kind =>
    have hsort := Node.sort_eq_computed.2 ⟨_, _, _, kind⟩
    exact hs.pass rfl (fun _ h => h) (pushed (.inr ⟨_, found, by simp [hsort]⟩))
  | answered =>
    exact hs.answer _ (hs.callers _ List.mem_cons_self) fun _ h => List.mem_cons_of_mem _ h
  | ask => exact hs.pass rfl (fun _ h => h) (pushed trivial)
  | cleaned =>
    exact hs.change (hs.graph.setFreshness _ _) (alters_setFreshness _ _ _).lasts rfl same
  | compute found _ kind =>
    have hsort := Node.sort_eq_computed.2 ⟨_, _, _, kind⟩
    exact hs.begin found hsort.symm (.inr ⟨_, found, hsort⟩)
  | perform found _ kind =>
    have hsort := Node.sort_eq_effect.2 ⟨_, _, kind⟩
    exact hs.begin found hsort.symm (.inr ⟨_, found, hsort⟩)
  | computed =>
    rw [Engine.storeOutcome_closeRun]
    refine hs.recorded ((hs.callers _ List.mem_cons_self).imp_right ?_) ?_ (alters_stored _ _ _)
      (pending_finished _ _ _ _) fun _ h => List.mem_cons_of_mem _ h
    · exact fun ⟨n, hn, hsort⟩ => ⟨n, hn, by simp [hsort]⟩
    · exact fun hnone => finished_gone hnone _ _
  | performed =>
    rw [Engine.restEffect_closeRun]
    refine hs.recorded ((hs.callers _ List.mem_cons_self).imp_right ?_) ?_
      (alters_effectFinished _ _ _) (pending_relink _ _ _) fun _ h => List.mem_cons_of_mem _ h
    · exact fun ⟨n, hn, hsort⟩ => ⟨n, hn, by simp [hsort]⟩
    · exact fun hnone => effectFinished_gone hnone _
  | gaveUp =>
    exact hs.change (hs.graph.alters (alters_dropQueue _) nofun) (alters_dropQueue _).lasts rfl same
  | dequeue waiting =>
    obtain ⟨rest, hpending, rfl⟩ := Engine.dequeue_eq_some waiting
    exact hs.change (hs.graph.requeued (hpending ▸ List.subset_cons_self _ _))
      (alters_requeued _ _).lasts rfl (pushed trivial)
  | close => exact hs.pass rfl (fun _ h => h) replaced
  | tracked => exact hs.pass rfl (fun _ h => List.mem_of_mem_drop h) popped

theorem sound_start (settings : Settings) (host : σ) (p : Program σ) :
    Sound ⟨.work p, [], .start settings host⟩ :=
  ⟨wellFormed_empty, nofun, nofun⟩

theorem Later.onward (h : Later m m') (hs : m.Sound) : m.Onward m' := by
  induction h with
  | refl => exact ⟨hs, .refl _⟩
  | tail _ next ih =>
    have hnext : Onward _ _ := next.elim (·.onward ih.sound) fun call => by
      cases call
      exact ih.sound.pass rfl (fun _ h => h) nofun
    exact ⟨hnext.sound, ih.lasts.trans hnext.lasts⟩

theorem Reached.sound (h : m.Reached) : m.Sound := by
  obtain ⟨settings, host, p, h⟩ := h
  exact (h.onward (sound_start settings host p)).sound

/-- Whatever programs do, the graph is well-formed at every moment. -/
theorem Reached.wellFormed (h : m.Reached) : m.engine.graph.WellFormed :=
  h.sound.graph

/-! ## In the middle of a run

An effect reads a signal and then disposes of its own scope. -/

namespace Farewell

def signal : NodeId := ⟨0, 0⟩

def effect : NodeId := ⟨1, 0⟩

def scope : ScopeId := ⟨0, 0⟩

def rest : Program Unit := .pure .undefined

def body : Program Unit :=
  .read ⟨.signal, signal⟩ true fun _ => .disposeScope scope rest

def session : Program Unit :=
  .newSignal .undefined fun _ => .newScope none fun _ => .newEffect scope body fun _ => rest

def founded : Engine Unit :=
  let e : Engine Unit := .start .default ()
  let g := (e.graph.insertNode (.signal .undefined) .clean none).2
  { e with graph := g.insertScope.2 }

def created : Engine Unit :=
  { founded with graph := ((founded.graph.insertOwned (.effect body false) scope).get (by cbv)).2 }

/-- The effect is about to dispose of its scope. -/
def leaving : Moment Unit :=
  ⟨.work (.disposeScope scope rest), [.performing effect, .creating effect fun _ => rest],
    (created.beginRun effect (.effect body true)).trackIf true signal⟩

/-- The effect is still running, but is gone. -/
def left : Moment Unit :=
  ⟨.work rest, leaving.callers,
    { leaving.engine with graph := leaving.engine.graph.removeScope scope }⟩

theorem inserted :
    founded.graph.insertOwned (.effect body false) scope = some (effect, created.graph) := by
  cbv

/-- The effect runs for the first time now. -/
theorem reached_created :
    (⟨.settle effect, [.creating effect fun _ => rest], created⟩ : Moment Unit).Reached := by
  refine ⟨.default, (), session, later_of_steps ?_⟩
  have hfounded : Steps ⟨.work session, [], .start .default ()⟩
      ⟨.work (.newEffect scope body fun _ => rest), [], founded⟩ :=
    .head .newSignal (.single .newScope)
  have hdirty : created.graph.freshness? effect = some .dirty := by cbv
  exact (hfounded.tail (.newEffect inserted)).tail (.known (by simp [hdirty]))

theorem reached_leaving : leaving.Reached := by
  obtain ⟨settings, host, p, h⟩ := reached_created
  have hread : Steps ⟨.settle effect, [.creating effect fun _ => rest], created⟩ leaving := by
    refine .head (.perform (n := ⟨.effect body false, .dirty, [], [], some scope⟩) ?_ rfl rfl)
      (.head .read (.single (.readSignal (n := ⟨.signal .undefined, .clean, [], [], none⟩) rfl ?_ rfl)))
    · cbv
    · cbv
  exact ⟨settings, host, p, h.trans (later_of_steps hread)⟩

theorem reached_left : left.Reached := by
  obtain ⟨settings, host, p, h⟩ := reached_leaving
  exact ⟨settings, host, p, h.tail (.inl .disposeScope)⟩

end Farewell

open Farewell in
theorem wellFormed_left : left.Reached ∧ left.engine.graph.WellFormed :=
  ⟨reached_left, reached_left.wellFormed⟩

end Moment

end LiveTemplate.Reactive
