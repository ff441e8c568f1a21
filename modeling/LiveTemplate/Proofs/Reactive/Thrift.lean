import LiveTemplate.Proofs.Reactive.Attentive
import LiveTemplate.Proofs.Reactive.Attribution

/-!
# No run is in vain

A computed that runs is clean from then on, and only a write makes a clean node late. So between two
writes each computed is run once at most, whatever programs do (`Moment.Path.nodup_starts`).

Where bodies are lawful and effects only read, nothing is run that is not needed either
(`Moment.runs_are_needed`). While a cell is read or a queue worked off, no node comes or goes
(`Moment.Tame`), so what was run was late before and is clean afterwards; and only nodes that the
evaluation from scratch consults have become clean.
-/
namespace LiveTemplate.Reactive

variable {β σ : Type}

/-- The body of a computed or an effect, and which of the two it is. -/
def NodeKind.code? : NodeKind β → Option (β × NodeSort)
  | .signal _ => none
  | .computed body _ _ => some (body, .computed)
  | .effect body _ => some (body, .effect)

namespace Graph

/-- A clean node that is still there is still clean. -/
def LeavesClean (g h : Graph β) : Prop :=
  ∀ ⦃x : NodeId⦄ ⦃n m : Node β⦄, g.node? x = some n → h.node? x = some m →
    n.freshness = .clean → m.freshness = .clean

variable {g h k : Graph β} {id : NodeId}

theorem leavesClean_of_origin (origin : ∀ {x : NodeId} {m : Node β}, h.node? x = some m →
    ∃ n, g.node? x = some n ∧ (n.freshness = .clean → m.freshness = .clean)) : g.LeavesClean h := by
  intro x n m hn hm
  obtain ⟨n', hn', hclean⟩ := origin hm
  rwa [Option.some.inj (hn.symm.trans hn')]

theorem leavesClean_of_same (same : ∀ x, h.node? x = g.node? x) : g.LeavesClean h :=
  leavesClean_of_origin fun {x m} hm => ⟨m, (same x).symm.trans hm, fun hclean => hclean⟩

theorem leavesClean_modifyNode (g : Graph β) (id : NodeId) {f : Node β → Node β}
    (clean : ∀ n, n.freshness = .clean → (f n).freshness = .clean) : g.LeavesClean (g.modifyNode id f) := by
  refine leavesClean_of_origin fun {x m} hm => ?_
  rw [node?_modifyNode] at hm
  split at hm
  · obtain ⟨n, hn, rfl⟩ := Option.map_eq_some_iff.1 hm
    exact ⟨n, hn, clean n⟩
  · exact ⟨m, hm, fun hclean => hclean⟩

theorem leavesClean_insertNode {g : Graph (Program σ)} {kind : NodeKind (Program σ)}
    {freshness : Freshness} {owner : Option ScopeId} :
    g.LeavesClean (g.insertNode kind freshness owner).2 := by
  intro x n m hn hm hclean
  rwa [Option.some.inj (hm.symm.trans (insertNode_live hn).2)]

theorem leavesClean_insertOwned {g h : Graph (Program σ)} {kind : NodeKind (Program σ)}
    {owner : ScopeId} (inserted : g.insertOwned kind owner = some (id, h)) : g.LeavesClean h := by
  obtain ⟨-, hsame, -⟩ := insertOwned_eq_some inserted
  exact fun x n m hn hm => leavesClean_insertNode hn ((hsame x).symm.trans hm)

theorem leavesClean_remove (g : Graph β) (work : List Doomed) : g.LeavesClean (g.remove work) := by
  refine leavesClean_of_origin fun {x m} hm => ?_
  obtain ⟨n, hn, -, hfresh⟩ := remove_origin g work hm
  exact ⟨n, hn, hfresh.trans⟩

theorem LeavesClean.trans (hl : g.LeavesClean h) (hl' : h.LeavesClean k)
    (live : ∀ x, (k.node? x).isSome → (h.node? x).isSome) : g.LeavesClean k := by
  intro x n l hn hl₀ hclean
  obtain ⟨m, hm⟩ := Option.isSome_iff_exists.1 (live x (by simp [hl₀]))
  exact hl' hm hl₀ (hl hn hm hclean)

theorem leavesClean_relink (g : Graph β) (id : NodeId) (sources : List NodeId) :
    g.LeavesClean (g.relink id sources) := by
  cases hid : g.node? id with
  | none => exact leavesClean_of_same fun x => by simp [relink, hid]
  | some n =>
    refine leavesClean_of_origin fun {x m} hm => ?_
    rw [node?_relink hid] at hm
    obtain ⟨m₀, hm₀, rfl⟩ := Option.map_eq_some_iff.1 hm
    exact ⟨m₀, hm₀, fun hclean => hclean⟩

/-- A run stores its outcome, and news wake stale subscribers only. -/
theorem stored_origin {g : Graph β} {id : NodeId} {outcome : Outcome} {x : NodeId} {m : Node β}
    (hm : (g.stored id outcome).node? x = some m) : ∃ n, g.node? x = some n ∧
      (n.freshness = .clean → m.freshness = .clean) ∧ m.kind.code? = n.kind.code? ∧
      (m.kind.shown = n.kind.shown ∨ m.kind.shown = outcome) := by
  cases hid : g.node? id with
  | none =>
    rw [stored, hid] at hm
    exact ⟨m, hm, fun hclean => hclean, rfl, .inl rfl⟩
  | some l =>
    cases hk : l.kind with
    | computed body running last =>
      rw [node?_stored hid hk] at hm
      obtain ⟨n, hn, rfl⟩ := Option.map_eq_some_iff.1 hm
      refine ⟨n, hn, fun hclean => by simp [hclean], ?_⟩
      by_cases hx : x = id
      · subst hx
        obtain rfl := Option.some.inj (hid.symm.trans hn)
        simp [hk, NodeKind.code?, NodeKind.shown]
      · simp [hx]
    | _ =>
      obtain ⟨_, _, _, _, _⟩ := l
      subst hk
      rw [stored, hid] at hm
      exact ⟨m, hm, fun hclean => hclean, rfl, .inl rfl⟩

theorem leavesClean_finished (g : Graph β) (id : NodeId) (sources : List NodeId) (outcome : Outcome) :
    g.LeavesClean (g.finished id sources outcome) := by
  refine LeavesClean.trans (leavesClean_relink g id sources) (leavesClean_of_origin fun {x m} hm => ?_)
    fun x hx => ?_
  · obtain ⟨n, hn, hclean, -⟩ := stored_origin hm
    exact ⟨n, hn, hclean⟩
  · obtain ⟨m, hm⟩ := Option.isSome_iff_exists.1 hx
    obtain ⟨n, hn, -⟩ := stored_origin hm
    rw [hn]
    rfl

theorem leavesClean_effectFinished (g : Graph β) (id : NodeId) (sources : List NodeId) :
    g.LeavesClean (g.effectFinished id sources) := by
  refine LeavesClean.trans (leavesClean_relink g id sources)
    (leavesClean_modifyNode _ id fun n hclean => ?_) fun x hx => ?_
  · split <;> exact hclean
  · rw [effectFinished, node?_modifyNode] at hx
    split at hx
    · rwa [Option.isSome_map] at hx
    · exact hx

/-- The node will not have to run, unless something is written. -/
def Done (g : Graph β) (x : NodeId) : Prop :=
  g.Spent x ∨ ∃ n, g.node? x = some n ∧ n.freshness = .clean

end Graph

namespace Moment

open Reactive.Graph

/-- The computed whose run the step from this moment begins. -/
def starts? (m : Moment σ) : Option NodeId :=
  match m.task with
  | .settle id =>
    if (m.engine.graph.node? id).any fun n => n.freshness = .dirty && n.isIdleComputed then some id
    else none
  | _ => none

/-- The step from this moment stores a value in a signal. -/
def Writes (m : Moment σ) : Prop :=
  ∃ id value next n old, m.task = .work (.write id value next) ∧ m.engine.graph.node? id = some n ∧
    n.kind = .signal old ∧ (m.engine.settings.writeEquality = .skipEqual && old.equals value) = false

variable {m m' : Moment σ} {x : NodeId} {ms : List (Moment σ)}

theorem starts?_eq_some : m.starts? = some x ↔ m.task = .settle x ∧ ∃ n body last,
    m.engine.graph.node? x = some n ∧ n.freshness = .dirty ∧ n.kind = .computed body false last := by
  unfold starts?
  split
  next id htask =>
    simp only [htask, Task.settle.injEq, Option.ite_none_right_eq_some, Option.any_eq_true,
      Option.some.injEq]
    constructor
    · rintro ⟨⟨n, hn, h⟩, rfl⟩
      refine ⟨rfl, n, ?_⟩
      cases hk : n.kind with
      | computed body running last =>
        obtain ⟨hdirty, rfl⟩ : n.freshness = .dirty ∧ running = false := by
          simpa [Node.isIdleComputed, hk] using h
        exact ⟨body, last, hn, hdirty, rfl⟩
      | _ => simp [Node.isIdleComputed, hk] at h
    · rintro ⟨rfl, n, body, last, hn, hdirty, hk⟩
      exact ⟨⟨n, hn, by simp [hdirty, Node.isIdleComputed, hk]⟩, rfl⟩
  next hother => exact ⟨nofun, fun h => absurd h.1 (hother x)⟩

theorem Step.leavesClean (step : Step m m') (quiet : ¬m.Writes) :
    m.engine.graph.LeavesClean m'.engine.graph := by
  have same {g : Graph (Program σ)} : g.LeavesClean g := leavesClean_of_same fun _ => rfl
  cases step with
  | write found kind other => exact absurd ⟨_, _, _, _, _, rfl, found, kind, other⟩ quiet
  | read | unwrap | writeGone | writeSame | computedRefused | effectRefused | scopeRefused | number
  | inspect | consult | adjust | readNoSignal | readRunning | readNoComputed | readComputed | reached
  | circle | follow | stale | known | allAsked | ask | skip | told | changed | unchanged | upToDate
  | busy | created | held | flush | drained | turn | written | batch | untrack | close | closed
  | tracked => exact same
  | newSignal | newComputed => exact leavesClean_insertNode
  | newOwnedComputed inserted | newEffect inserted => exact leavesClean_insertOwned inserted
  | newScope => exact leavesClean_of_same fun _ => rfl
  | newChildScope inserted => exact leavesClean_of_same (insertChildScope_eq_some inserted).1
  | disposeNode =>
    rw [removeNode_eq_remove]
    exact leavesClean_remove _ _
  | disposeScope => exact leavesClean_remove _ _
  | readSignal | answered =>
    rw [Engine.graph_trackIf]
    exact same
  | cleaned => exact leavesClean_modifyNode _ _ fun _ _ => rfl
  | compute | perform => exact leavesClean_modifyNode _ _ fun _ _ => rfl
  | computed =>
    rw [Engine.storeOutcome_closeRun]
    exact leavesClean_finished _ _ _ _
  | performed =>
    rw [Engine.restEffect_closeRun]
    exact leavesClean_effectFinished _ _ _
  | gaveUp =>
    refine leavesClean_of_origin fun {x m} hm => ?_
    rw [Engine.node?_dropQueue] at hm
    split at hm
    · obtain ⟨n, hn, rfl⟩ := Option.map_eq_some_iff.1 hm
      exact ⟨n, hn, fun _ => rfl⟩
    · exact ⟨m, hm, fun hclean => hclean⟩
  | dequeue waiting =>
    obtain ⟨rest, -, rfl⟩ := Engine.dequeue_eq_some waiting
    exact leavesClean_of_same fun _ => rfl

/-! ## Between two writes -/

theorem Step.done (step : Step m m') (sound : m.Sound) (quiet : ¬m.Writes)
    (done : m.engine.graph.Done x) : m'.engine.graph.Done x := by
  have hlasts := (step.onward sound).lasts
  rcases done with spent | ⟨n, hn, hclean⟩
  · exact .inl (hlasts.spent spent)
  · refine (hlasts.node hn).imp_right fun ⟨k, hk, _⟩ => ?_
    exact ⟨k, hk, step.leavesClean quiet hn hk hclean⟩

/-- A computed that starts to run is clean from then on. -/
theorem Step.started (step : Step m m') (starts : m.starts? = some x) : m'.engine.graph.Done x := by
  obtain ⟨htask, n, body, last, hn, hdirty, hkind⟩ := starts?_eq_some.1 starts
  obtain ⟨_, k, e⟩ := m
  subst htask
  have hfresh : e.graph.freshness? x = some .dirty := by simpa [freshness?] using ⟨n, hn, hdirty⟩
  cases step with
  | upToDate higher => exact absurd hfresh higher
  | cleaned stale => simp [hfresh] at stale
  | busy found _ busy =>
    obtain rfl := Option.some.inj (hn.symm.trans found)
    simp [Node.isRunning, hkind] at busy
  | compute => exact .inr ⟨_, begun_self hn _, rfl⟩
  | perform => exact .inr ⟨_, begun_self hn _, rfl⟩

theorem not_starts_of_done (done : m.engine.graph.Done x) : m.starts? ≠ some x := by
  intro starts
  obtain ⟨-, n, body, last, hn, hdirty, -⟩ := starts?_eq_some.1 starts
  rcases done with spent | ⟨n', hn', hclean⟩
  · simp [spent.node?] at hn
  · obtain rfl := Option.some.inj (hn.symm.trans hn')
    simp [hdirty] at hclean

theorem Call.engine_eq (call : Call m m') : m'.engine = m.engine := by
  cases call
  rfl

theorem Call.starts?_eq_none (call : Call m m') : m.starts? = none := by
  cases call
  rfl

section Goes

/-- One moment comes after the other in a history of the engine. -/
abbrev Goes (m m' : Moment σ) : Prop := Step m m' ∨ Call m m'

theorem Goes.sound (goes : Goes m m') (sound : m.Sound) : m'.Sound :=
  (Later.onward (.single goes) sound).sound

theorem Goes.done (goes : Goes m m') (sound : m.Sound) (quiet : ¬m.Writes)
    (done : m.engine.graph.Done x) : m'.engine.graph.Done x :=
  goes.elim (·.done sound quiet done) fun call => call.engine_eq ▸ done

theorem Path.not_starts (path : Path Goes m ms m') (sound : m.Sound) (quiet : ∀ w ∈ ms, ¬w.Writes)
    (done : m.engine.graph.Done x) : x ∉ ms.filterMap starts? := by
  induction path with
  | nil => simp
  | cons goes _ ih =>
    rw [List.forall_mem_cons] at quiet
    have hrest := ih (goes.sound sound) quiet.2 (goes.done sound quiet.1 done)
    rintro hmem
    obtain ⟨w, hw, hstarts⟩ := List.mem_filterMap.1 hmem
    rcases List.mem_cons.1 hw with rfl | hw
    · exact not_starts_of_done done hstarts
    · exact hrest (List.mem_filterMap.2 ⟨w, hw, hstarts⟩)

/-- As long as nothing is written, no computed starts to run twice. -/
theorem Path.nodup_starts (path : Path Goes m ms m') (sound : m.Sound)
    (quiet : ∀ w ∈ ms, ¬w.Writes) : (ms.filterMap starts?).Nodup := by
  induction path with
  | nil => exact .nil
  | @cons m m₁ m' ms goes path ih =>
    rw [List.forall_mem_cons] at quiet
    have hrest := ih (goes.sound sound) quiet.2
    rw [List.filterMap_cons]
    cases hstarts : m.starts? with
    | none => exact hrest
    | some x =>
      have hdone : m₁.engine.graph.Done x := goes.elim (·.started hstarts) fun call => by
        simp [call.starts?_eq_none] at hstarts
      exact List.nodup_cons.2 ⟨path.not_starts (goes.sound sound) quiet.2 hdone, hrest⟩

end Goes

end Moment

/-! ## While there are only reads -/

namespace Graph

/-- Bodies only read, and what is shown is fit to be read. -/
structure Tame (g : Graph (Program σ)) : Prop where
  lawful : ∀ {x : NodeId} {n : Node (Program σ)} {body : Program σ} {sort : NodeSort},
    g.node? x = some n → n.kind.code? = some (body, sort) → body.Lawful
  proper : ∀ {x : NodeId} {n : Node (Program σ)}, g.node? x = some n → n.kind.shown.Proper

variable {g h k : Graph (Program σ)} {id : NodeId}

/-- The same nodes with the same bodies. -/
structure Tended (g h : Graph (Program σ)) : Prop where
  live : ∀ x, (h.node? x).isSome = (g.node? x).isSome
  code : ∀ {x : NodeId} {n m : Node (Program σ)}, g.node? x = some n → h.node? x = some m →
    m.kind.code? = n.kind.code? ∧ (n.kind.shown.Proper → m.kind.shown.Proper)

theorem Tended.refl (g : Graph (Program σ)) : g.Tended g :=
  ⟨fun _ => rfl, fun hn hm => by rw [Option.some.inj (hn.symm.trans hm)]; exact ⟨rfl, id⟩⟩

theorem Tended.find (ht : g.Tended h) {x : NodeId} {m : Node (Program σ)} (hm : h.node? x = some m) :
    ∃ n, g.node? x = some n ∧ m.kind.code? = n.kind.code? ∧
      (n.kind.shown.Proper → m.kind.shown.Proper) := by
  obtain ⟨n, hn⟩ := Option.isSome_iff_exists.1 ((ht.live x).symm.trans (by simp [hm]))
  exact ⟨n, hn, ht.code hn hm⟩

theorem Tended.trans (ht : g.Tended h) (ht' : h.Tended k) : g.Tended k where
  live x := (ht'.live x).trans (ht.live x)
  code hn hl := by
    obtain ⟨m, hm, hcode, hproper⟩ := ht'.find hl
    obtain ⟨hcode', hproper'⟩ := ht.code hn hm
    exact ⟨hcode.trans hcode', hproper ∘ hproper'⟩

theorem Tame.tended (tame : g.Tame) (ht : g.Tended h) : h.Tame where
  lawful hm hbody := by
    obtain ⟨n, hn, hcode, -⟩ := ht.find hm
    exact tame.lawful hn (hcode.symm.trans hbody)
  proper hm := by
    obtain ⟨n, hn, -, hproper⟩ := ht.find hm
    exact hproper (tame.proper hn)

theorem tended_modifyNode (id : NodeId) {f : Node (Program σ) → Node (Program σ)}
    (code : ∀ n, g.node? id = some n → (f n).kind.code? = n.kind.code? ∧
      (n.kind.shown.Proper → (f n).kind.shown.Proper)) : g.Tended (g.modifyNode id f) where
  live x := by
    rw [node?_modifyNode]
    split
    · rw [Option.isSome_map]
    · rfl
  code {x n m} hn hm := by
    rw [node?_modifyNode] at hm
    split at hm
    next hx =>
      subst hx
      rw [hn] at hm
      obtain rfl := Option.some.inj hm
      exact code n hn
    next =>
      rw [Option.some.inj (hn.symm.trans hm)]
      exact ⟨rfl, fun h => h⟩

theorem tended_relink (g : Graph (Program σ)) (id : NodeId) (sources : List NodeId) :
    g.Tended (g.relink id sources) := by
  cases hid : g.node? id with
  | none =>
    rw [relink, hid]
    exact .refl g
  | some l =>
    refine ⟨isSome_relink hid sources, fun {x n m} hn hm => ?_⟩
    rw [node?_relink hid, hn, Option.map_some] at hm
    obtain rfl := Option.some.inj hm
    exact ⟨rfl, fun h => h⟩

theorem tended_finished (g : Graph (Program σ)) (id : NodeId) (sources : List NodeId)
    {outcome : Outcome} (proper : outcome.Proper) : g.Tended (g.finished id sources outcome) := by
  refine (tended_relink g id sources).trans ⟨fun x => ?_, fun {x n m} hn hm => ?_⟩
  · rw [finished, ← Option.isSome_map (f := Node.shape), (alters_stored _ _ _).shape, Option.isSome_map]
  · obtain ⟨n', hn', -, hcode, hshown⟩ := stored_origin hm
    obtain rfl := Option.some.inj (hn.symm.trans hn')
    refine ⟨hcode, fun hproper => ?_⟩
    rcases hshown with hsame | houtcome
    · rwa [hsame]
    · rwa [houtcome]

theorem tended_effectFinished (g : Graph (Program σ)) (id : NodeId) (sources : List NodeId) :
    g.Tended (g.effectFinished id sources) := by
  refine (tended_relink g id sources).trans (tended_modifyNode id fun n _ => ?_)
  cases hk : n.kind <;> simp [hk, NodeKind.code?, NodeKind.shown]

theorem tended_dropQueue (e : Engine σ) : e.graph.Tended e.dropQueue.graph where
  live x := by
    rw [Engine.node?_dropQueue]
    split
    · rw [Option.isSome_map]
    · rfl
  code {x n m} hn hm := by
    rw [Engine.node?_dropQueue, hn] at hm
    split at hm <;>
    · obtain rfl := Option.some.inj hm
      exact ⟨rfl, fun h => h⟩

end Graph

theorem Graph.Attentive.tame {g : Graph (Program σ)} (hs : g.Attentive) : g.Tame where
  lawful {x n body sort} hn hbody := by
    cases hk : n.kind with
    | signal value => simp [hk, NodeKind.code?] at hbody
    | computed b running last =>
      obtain ⟨rfl, -⟩ : b = body ∧ _ := by simpa [hk, NodeKind.code?] using hbody
      exact hs.coherent.lawful (body?_of_kind hn hk)
    | effect b running =>
      obtain ⟨rfl, -⟩ : b = body ∧ _ := by simpa [hk, NodeKind.code?] using hbody
      exact (hs.effects hn hk).1
  proper hn := hs.coherent.proper hn

/-- The answer goes to a program that only reads. -/
def Reader.Tame : Reader σ → Prop
  | .program next => ∀ r r', r.Alike r' → (next r).Alike (next r')
  | .chain _ _ => False

def Task.Tame : Task σ → Prop
  | .work p => p.Lawful
  | .read _ _ reader => reader.Tame
  | .follow _ _ _ => False
  | _ => True

def Caller.Tame : Caller σ → Prop
  | .reading _ _ reader => reader.Tame
  | .asking _ _ | .computing _ | .performing _ | .draining _ _ => True
  | .creating _ _ | .batching _ | .closing _ _ | .untracking _ | .writing _ => False

theorem Reader.Tame.resume {reader : Reader σ} (tame : reader.Tame) {o : Outcome} (proper : o.Proper)
    (cell : Cell) : (reader.resume o cell).Tame := by
  cases reader with
  | program next => exact tame o o (.refl proper)
  | chain => exact tame.elim

theorem Graph.Tame.shownOutcome {e : Engine σ} (tame : e.graph.Tame) (id : NodeId) :
    (e.shownOutcome id).Proper := by
  unfold Engine.shownOutcome
  split
  next hn => exact tame.proper hn
  next hn => exact tame.proper hn
  next => trivial

namespace Moment

open Reactive.Graph

/-- Nothing is under way but reads. -/
structure Tame (m : Moment σ) : Prop where
  graph : m.engine.graph.Tame
  task : m.task.Tame
  callers : ∀ c ∈ m.callers, c.Tame

variable {m m' : Moment σ} {x : NodeId}

theorem Tame.quiet (tame : m.Tame) : ¬m.Writes := by
  rintro ⟨id, value, next, n, old, htask, -⟩
  have hlawful := tame.task
  rw [htask] at hlawful
  cases hlawful

theorem Tame.still (tame : m.Tame) {task : Task σ} {k : List (Caller σ)} {e : Engine σ}
    (graph : e.graph = m.engine.graph) (tame' : task.Tame) (callers : ∀ c ∈ k, c ∈ m.callers ∨ c.Tame) :
    Tame ⟨task, k, e⟩ ∧ m.engine.graph.Tended e.graph :=
  ⟨⟨graph ▸ tame.graph, tame', fun c hc => (callers c hc).elim (tame.callers c) fun h => h⟩,
    graph ▸ .refl _⟩

theorem Tame.tend (tame : m.Tame) {task : Task σ} {k : List (Caller σ)} {e : Engine σ}
    (tended : m.engine.graph.Tended e.graph) (tame' : task.Tame)
    (callers : ∀ c ∈ k, c ∈ m.callers ∨ c.Tame) :
    Tame ⟨task, k, e⟩ ∧ m.engine.graph.Tended e.graph :=
  ⟨⟨tame.graph.tended tended, tame', fun c hc => (callers c hc).elim (tame.callers c) fun h => h⟩,
    tended⟩

theorem tended_begun {g : Graph (Program σ)} {id : NodeId} {n : Node (Program σ)}
    {kind : NodeKind (Program σ)} (found : g.node? id = some n) (code : kind.code? = n.kind.code?)
    (shown : kind.shown = n.kind.shown) : g.Tended (g.begun id kind) := by
  refine tended_modifyNode id fun n' hn' => ?_
  obtain rfl := Option.some.inj (found.symm.trans hn')
  exact ⟨code, fun h => shown ▸ h⟩

/-- As long as there are only reads, no node comes or goes. -/
theorem Step.tame (step : Step m m') (tame : m.Tame) :
    m'.Tame ∧ m.engine.graph.Tended m'.engine.graph := by
  have same {k : List (Caller σ)} : ∀ c ∈ k, c ∈ k ∨ c.Tame := fun _ => .inl
  have pushed {c : Caller σ} {k : List (Caller σ)} (hc : c.Tame) : ∀ c' ∈ c :: k, c' ∈ k ∨ c'.Tame :=
    fun c' hc' => (List.mem_cons.1 hc').elim (fun heq => .inr (heq ▸ hc)) .inl
  have popped {c : Caller σ} {k : List (Caller σ)} : ∀ c' ∈ k, c' ∈ c :: k ∨ c'.Tame :=
    fun _ hc' => .inl (List.mem_cons_of_mem _ hc')
  have lawful {p : Program σ} (h : (Task.work p).Tame) : p.Lawful := h
  cases step with
  | unwrap | writeGone | writeSame | write | newSignal | newComputed | newOwnedComputed
  | computedRefused | newEffect | effectRefused | newScope | newChildScope | scopeRefused | disposeNode
  | disposeScope | batch | untrack | number | inspect | consult | adjust =>
    cases lawful tame.task
  | reached | circle | follow => exact tame.task.elim
  | created | written | close | closed | tracked => exact (tame.callers _ List.mem_cons_self).elim
  | read =>
    cases lawful tame.task with
    | read _ h => exact tame.still rfl h same
  | readSignal _ found kind =>
    have hproper := tame.graph.proper found
    rw [kind] at hproper
    exact tame.still (Engine.graph_trackIf _ _ _) (Reader.Tame.resume tame.task hproper _) same
  | readNoSignal | readRunning | readNoComputed =>
    exact tame.still rfl (Reader.Tame.resume tame.task (by trivial) _) same
  | readComputed => exact tame.still rfl trivial (pushed tame.task)
  | answered =>
    have hreader := tame.callers _ List.mem_cons_self
    exact tame.still (Engine.graph_trackIf _ _ _)
      (Reader.Tame.resume hreader (Graph.Tame.shownOutcome tame.graph _) _) popped
  | stale | known | allAsked | skip | changed | unchanged | upToDate | busy | held | flush | drained =>
    exact tame.still rfl trivial same
  | told | turn => exact tame.still rfl trivial popped
  | ask => exact tame.still rfl trivial (pushed trivial)
  | cleaned => exact tame.tend (tended_modifyNode _ fun _ _ => ⟨rfl, fun h => h⟩) trivial same
  | @compute id k body last e n found dirty kind =>
    have hcode : n.kind.code? = some (body, .computed) := by rw [kind]; rfl
    refine tame.tend (tended_begun found hcode.symm ?_) (tame.graph.lawful found hcode) (pushed trivial)
    rw [kind]
    cases last <;> rfl
  | @perform id k body e n found dirty kind =>
    have hcode : n.kind.code? = some (body, .effect) := by rw [kind]; rfl
    refine tame.tend (tended_begun found hcode.symm ?_) (tame.graph.lawful found hcode) (pushed trivial)
    rw [kind]
    rfl
  | computed =>
    rw [Engine.storeOutcome_closeRun]
    cases lawful tame.task with
    | done h => exact tame.tend (tended_finished _ _ _ h.left) trivial popped
  | performed =>
    rw [Engine.restEffect_closeRun]
    exact tame.tend (tended_effectFinished _ _ _) trivial popped
  | gaveUp => exact tame.tend (tended_dropQueue _) trivial same
  | dequeue waiting =>
    obtain ⟨rest, -, rfl⟩ := Engine.dequeue_eq_some waiting
    exact tame.tend ⟨fun _ => rfl, (Tended.refl _).code⟩ trivial (pushed trivial)

theorem Tame.steps (tame : m.Tame) (steps : Steps m m') :
    m'.Tame ∧ m.engine.graph.Tended m'.engine.graph ∧
      m.engine.graph.LeavesClean m'.engine.graph := by
  induction steps with
  | refl => exact ⟨tame, .refl _, leavesClean_of_same fun _ => rfl⟩
  | tail _ step ih =>
    obtain ⟨htame, htended, hclean⟩ := ih
    obtain ⟨htame', htended'⟩ := step.tame htame
    refine ⟨htame', htended.trans htended', hclean.trans (step.leavesClean htame.quiet) fun x hx => ?_⟩
    rwa [← htended'.live]

/-- What was run was late before, and is clean in the end. -/
theorem Tame.started {w : Moment σ} (tame : m.Tame) (before : Steps m w) (starts : w.starts? = some x)
    (after : Steps w m') (silent : m'.starts? = none) :
    (∃ n, m.engine.graph.node? x = some n ∧ n.freshness ≠ .clean) ∧
      ∃ n, m'.engine.graph.node? x = some n ∧ n.freshness = .clean := by
  obtain ⟨htame, htended, hclean⟩ := tame.steps before
  obtain ⟨-, n, body, last, hn, hdirty, -⟩ := starts?_eq_some.1 starts
  obtain ⟨n₀, hn₀, -⟩ := htended.find hn
  refine ⟨⟨n₀, hn₀, fun h => by simp [hclean hn₀ hn h] at hdirty⟩, ?_⟩
  rcases Relation.ReflTransGen.cases_head after with rfl | ⟨w', step, rest⟩
  · rw [starts] at silent
    cases silent
  obtain ⟨htame', htended'⟩ := step.tame htame
  obtain ⟨n₁, hn₁⟩ := Option.isSome_iff_exists.1 ((htended'.live x).trans (by simp [hn]))
  have hclean₁ : n₁.freshness = .clean := by
    rcases step.started starts with spent | ⟨n', hn', h⟩
    · simp [spent.node?] at hn₁
    · rwa [Option.some.inj (hn₁.symm.trans hn')]
  obtain ⟨-, htended₂, hleaves⟩ := htame'.steps rest
  obtain ⟨n₂, hn₂⟩ := Option.isSome_iff_exists.1 ((htended₂.live x).trans (by simp [hn₁]))
  exact ⟨n₂, hn₂, hleaves hn₁ hn₂ hclean₁⟩

/-! ## On top of other callers -/

/-- A moment on top of more callers. -/
def atop (m : Moment σ) (k : List (Caller σ)) : Moment σ := { m with callers := m.callers ++ k }

/-- What waits further down makes no difference. -/
theorem Step.atop (step : Step m m') (k : List (Caller σ)) : Step (m.atop k) (m'.atop k) := by
  cases step with
  | busy found dirty busy => exact .busy found dirty busy
  | _ => constructor <;> assumption

/-- What happens on top of the callers of a moment. -/
inductive During (m : Moment σ) : Moment σ → Prop where
  | start : During m m
  | step {w w' : Moment σ} (during : During m w) (step : Step w w') (inside : m.callers <:+ w'.callers) :
      During m w'

/-- What happens is part of the whole, as far as that stops. -/
theorem During.part {task task' : Task σ} {k : List (Caller σ)} {e e' : Engine σ} {w : Moment σ}
    (during : During ⟨task, k, e⟩ w) (whole : Steps ⟨task, [], e⟩ ⟨task', [], e'⟩)
    (stops : ∀ w, Step ⟨task', k, e'⟩ w → ¬k <:+ w.callers) :
    ∃ w₀, Steps ⟨task, [], e⟩ w₀ ∧ Steps w₀ ⟨task', [], e'⟩ ∧ w = w₀.atop k := by
  induction during with
  | start => exact ⟨_, .refl, whole, rfl⟩
  | step _ step inside ih =>
    obtain ⟨w₀, before, after, rfl⟩ := ih
    rcases Relation.ReflTransGen.cases_head after with rfl | ⟨w₁, step', after⟩
    · exact absurd inside (stops _ step)
    · exact ⟨w₁, before.tail step', after, step.functional (step'.atop k)⟩

theorem stops_refreshed {k : List (Caller σ)} {e : Engine σ} {w : Moment σ}
    (step : Step ⟨.refreshed, k, e⟩ w) : ¬k <:+ w.callers := by
  intro inside
  have := inside.length_le
  cases step <;> simp at this

theorem stops_flushed {r : Except Fault Unit} {k : List (Caller σ)} {e : Engine σ} {w : Moment σ}
    (step : Step ⟨.flushed r, k, e⟩ w) : ¬k <:+ w.callers := by
  intro inside
  have := inside.length_le
  cases step <;> simp at this

/-! ## What is run is needed -/

/-- Nodes that are late at one end and clean at the other were brought up to date. -/
theorem updated_of_started {P : NodeId → Prop} {g h : Graph (Program σ)} (hr : g.Refreshed P h)
    (late : ∃ n, g.node? x = some n ∧ n.freshness ≠ .clean)
    (clean : ∃ n, h.node? x = some n ∧ n.freshness = .clean) : P x := by
  obtain ⟨n, hn, hlate⟩ := late
  obtain ⟨m, hm, hclean⟩ := clean
  rcases hr.each hn hm with kept | ⟨hp, -⟩
  · exact absurd (kept.clean_iff.1 hclean) hlate
  · exact hp

theorem refresh_needed {e : Engine σ} (hs : e.graph.Attentive) {id : NodeId}
    (computes : e.graph.sheet.Computes id) {k : List (Caller σ)} {w : Moment σ}
    (during : During ⟨.refresh id, k, e⟩ w) (starts : w.starts? = some x) :
    Relation.ReflTransGen e.graph.sheet.Calls id x := by
  obtain ⟨bound, hbound⟩ := Engine.refresh_attentive hs computes
  obtain ⟨e', refreshed⟩ := Option.isSome_iff_exists.1 ((hbound (bound + 1)).2 (Nat.lt_succ_self _))
  obtain ⟨g, rfl, hr, -⟩ := (hbound (bound + 1)).1 _ refreshed
  obtain ⟨w₀, before, after, rfl⟩ :=
    during.part (refreshes_refreshWithin _ [] refreshed) fun _ => stops_refreshed
  have tame : Tame (⟨.refresh id, [], e⟩ : Moment σ) := ⟨hs.tame, trivial, nofun⟩
  obtain ⟨late, clean⟩ := tame.started before starts after rfl
  exact updated_of_started hr late clean

theorem flush_needed {e : Engine σ} (hs : e.graph.Attentive) {k : List (Caller σ)} {w : Moment σ}
    (during : During ⟨.flush, k, e⟩ w) (starts : w.starts? = some x) : e.graph.Concerns x := by
  obtain ⟨bound, hshallow⟩ := hs.exists_shallow
  have hyields := Engine.flush_attentive hs hshallow (bound + 1)
  obtain ⟨⟨r, e'⟩, flushed⟩ := Option.isSome_iff_exists.1 (hyields.2 (Nat.lt_succ_self _))
  obtain ⟨hcase, -⟩ := hyields.1 _ flushed
  obtain ⟨w₀, before, after, rfl⟩ :=
    during.part (flush_steps (refreshes_refreshWithin _) flushed) fun _ => stops_flushed
  have tame : Tame (⟨.flush, [], e⟩ : Moment σ) := ⟨hs.tame, trivial, nofun⟩
  obtain ⟨late, clean⟩ := tame.started before starts after rfl
  rcases hcase with rfl | ⟨g, rfl, worked⟩
  · exact (updated_of_started (P := fun _ => False) (.refl hs.coherent.shown_proper) late clean).elim
  · refine (updated_of_started worked late clean).resolve_right fun hx => ?_
    -- a queued effect is no computed
    obtain ⟨n, hn, heffect⟩ := hs.queued x hx
    obtain ⟨-, n', body, last, hn', -, hk⟩ := starts?_eq_some.1 starts
    obtain ⟨n₀, hn₀, hcode, -⟩ := (tame.steps before).2.1.find hn'
    obtain rfl := Option.some.inj (hn.symm.trans hn₀)
    obtain ⟨p, running, hk₀⟩ := Node.kind_of_isEffect heffect
    simp [hk, hk₀, NodeKind.code?] at hcode

/-- Between two writes a computed starts to run once at most. And if bodies only read, a computed that
runs while another one is read is one that the evaluation of that read from scratch comes to; one that
runs while the queue is worked off, one that the evaluation of the body of a queued effect comes to. -/
theorem starts_needed :
    (∀ {m m' : Moment σ} {ms : List (Moment σ)}, m.Reached → Path Goes m ms m' →
      (∀ w ∈ ms, ¬w.Writes) → (ms.filterMap starts?).Nodup) ∧
    ∀ {e : Engine σ}, e.Driven →
      (∀ {id x : NodeId} {tracked : Bool} {reader : Reader σ} {k : List (Caller σ)} {w : Moment σ},
        e.graph.sheet.Computes id →
        During ⟨.refresh id, .reading ⟨.computed, id⟩ tracked reader :: k, e⟩ w → w.starts? = some x →
          e.graph.sheet.Consults (.get ⟨.computed, id⟩) x) ∧
      ∀ {x : NodeId} {k : List (Caller σ)} {w : Moment σ}, During ⟨.flush, k, e⟩ w →
        w.starts? = some x → e.graph.Concerns x := by
  refine ⟨fun reached path quiet => path.nodup_starts reached.sound quiet, fun driven => ⟨?_, ?_⟩⟩
  · intro id x tracked reader k w computes during starts
    obtain ⟨body, found⟩ := computes
    exact ⟨id, .here found, refresh_needed driven.attentive ⟨body, found⟩ during starts⟩
  · intro x k w during starts
    exact flush_needed driven.attentive during starts

namespace Demand

open Engine.Small

def label : Program Journal := .get ⟨.computed, copy⟩

theorem lawful_get (cell : Cell) : (Program.get cell : Program Journal).Lawful :=
  .read _ fun _ _ h => .done h

def founded : Engine Journal := { Engine.start settings [] with graph := cells }

theorem driven_founded : founded.Driven := by
  have h₀ : (Engine.start settings [] : Engine Journal).Driven := .start settings []
  have h₁ := h₀.newScope.newSignal (Value.Proper.bool false)
  have h₂ := h₁.newSignal (Value.Proper.bool false)
  exact h₂.newComputed (lawful_get _) ranked_cells

theorem grounded_label : founded.graph.sheet.Grounded label := by
  intro t ht
  obtain ⟨v, hv⟩ : ∃ v, t.value? first = some v :=
    Option.isSome_iff_exists.1 ((ht.2.1 first).trans rfl)
  have hbody : t.body? copy = some (.get ⟨.signal, first⟩) := by
    rw [ht.1]
    rfl
  exact ⟨1, .ok v, .computed hbody (.signal hv (.done _)) (.done _)⟩

/-- The label is shown by an effect. -/
def labelled : Engine Journal :=
  ((founded.graph.insertOwned (.effect label false) scope).bind fun made =>
    Engine.refreshWithin 3 made.1 { founded with graph := made.2 }).get (by decide +kernel)

theorem driven_labelled : labelled.Driven := by
  obtain ⟨⟨id, g⟩, inserted, ran⟩ := Option.bind_eq_some_iff.1
    (Option.some_get (x := (founded.graph.insertOwned (.effect label false) scope).bind fun made =>
      Engine.refreshWithin 3 made.1 { founded with graph := made.2 }) (by decide +kernel)).symm
  exact driven_founded.newEffect (lawful_get _) grounded_label inserted ran

/-- Then what it shows changes. -/
def stored : Engine Journal :=
  { labelled with graph := labelled.graph.written first (.bool true) [copy] }

theorem driven_stored : stored.Driven := by
  have found : labelled.graph.node? first = some ⟨.signal (.bool false), .clean, [], [copy], none⟩ := by
    cbv
  exact driven_labelled.store found rfl (.bool true)

theorem copy_stored : stored.graph.node? copy = some
    ⟨.computed (.get ⟨.signal, first⟩) false (some (.ok (.bool false))), .dirty, [first], [⟨3, 0⟩], none⟩ := by
  cbv

theorem dirty_stored : stored.graph.freshness? copy ≠ some .stale := by
  simp [Graph.freshness?, copy_stored]

/-- The effect is stale, and asks the computed that it shows. -/
theorem asks_copy : ∃ w, During ⟨.flush, [], stored⟩ w ∧ w.starts? = some copy := by
  have hidle : (stored.graph.node? copy).any Node.isIdleComputed = true := by
    simp [copy_stored, Node.isIdleComputed]
  have hstale : stored.graph.node? ⟨3, 0⟩ =
      some ⟨.effect label false, .stale, [copy], [], some scope⟩ := by cbv
  have hpending : stored.graph.pending = [⟨3, 0⟩] := by cbv
  have hdequeue : ({ stored with flushing := true } : Engine Journal).dequeue =
      some (⟨3, 0⟩, { stored with
        flushing := true
        graph := { stored.graph with pending := [] } }) := by
    simp only [Engine.dequeue, hpending]
  have hflush : During ⟨.flush, [], stored⟩ ⟨.drain 1 1, [], { stored with flushing := true }⟩ :=
    .step .start (.flush (by cbv)) List.nil_suffix
  have hturn := hflush.step (.dequeue hdequeue) List.nil_suffix
  have hask := (hturn.step (.stale hstale rfl) List.nil_suffix).step (.ask hidle) List.nil_suffix
  exact ⟨_, hask.step (.known dirty_stored) List.nil_suffix,
    starts?_eq_some.2 ⟨rfl, _, _, _, copy_stored, rfl, rfl⟩⟩

/-- A signal, a computed that shows it, and a read of that one. -/
def session : Program Journal :=
  .newSignal (.bool false) fun id => .newComputed none (.get ⟨.signal, id⟩) fun _ =>
    .get ⟨.computed, ⟨1, 0⟩⟩

/-- The read starts a run of the computed. -/
theorem session_starts : ∃ (m' : Moment Journal) (ms : List (Moment Journal)),
    Path Goes ⟨.work session, [], .start .default []⟩ ms m' ∧ (∀ w ∈ ms, ¬w.Writes) ∧
      ms.filterMap starts? = [⟨1, 0⟩] := by
  refine ⟨_, _, .cons (.inl .newSignal) (.cons (.inl .newComputed) (.cons (.inl .read)
    (.cons (.inl (.readComputed (n := ⟨.computed (.get ⟨.signal, ⟨0, 0⟩⟩) false none, .dirty, [], [], none⟩)
      rfl (by cbv) rfl))
      (.cons (.inl (.known (by decide +kernel)))
        (.cons (.inl (.compute (n := ⟨.computed (.get ⟨.signal, ⟨0, 0⟩⟩) false none, .dirty, [], [], none⟩)
          (by cbv) rfl rfl)) (.nil _)))))), ?_, ?_⟩
  · simp [Writes, session, Program.get]
  · cbv

end Demand

open Engine.Small Demand in
theorem starts_needed_copy :
    (∃ (m' : Moment Journal) (ms : List (Moment Journal)),
      Path Goes ⟨.work session, [], .start .default []⟩ ms m' ∧ (∀ w ∈ ms, ¬w.Writes) ∧
        ms.filterMap starts? = [⟨1, 0⟩] ∧ (ms.filterMap starts?).Nodup) ∧
    stored.Driven ∧
    (∃ w, During ⟨.refresh copy, [.reading ⟨.computed, copy⟩ true (.program .done)], stored⟩ w ∧
      w.starts? = some copy ∧ stored.graph.sheet.Consults (.get ⟨.computed, copy⟩) copy) ∧
    ∃ w, During ⟨.flush, [], stored⟩ w ∧ w.starts? = some copy ∧ stored.graph.Concerns copy := by
  refine ⟨?_, driven_stored, ?_, ?_⟩
  · obtain ⟨m', ms, path, quiet, starts⟩ := session_starts
    exact ⟨m', ms, path, quiet, starts, starts_needed.1 ⟨.default, [], session, .refl⟩ path quiet⟩
  · have during : During ⟨.refresh copy, [.reading ⟨.computed, copy⟩ true (.program .done)], stored⟩
        ⟨.settle copy, [.reading ⟨.computed, copy⟩ true (.program .done)], stored⟩ :=
      .step .start (.known dirty_stored) (List.suffix_refl _)
    have starts : (⟨.settle copy, [.reading ⟨.computed, copy⟩ true (.program .done)], stored⟩ :
        Moment Journal).starts? = some copy :=
      starts?_eq_some.2 ⟨rfl, _, _, _, copy_stored, rfl, rfl⟩
    have computes : stored.graph.sheet.Computes copy := ⟨_, body?_of_kind copy_stored rfl⟩
    exact ⟨_, during, starts, (starts_needed.2 driven_stored).1 computes during starts⟩
  · obtain ⟨w, during, starts⟩ := asks_copy
    exact ⟨w, during, starts, (starts_needed.2 driven_stored).2 during starts⟩

end Moment

end LiveTemplate.Reactive
