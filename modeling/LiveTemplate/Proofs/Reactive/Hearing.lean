import Mathlib
import LiveTemplate.Proofs.Reactive.Continuity

/-!
# What effects hear of

Whatever the bodies do, an engine at rest is orderly, and an effect of it has heard of every write to
what it read, but for those made in the course of its last run: these it hears of only if it had recorded
the signal before (`Engine.Informed`). What an effect reads for the first time, it records when its run
is over; so after its first run it is clean, whatever was written (`Engine.Course.first_run`).
-/
namespace LiveTemplate.Reactive

variable {σ : Type}

namespace Engine

open Reactive.Graph Event

/-! ## Orderly engines -/

/-- The graph is tidy, what is being collected there is or was, and outside of flushes effects are only
running for the first time. -/
structure Ordered (hand : NodeId → Prop) (e : Engine σ) : Prop where
  tidy : e.graph.Tidy hand
  known : ∀ reads, some reads ∈ e.tracking → ∀ s ∈ reads, e.graph.Met s
  opening : e.flushing = false → e.graph.Opening

/-- An ordered engine whose queue is empty, unless it is being worked off or held back. -/
structure Orderly (hand : NodeId → Prop) (e : Engine σ) : Prop extends e.Ordered hand where
  drained : e.flushing = false → e.batchDepth = 0 → e.graph.pending = []

/-- An effect may be brought up to date in a flush if it is not in the middle of a run that could have
made it late; or when it is new. -/
def Due (e : Engine σ) (id : NodeId) : Prop :=
  ∀ n, e.graph.node? id = some n → n.isEffect = true →
    e.flushing = true ∧ (n.isRunning = true → n.freshness = .clean) ∨
      n.sources = [] ∧ n.freshness = .dirty ∧ n.isRunning = false

/-- Flags are set back, and the graph continues. -/
structure Follows (e : Engine σ) (evs : List Event) (e' : Engine σ) : Prop where
  continues : e.graph.Continues evs e'.graph
  flushing : e'.flushing = e.flushing
  batchDepth : e'.batchDepth = e.batchDepth

/-- What an activity keeps. -/
def Upholds : Activity → Engine σ → List Event → Engine σ → Prop
  | .work, e, evs, e' => ∀ hand, e.Orderly hand → e'.Orderly hand ∧ Follows e evs e'
  | .flush, e, evs, e' => ∀ hand, e.Ordered hand → e'.Orderly hand ∧ Follows e evs e'
  | .drain _, e, evs, e' => ∀ hand, e.flushing = true → e.Ordered hand → e.graph.Opening →
      e'.Ordered hand ∧ e'.graph.pending = [] ∧ Follows e evs e'
  | .refresh id, e, evs, e' => ∀ hand, (e.Orderly fun x => hand x ∨ x = id) → e.Due id →
      e'.Orderly hand ∧ Follows e evs e'
  | .settle id, e, evs, e' => ∀ hand, (e.Orderly fun x => hand x ∨ x = id) → e.Due id →
      e'.Orderly hand ∧ Follows e evs e'

variable {e e₁ e₂ e' : Engine σ} {evs evs' : List Event} {hand : NodeId → Prop} {id : NodeId}

theorem Follows.trans (h : Follows e evs e₁) (h' : Follows e₁ evs' e₂) : Follows e (evs ++ evs') e₂ :=
  ⟨h.continues.trans h'.continues, h'.flushing.trans h.flushing, h'.batchDepth.trans h.batchDepth⟩

theorem Follows.of_graph {g : Graph (Program σ)} (hc : e.graph.Continues evs g) :
    Follows e evs { e with graph := g } :=
  ⟨hc, rfl, rfl⟩

theorem Follows.of_nodes (nodes : e'.graph.nodes = e.graph.nodes) (flushing : e'.flushing = e.flushing)
    (batchDepth : e'.batchDepth = e.batchDepth) : Follows e [] e' :=
  ⟨.of_nodes nodes, flushing, batchDepth⟩

/-- An engine that continues an ordered one with a tidy graph, and collects no more. -/
theorem Ordered.follow {hand' : NodeId → Prop} (ho : e.Ordered hand) (hf : Follows e evs e')
    (tidy : e'.graph.Tidy hand') (tracking : e'.tracking ⊆ e.tracking) : e'.Ordered hand' where
  tidy := tidy
  known reads hmem s hs := hf.continues.of_met (ho.known reads (tracking hmem) s hs)
  opening still := hf.continues.opening (ho.opening (hf.flushing.symm.trans still))

/-- Nor is there anything new in its queue. -/
theorem Orderly.follow {hand' : NodeId → Prop} (ho : e.Orderly hand) (hf : Follows e evs e')
    (tidy : e'.graph.Tidy hand') (tracking : e'.tracking ⊆ e.tracking)
    (pending : e'.graph.pending ⊆ e.graph.pending) : e'.Orderly hand' where
  toOrdered := ho.toOrdered.follow hf tidy tracking
  drained still rest := List.subset_nil.1 <|
    ho.drained (hf.flushing.symm.trans still) (hf.batchDepth.symm.trans rest) ▸ pending

theorem Orderly.mono {hand' : NodeId → Prop} (ho : e.Orderly hand) (more : ∀ x, hand x → hand' x) :
    e.Orderly hand' :=
  ⟨⟨ho.tidy.mono more, ho.known, ho.opening⟩, ho.drained⟩

/-- The nodes and the queue are the same. -/
theorem Orderly.of_nodes (ho : e.Orderly hand) (e' : Engine σ)
    (nodes : e'.graph.nodes = e.graph.nodes) (pending : e'.graph.pending = e.graph.pending)
    (tracking : e'.tracking ⊆ e.tracking) (flushing : e'.flushing = e.flushing)
    (batchDepth : e'.batchDepth = e.batchDepth) : e'.Orderly hand ∧ Follows e [] e' := by
  have hf : Follows e [] e' := .of_nodes nodes flushing batchDepth
  exact ⟨ho.follow hf (ho.tidy.of_nodes nodes pending) tracking (pending ▸ List.Subset.refl _), hf⟩

/-! ## Reads -/

/-- One more read is collected. -/
theorem Orderly.tracked (ho : e.Orderly hand) (met : e.graph.Met id) (tracked : Bool) :
    (e.trackIf tracked id).Orderly hand ∧ Follows e [] (e.trackIf tracked id) := by
  obtain ⟨tracking, htrack⟩ := trackIf_eq e tracked id
  have known : ∀ reads, some reads ∈ (e.trackIf tracked id).tracking → ∀ s ∈ reads, e.graph.Met s := by
    intro reads hmem s hs
    cases tracked with
    | false => exact ho.known reads hmem s hs
    | true =>
      rw [trackIf, if_pos rfl, track] at hmem
      split at hmem
      next sources rest htracking =>
        rcases List.mem_cons.1 hmem with h | h
        · obtain rfl := Option.some.inj h
          rcases mem_enlist.1 hs with rfl | hs
          · exact met
          · exact ho.known sources (htracking ▸ List.mem_cons_self) s hs
        · exact ho.known reads (htracking ▸ List.mem_cons_of_mem _ h) s hs
      next => exact ho.known reads hmem s hs
  rw [htrack] at known ⊢
  exact ⟨⟨⟨ho.tidy, known, ho.opening⟩, ho.drained⟩, .of_nodes rfl rfl rfl⟩

theorem Ordered.collected (ho : e.Ordered hand) : ∀ s ∈ e.collected, e.graph.Met s := by
  intro s hs
  unfold Engine.collected at hs
  split at hs
  next sources _ htracking => exact ho.known sources (htracking ▸ List.mem_cons_self) s hs
  next => cases hs

/-! ## The course -/

theorem Orderly.inserted (ho : e.Orderly hand) {kind : NodeKind (Program σ)} {freshness : Freshness}
    {owner : Option ScopeId} (cell : ∀ n : Node (Program σ), n.kind = kind → n.isRunning = false)
    (late : (∃ body running, kind = .effect body running) → freshness = .dirty)
    {hand' : NodeId → Prop} (more : ∀ x, hand x → hand' x)
    (queued : (∃ body running, kind = .effect body running) →
      hand' (e.graph.insertNode kind freshness owner).1) :
    ({ e with graph := (e.graph.insertNode kind freshness owner).2 } : Engine σ).Orderly hand' ∧
      Follows e [] { e with graph := (e.graph.insertNode kind freshness owner).2 } := by
  have hf : Follows e [] { e with graph := (e.graph.insertNode kind freshness owner).2 } :=
    .of_graph (continues_insertNode cell late)
  exact ⟨ho.follow hf ((ho.tidy.mono more).insertNode queued) (List.Subset.refl _)
    (List.Subset.refl _), hf⟩

/-- An owned node is inserted as any other. -/
theorem nodes_insertOwned {g h : Graph (Program σ)} {kind : NodeKind (Program σ)} {owner : ScopeId}
    (inserted : g.insertOwned kind owner = some (id, h)) :
    id = (g.insertNode kind .dirty (some owner)).1 ∧
      h.nodes = (g.insertNode kind .dirty (some owner)).2.nodes ∧ h.pending = g.pending := by
  unfold insertOwned at inserted
  split at inserted
  · cases inserted
    exact ⟨rfl, rfl, rfl⟩
  · cases inserted

theorem Orderly.insertedOwned (ho : e.Orderly hand) {kind : NodeKind (Program σ)} {owner : ScopeId}
    {g : Graph (Program σ)} (inserted : e.graph.insertOwned kind owner = some (id, g))
    (cell : ∀ n : Node (Program σ), n.kind = kind → n.isRunning = false)
    {hand' : NodeId → Prop} (more : ∀ x, hand x → hand' x)
    (queued : (∃ body running, kind = .effect body running) → hand' id) :
    ({ e with graph := g } : Engine σ).Orderly hand' ∧ Follows e [] { e with graph := g } := by
  obtain ⟨rfl, hnodes, hpending⟩ := nodes_insertOwned inserted
  obtain ⟨ho₁, hf₁⟩ := ho.inserted cell (fun _ => rfl) more queued
  obtain ⟨ho₂, hf₂⟩ := ho₁.of_nodes { e with graph := g } hnodes hpending (List.Subset.refl _) rfl rfl
  exact ⟨ho₂, hf₁.trans hf₂⟩

/-- A new effect is at hand for its first run. -/
theorem Orderly.insertedEffect (ho : e.Orderly hand) {body : Program σ} {owner : ScopeId}
    {g : Graph (Program σ)} (inserted : e.graph.insertOwned (.effect body false) owner = some (id, g)) :
    (({ e with graph := g } : Engine σ).Orderly fun x => hand x ∨ x = id) ∧
      Follows e [] { e with graph := g } ∧
      g.node? id = some ⟨.effect body false, .dirty, [], [], some owner⟩ ∧
      ({ e with graph := g } : Engine σ).Due id := by
  obtain ⟨ho₁, hf₁⟩ : (({ e with graph := g } : Engine σ).Orderly fun x => hand x ∨ x = id) ∧ _ :=
    ho.insertedOwned inserted (fun n hn => by simp [Node.isRunning, hn]) (fun _ h => .inl h)
      fun _ => .inr rfl
  have hself : g.node? id = some ⟨.effect body false, .dirty, [], [], some owner⟩ := by
    obtain ⟨rfl, hnode, -⟩ := insertOwned_eq_some inserted
    exact (hnode _).trans (insertNode_self _ _ _ _)
  refine ⟨ho₁, hf₁, hself, fun n hn _ => ?_⟩
  obtain rfl := Option.some.inj (hself.symm.trans hn)
  exact .inr ⟨rfl, rfl, rfl⟩

theorem Orderly.removed (ho : e.Orderly hand) (work : List Graph.Doomed) :
    ({ e with graph := e.graph.remove work } : Engine σ).Orderly hand ∧
      Follows e [] { e with graph := e.graph.remove work } := by
  obtain ⟨hc, ht, hpending⟩ := remove_keeps work ho.tidy
  exact ⟨ho.follow (.of_graph hc) ht (List.Subset.refl _) hpending, .of_graph hc⟩

theorem Ordered.written (ho : e.Ordered hand) {n : Node (Program σ)} {old : Value}
    (found : e.graph.node? id = some n) (kind : n.kind = .signal old) (value : Value) :
    ({ e with graph := e.graph.written id value n.subscribers } : Engine σ).Ordered hand ∧
      Follows e [.wrote id] { e with graph := e.graph.written id value n.subscribers } := by
  have hf : Follows e [.wrote id] { e with graph := e.graph.written id value n.subscribers } :=
    .of_graph (continues_written ho.tidy.linked found kind value)
  exact ⟨ho.follow hf (ho.tidy.written found value) (List.Subset.refl _), hf⟩

/-- A new run sees an engine in order. -/
theorem Orderly.begun (ho : e.Orderly fun x => hand x ∨ x = id) (due : e.Due id)
    {n : Node (Program σ)} (found : e.graph.node? id = some n) {kind : NodeKind (Program σ)}
    (starts : ∀ m : Node (Program σ), m.kind = kind → m.isEffect = n.isEffect ∧ m.isRunning = true) :
    (e.beginRun id kind).Orderly hand := by
  have hself := begun_self found kind
  obtain ⟨heffect, -⟩ := starts { n with kind := kind, freshness := .clean } rfl
  have known (reads : List NodeId) (hmem : some reads ∈ some [] :: e.tracking) :
      ∀ s ∈ reads, (e.graph.begun id kind).Met s := by
    intro s hs
    rcases List.mem_cons.1 hmem with h | h
    · obtain rfl := Option.some.inj h
      cases hs
    · exact (ho.known reads h s hs).modifyNode id _
  refine ⟨⟨ho.tidy.begun kind, known, fun still x m hm hmeffect hmrunning => ?_⟩, ho.drained⟩
  by_cases hx : x = id
  · subst hx
    obtain rfl := Option.some.inj (hself.symm.trans hm)
    rcases due n found (heffect.symm.trans hmeffect) with ⟨h, -⟩ | ⟨h, -⟩
    · exact absurd (h.symm.trans still) nofun
    · exact ⟨h, rfl⟩
  · exact ho.opening still ((begun_other hx).symm.trans hm) hmeffect hmrunning

/-- A node that is clean need not be at hand. -/
theorem Orderly.release (ho : e.Orderly fun x => hand x ∨ x = id)
    (clean : ∀ n, e.graph.node? id = some n → n.isEffect = true → n.freshness = .clean) :
    e.Orderly hand ∧ Follows e [] e := by
  have hf : Follows e [] e := .of_nodes rfl rfl rfl
  refine ⟨ho.follow hf ⟨ho.tidy.linked, fun {x n} hn heffect hlate => ?_⟩ (List.Subset.refl _)
    (List.Subset.refl _), hf⟩
  refine (ho.tidy.queued hn heffect hlate).imp_right fun h => h.resolve_right ?_
  rintro rfl
  exact hlate (clean n hn heffect)

/-- The effect that is taken from the queue is at hand instead. -/
theorem Ordered.dequeued (ho : e.Ordered hand) (flushing : e.flushing = true)
    (opening : e.graph.Opening) {rest : Engine σ} (next : e.dequeue = some (id, rest)) :
    (rest.Orderly fun x => hand x ∨ x = id) ∧ Follows e [] rest ∧ rest.Due id := by
  obtain ⟨ids, hpending, rfl⟩ := dequeue_eq_some next
  have htidy : Graph.Tidy (fun x => hand x ∨ x = id) { e.graph with pending := ids } := by
    refine ⟨ho.tidy.linked.congr fun _ => rfl, fun {x n} hn heffect hlate => ?_⟩
    rcases ho.tidy.queued hn heffect hlate with hmem | hhand
    · rw [hpending] at hmem
      exact (List.mem_cons.1 hmem).elim (fun h => .inr (.inr h)) .inl
    · exact .inr (.inl hhand)
  exact ⟨⟨⟨htidy, ho.known, fun _ => opening⟩, fun still => by simp [flushing] at still⟩,
    .of_nodes rfl rfl rfl,
    fun n hn heffect => .inl ⟨flushing, fun running => (opening hn heffect running).2⟩⟩

theorem due_of_idle (idle : (e.graph.node? id).any Node.isIdleComputed = true) : e.Due id := by
  intro n hn heffect
  obtain ⟨body, running, hk⟩ := Node.kind_of_isEffect heffect
  simp [hn, Node.isIdleComputed, hk] at idle

/-- A stale effect is due after its sources have been asked. -/
theorem Due.follow (due : e.Due id) (hf : Follows e evs e₁)
    (stale : e.graph.freshness? id = some .stale) : e₁.Due id := by
  intro m hm heffect
  obtain ⟨n, hn, hstale⟩ := Option.map_eq_some_iff.1 stale
  have hp := hf.continues.find hn hm
  rcases due n hn (hp.effect.symm.trans heffect) with ⟨flushing, hclean⟩ | ⟨-, hdirty, -⟩
  · refine .inl ⟨hf.flushing.trans flushing, fun running => ?_⟩
    simp [hclean (hp.running.symm.trans running)] at hstale
  · simp [hdirty] at hstale

/-- A whole run, from what its body does. -/
theorem Orderly.ran (ho : e.Orderly fun x => hand x ∨ x = id) (due : e.Due id)
    {n : Node (Program σ)} (found : e.graph.node? id = some n) (idle : n.isRunning = false)
    (body : ∀ value, n.kind ≠ .signal value) {kind : NodeKind (Program σ)}
    (starts : ∀ m : Node (Program σ), m.kind = kind → m.isEffect = n.isEffect ∧ m.isRunning = true)
    (ran : Upholds .work (e.beginRun id kind) evs e₁) {g : Graph (Program σ)}
    (closes : e₁.graph.Linked → (∀ m, e₁.graph.node? id = some m →
      m.isEffect = n.isEffect ∧ m.isRunning = true) → e₁.graph.Closes id e₁.collected g) :
    ({ e₁ with graph := g, tracking := e₁.tracking.drop 1 } : Engine σ).Orderly hand ∧
      Follows e (.began id n.sources :: (evs ++ [.ended id e₁.collected]))
        { e₁ with graph := g, tracking := e₁.tracking.drop 1 } := by
  have hself := begun_self found kind
  obtain ⟨heffect, hrunning⟩ := starts { n with kind := kind, freshness := .clean } rfl
  obtain ⟨ho₁, hf₁⟩ := ran hand (ho.begun due found starts)
  have hcloses := closes ho₁.tidy.linked fun m hm =>
    have hp := hf₁.continues.find hself hm
    ⟨hp.effect.trans heffect, hp.running.trans hrunning⟩
  have hc := continues_run found idle body starts hf₁.continues ho₁.tidy.linked
    ho₁.toOrdered.collected hcloses
  refine ⟨⟨⟨ho₁.tidy.closed hcloses, fun reads hmem s hs => ?_, fun still => ?_⟩,
    fun still rest => ?_⟩, hc, hf₁.flushing, hf₁.batchDepth⟩
  · exact (ho₁.known reads (List.mem_of_mem_drop hmem) s hs).imp
      (fun hlive => (hcloses.live s).trans hlive) hcloses.spent
  · exact hc.opening (ho.opening (hf₁.flushing.symm.trans still))
  · exact hcloses.pending.trans (ho₁.drained still rest)

theorem Course.upholds {activity : Activity} (course : Course activity e evs e') :
    Upholds activity e evs e' := by
  induction course with
  | rest e => exact fun hand ho => ho.of_nodes e rfl rfl (List.Subset.refl _) rfl rfl
  | next _ _ ihFirst ihRest =>
    intro hand ho
    obtain ⟨ho₁, hf₁⟩ := ihFirst hand ho
    obtain ⟨ho₂, hf₂⟩ := ihRest hand ho₁
    exact ⟨ho₂, hf₁.trans hf₂⟩
  | @saw e id n value found kind tracked =>
    intro hand ho
    have met : e.graph.Met id := .inl (by simp [found])
    obtain ⟨ho₁, hf₁⟩ := ho.tracked met tracked
    exact ⟨ho₁, .trans (.of_graph (continues_saw found kind)) hf₁⟩
  | @untracked e e' _ _ ih =>
    intro hand ho
    have known (reads : List NodeId) (hmem : some reads ∈ none :: e.tracking) :
        ∀ s ∈ reads, e.graph.Met s :=
      ho.known reads (by simpa using hmem)
    have ho₀ : (e.pushFrame none).Orderly hand := ⟨⟨ho.tidy, known, ho.opening⟩, ho.drained⟩
    obtain ⟨ho₁, hf₁⟩ := ih hand ho₀
    exact ⟨(ho₁.of_nodes e'.popFrame rfl rfl (List.drop_subset _ _) rfl rfl).1, hf₁.continues,
      hf₁.flushing, hf₁.batchDepth⟩
  | number e => exact fun hand ho => ho.of_nodes _ rfl rfl (List.Subset.refl _) rfl rfl
  | adjust e change => exact fun hand ho => ho.of_nodes _ rfl rfl (List.Subset.refl _) rfl rfl
  | newSignal e value =>
    exact fun hand ho => ho.inserted (fun n hn => by simp [Node.isRunning, hn]) (by simp)
      (fun _ h => h) (by simp)
  | newComputed e body =>
    exact fun hand ho => ho.inserted (fun n hn => by simp [Node.isRunning, hn]) (by simp)
      (fun _ h => h) (by simp)
  | newOwnedComputed inserted =>
    exact fun hand ho => ho.insertedOwned inserted (fun n hn => by simp [Node.isRunning, hn])
      (fun _ h => h) (by simp)
  | newEffect inserted _ ih =>
    intro hand ho
    obtain ⟨ho₁, hf₁, -, due⟩ := ho.insertedEffect inserted
    obtain ⟨ho₂, hf₂⟩ := ih hand ho₁ due
    exact ⟨ho₂, hf₁.trans hf₂⟩
  | newScope e => exact fun hand ho => ho.of_nodes _ rfl rfl (List.Subset.refl _) rfl rfl
  | @newChildScope e _ _ g inserted =>
    intro hand ho
    have hsame : g.nodes = e.graph.nodes ∧ g.pending = e.graph.pending := by
      unfold insertChildScope at inserted
      split at inserted <;> cases inserted
      exact ⟨rfl, rfl⟩
    exact ho.of_nodes _ hsame.1 hsame.2 (List.Subset.refl _) rfl rfl
  | disposeNode e id =>
    rw [removeNode_eq_remove]
    exact fun hand ho => ho.removed _
  | disposeScope e id => exact fun hand ho => ho.removed [.scope id]
  | write found kind _ ih =>
    intro hand ho
    obtain ⟨ho₁, hf₁⟩ := ho.toOrdered.written found kind _
    obtain ⟨ho₂, hf₂⟩ := ih hand ho₁
    exact ⟨ho₂, hf₁.trans hf₂⟩
  | @batch e e₁ _ _ _ _ _ ihBody ihFlush =>
    intro hand ho
    obtain ⟨ho₁, hf₁⟩ := ihBody hand ⟨⟨ho.tidy, ho.known, ho.opening⟩, fun _ h => absurd h (Nat.succ_ne_zero _)⟩
    obtain ⟨ho₂, hf₂⟩ := ihFlush hand ⟨ho₁.tidy, ho₁.known, ho₁.opening⟩
    refine ⟨ho₂, hf₁.continues.trans hf₂.continues, hf₂.flushing.trans hf₁.flushing, ?_⟩
    rw [hf₂.batchDepth, hf₁.batchDepth]
    rfl
  | @ask e _ _ id idle _ tracked ih =>
    intro hand ho
    have met : e.graph.Met id := .inl (by cases hn : e.graph.node? id <;> simp_all)
    obtain ⟨ho₁, hf₁⟩ := ih hand (ho.mono fun _ h => .inl h) (due_of_idle idle)
    obtain ⟨ho₂, hf₂⟩ := ho₁.tracked (hf₁.continues.of_met met) tracked
    exact ⟨ho₂, by simpa using hf₁.trans hf₂⟩
  | held e held =>
    intro hand ho
    refine ⟨⟨ho, fun still rest => ?_⟩, .of_graph (.refl _)⟩
    rcases held with held | held
    · omega
    · simp [still] at held
  | flushed free still _ ih =>
    intro hand ho
    obtain ⟨ho', hpending, hf⟩ := ih hand rfl ⟨ho.tidy, ho.known, by simp⟩ (ho.opening still)
    exact ⟨⟨⟨ho'.tidy, ho'.known, fun _ => hf.continues.opening (ho.opening still)⟩,
      fun _ _ => hpending⟩, hf.continues, still.symm, hf.batchDepth⟩
  | drained _ empty => exact fun hand _ ho _ => ⟨ho, empty, .of_graph (.refl _)⟩
  | @gaveUp e waiting =>
    intro hand _ ho _
    have hf : Follows e [.gaveUp] e.dropQueue := ⟨continues_dropQueue e, rfl, rfl⟩
    exact ⟨ho.follow hf ho.tidy.dropQueue (List.Subset.refl _), rfl, hf⟩
  | effect next _ _ ihFirst ihOthers =>
    intro hand flushing ho opening
    obtain ⟨ho₀, hf₀, due⟩ := ho.dequeued flushing opening next
    obtain ⟨ho₁, hf₁⟩ := ihFirst hand ho₀ due
    have hf₁ := hf₀.trans hf₁
    obtain ⟨ho₂, hpending, hf₂⟩ := ihOthers hand (hf₁.flushing.trans flushing) ho₁.toOrdered
      (hf₁.continues.opening opening)
    exact ⟨ho₂, hpending, hf₁.trans hf₂⟩
  | stale stale _ _ ihAsked ihSettled =>
    intro hand ho due
    obtain ⟨ho₁, hf₁⟩ := ihAsked _ ho
    obtain ⟨ho₂, hf₂⟩ := ihSettled hand ho₁ (due.follow hf₁ stale)
    exact ⟨ho₂, hf₁.trans hf₂⟩
  | known known _ ih => exact ih
  | fresh fresh => exact fun hand ho _ => ho.release fun n hn _ => fresh n hn
  | @cleaned e id stale =>
    intro hand ho _
    have hf : Follows e [] { e with graph := e.graph.setFreshness id .clean } :=
      .of_graph (continues_cleaned (by simp [stale]))
    exact ⟨ho.follow hf ho.tidy.cleaned (List.Subset.refl _) (List.Subset.refl _), hf⟩
  | busy found busy =>
    refine fun hand ho due => ho.release fun m hm heffect => ?_
    obtain rfl := Option.some.inj (found.symm.trans hm)
    rcases busy with hrunning | ⟨value, hk⟩
    · rcases due _ hm heffect with ⟨-, hclean⟩ | ⟨-, -, hidle⟩
      · exact hclean hrunning
      · simp [hidle] at hrunning
    · simp [Node.isEffect, hk] at heffect
  | computed found kind _ outcome ih =>
    intro hand ho due
    rw [storeOutcome_closeRun]
    refine ho.ran due found (by simp [Node.isRunning, kind]) (by simp [kind])
      (fun m hm => by simp [Node.isEffect, Node.isRunning, hm, kind]) ih (fun linked hcomputed => ?_)
    refine closes_finished linked (fun m hm => ?_) _ _
    obtain ⟨heffect, hrunning⟩ := hcomputed m hm
    cases hk : m.kind with
    | computed body running last => exact ⟨body, running, last, rfl⟩
    | _ => simp [Node.isEffect, Node.isRunning, kind, hk] at heffect hrunning
  | ran found kind _ ih =>
    intro hand ho due
    rw [restEffect_closeRun]
    refine ho.ran due found (by simp [Node.isRunning, kind]) (by simp [kind])
      (fun m hm => by simp [Node.isEffect, Node.isRunning, hm, kind]) ih (fun linked heffect => ?_)
    exact closes_effectFinished (fun m hm => by rw [(heffect m hm).1, Node.isEffect, kind]) _

/-! ## What effects have heard of -/

/-- A new effect runs once, whatever it writes to what it has read. -/
theorem Course.first_run (ho : e.Orderly hand) {body : Program σ} {owner : ScopeId}
    {g : Graph (Program σ)} (inserted : e.graph.insertOwned (.effect body false) owner = some (id, g))
    (first : Course (.refresh id) { e with graph := g } evs e') :
    (∃ during reads, evs = .began id [] :: (during ++ [.ended id reads]) ∧
      ∀ sources, .began id sources ∉ during) ∧
    ∀ m, e'.graph.node? id = some m → m.freshness = .clean := by
  obtain ⟨ho₁, -, hself, due⟩ := ho.insertedEffect inserted
  have hdirty : g.freshness? id = some .dirty := by simp [freshness?, hself]
  cases first with
  | stale stale => simp [hdirty] at stale
  | known _ settled =>
    cases settled with
    | fresh fresh => simpa using fresh _ hself
    | cleaned stale => simp [hdirty] at stale
    | busy found busy =>
      obtain rfl := Option.some.inj (hself.symm.trans found)
      simp [Node.isRunning] at busy
    | computed found kind =>
      obtain rfl := Option.some.inj (hself.symm.trans found)
      cases kind
    | @ran _ e₁ evs _ n body' found kind ran =>
      obtain rfl := Option.some.inj (hself.symm.trans found)
      obtain ⟨-, hf₂⟩ := ran.upholds hand (ho₁.begun due found fun m hm => by
        simp [Node.isEffect, Node.isRunning, hm])
      have hbegun := begun_self found (.effect body' true)
      refine ⟨⟨evs, _, rfl, hf₂.continues.silent hbegun rfl⟩, fun l hl => ?_⟩
      rw [restEffect_closeRun] at hl
      have heffect (m : Node (Program σ)) (hm : e₁.graph.node? id = some m) : m.isEffect = true :=
        (hf₂.continues.find hbegun hm).effect
      have hcloses := closes_effectFinished heffect e₁.collected
      obtain ⟨m, hm⟩ := Option.isSome_iff_exists.1 ((hcloses.live id).symm.trans (by simp [hl]))
      obtain ⟨-, -, hfresh⟩ := hcloses.self hm hl
      rw [hfresh (heffect m hm)]
      exact (hf₂.continues.find hbegun hm).clean rfl rfl rfl

theorem orderly_start (settings : Settings) (host : σ) :
    (start settings host).Orderly fun _ => False :=
  ⟨⟨⟨linked_empty, nofun⟩, nofun, fun _ => nofun⟩, fun _ _ => rfl⟩

/-- What the effect read in its last run and what is still there was not written since; nor during the
run, if the effect had recorded it before. So it shows the value that it last showed in the run. -/
def Informed (e : Engine σ) (evs : List Event) (x : NodeId) : Prop :=
  ∃ sources during reads after, LastRun x evs sources during reads after ∧
    ∀ s ∈ reads, ∀ value, e.graph.sheet.value? s = some value →
      .wrote s ∉ after ∧ (s ∈ sources → .wrote s ∉ during) ∧
        ∀ seen, Event.Saw s seen during → seen = value

theorem Course.informed {settings : Settings} {host : σ}
    (course : Course .work (start settings host) evs e) (settled : .gaveUp ∉ evs) {x : NodeId}
    {n : Node (Program σ)} (live : e.graph.node? x = some n) (effect : n.isEffect = true) :
    e.Informed evs x := by
  obtain ⟨ho, hf⟩ := course.upholds _ (orderly_start settings host)
  have hclean : n.freshness = .clean := by
    by_contra hlate
    have hqueued := (ho.tidy.queued live effect hlate).resolve_right id
    simp [ho.drained hf.flushing hf.batchDepth] at hqueued
  -- at the start there is no effect that could have been spared
  obtain ⟨sources, during, reads, after, run, recorded, quiet⟩ :=
    (hf.continues.heard live effect (by simp [hclean]) settled).resolve_right
      fun ⟨_, found, _⟩ => nomatch found
  refine ⟨sources, during, reads, after, run, fun s hs value hvalue => ?_⟩
  obtain ⟨m, hm, hk⟩ := value?_eq_some.1 hvalue
  have hmem : s ∈ n.sources := (recorded s hs).resolve_right fun spent => by simp [spent.node?] at hm
  obtain ⟨hafter, hduring⟩ := quiet s hmem
  refine ⟨hafter, hduring, fun seen hsaw => hf.continues.agrees hm hk ?_⟩
  obtain ⟨before, rfl⟩ := run.split
  exact saw_append.2 (.inr (.inr (saw_append.2 (.inl ⟨hsaw, by simpa using hafter⟩))))

/-! ## A small session -/

namespace Wilful

def settings : Settings := ⟨.skipEqual, 2, Nat.two_pos⟩

def scope : ScopeId := ⟨0, 0⟩

def cell : NodeId := ⟨0, 0⟩

def effect : NodeId := ⟨1, 0⟩

/-- Notes what the signal shows and makes it true. -/
def body : Program (List Outcome) :=
  .read ⟨.signal, cell⟩ true fun r => .adjust (· ++ [r]) (.set cell (.bool true))

/-- Makes a signal and the effect. -/
def making (next : Program (List Outcome)) : Program (List Outcome) :=
  .newScope none fun _ => .newSignal (.bool false) fun _ => .newEffect scope body fun _ => next

variable {e e₁ : Engine (List Outcome)} {n s : Node (Program (List Outcome))} {old : Value}
  {evs : List Event}

/-- In a new run, the effect has read the signal. -/
def noted (e : Engine (List Outcome)) (seen : Value) : Engine (List Outcome) :=
  { (e.beginRun effect (.effect body true)).track cell with host := e.host ++ [.ok seen] }

def wrote (e : Engine (List Outcome)) (value : Value) (subscribers : List NodeId) :
    Engine (List Outcome) :=
  { e with graph := e.graph.written cell value subscribers }

def taken (e : Engine (List Outcome)) : Engine (List Outcome) :=
  (e.dequeue.map (·.2)).getD e

def rested (e : Engine (List Outcome)) : Engine (List Outcome) :=
  (e.closeRun effect).restEffect effect

theorem course_run (found : e.graph.node? effect = some n) (kind : n.kind = .effect body false)
    (dirty : n.freshness = .dirty)
    (shown : (e.beginRun effect (.effect body true)).graph.node? cell = some s)
    (value : s.kind = .signal old) (rest : Course .work (noted e old) evs e₁)
    (collected : e₁.collected = [cell]) :
    Course (.refresh effect) e
      (.began effect n.sources :: (.saw cell old :: evs ++ [.ended effect [cell]])) (rested e₁) := by
  rw [← collected]
  exact .known (by simp [Graph.freshness?, found, dirty]) (.ran found kind (.next (.saw shown value true)
    (.next (.adjust _ fun host : List Outcome => host ++ [(.ok old : Outcome)]) rest)))

/-- The signal is there. -/
def blank : Graph (Program (List Outcome)) :=
  ((start settings []).graph.insertScope.2.insertNode (.signal (.bool false)) .clean none).2

/-- The effect is there too. -/
def born : Engine (List Outcome) :=
  { start settings [] with graph := ((blank.insertOwned (.effect body false) scope).get (by cbv)).2 }

def first : Engine (List Outcome) :=
  rested (wrote (noted born (.bool false)) (.bool true) [])

def pressed : Engine (List Outcome) :=
  taken { wrote first .null [effect] with flushing := true }

def second : Engine (List Outcome) :=
  taken (rested (wrote (noted pressed .null) (.bool true) [effect]))

def third : Engine (List Outcome) :=
  { rested (noted second (.bool true)) with flushing := false }

theorem run_first : run 5 (making (.pure .undefined)) (start settings []) =
    some (.ok .undefined, first) := by cbv

theorem run_third : run 5 (making (.set cell .null)) (start settings []) =
    some (.ok .undefined, third) := by cbv

/-- What happens in the first run. -/
def opening : List Event :=
  [.began effect [], .saw cell (.bool false), .wrote cell, .ended effect [cell]]

/-- What happens at a write from outside. -/
def closing : List Event :=
  [.wrote cell, .began effect [cell], .saw cell .null, .wrote cell, .ended effect [cell],
    .began effect [cell], .saw cell (.bool true), .ended effect [cell]]

theorem course_first : Course .work (start settings []) opening first := by
  have hwrite : Course .work (noted born (.bool false)) [.wrote cell]
      (wrote (noted born (.bool false)) (.bool true) []) :=
    .write (n := ⟨.signal (.bool false), .clean, [], [], none⟩) (by cbv) rfl
      (.flushed rfl rfl (.drained _ (by cbv)))
  have hrun : Course (.refresh effect) born opening first :=
    course_run (n := ⟨.effect body false, .dirty, [], [], some scope⟩) (by cbv) rfl rfl (by cbv) rfl hwrite
      (by cbv)
  have inserted : blank.insertOwned (.effect body false) scope = some (effect, born.graph) := by cbv
  exact .next (.newScope _) (.next (.newSignal _ (.bool false)) (.newEffect inserted hrun))

theorem course_closing : Course .work first closing third := by
  have hwrite : Course .work (noted pressed .null) [.wrote cell]
      (wrote (noted pressed .null) (.bool true) [effect]) :=
    .write (n := ⟨.signal .null, .clean, [], [effect], none⟩) (by cbv) rfl (.held _ (.inr rfl))
  have hsecond : Course (.refresh effect) pressed _ _ :=
    course_run (n := ⟨.effect body false, .dirty, [cell], [], some scope⟩) (by cbv) rfl rfl (by cbv) rfl
      hwrite (by cbv)
  have hthird : Course (.refresh effect) second _ _ :=
    course_run (n := ⟨.effect body false, .dirty, [cell], [], some scope⟩) (by cbv) rfl rfl (by cbv) rfl
      (.rest _) (by cbv)
  exact .write (n := ⟨.signal (.bool true), .clean, [], [effect], none⟩) (by cbv) rfl
    (.flushed rfl rfl (.effect (by cbv) hsecond (.effect (by cbv) hthird (.drained 0 (by cbv)))))

end Wilful

/-! ## Sessions -/

/-- After a session in which no flush gave up, every effect is informed. -/
theorem run_informed {settings : Settings} {host : σ} {depth : Nat} {p : Program σ} {o : Outcome}
    (ran : run depth p (start settings host) = some (o, e)) :
    (∃ evs, Course .work (start settings host) evs e) ∧
      ∀ {evs : List Event}, Course .work (start settings host) evs e → .gaveUp ∉ evs →
        ∀ {x : NodeId} {n : Node (Program σ)}, e.graph.node? x = some n → n.isEffect = true →
          e.Informed evs x :=
  ⟨run_course ran, fun course settled => course.informed settled⟩

/-- The effect hears of its own write in the second run, and runs again. -/
theorem run_informed_third :
    run 5 (Wilful.making (.set Wilful.cell .null)) (start Wilful.settings []) =
      some (.ok .undefined, Wilful.third) ∧
    Course .work (start Wilful.settings []) (Wilful.opening ++ Wilful.closing) Wilful.third ∧
    Wilful.third.host = [.ok (.bool false), .ok .null, .ok (.bool true)] ∧
    Wilful.third.Informed (Wilful.opening ++ Wilful.closing) Wilful.effect := by
  have course := Wilful.course_first.next Wilful.course_closing
  refine ⟨Wilful.run_third, course, by cbv, (run_informed Wilful.run_third).2 course ?_
    (n := ⟨.effect Wilful.body false, .clean, [Wilful.cell], [], some Wilful.scope⟩) (by cbv) rfl⟩
  simp [Wilful.opening, Wilful.closing]

/-- It does not hear of its own write in the first run: all is at rest, and the signal does not show
what it showed when the effect read it. -/
theorem unheard_first :
    run 5 (Wilful.making (.pure .undefined)) (start Wilful.settings []) =
      some (.ok .undefined, Wilful.first) ∧
    Course .work (start Wilful.settings []) Wilful.opening Wilful.first ∧
    LastRun Wilful.effect Wilful.opening [] [.saw Wilful.cell (.bool false), .wrote Wilful.cell]
      [Wilful.cell] [] ∧
    Wilful.first.host = [.ok (.bool false)] ∧ Wilful.first.batchDepth = 0 ∧
    (Wilful.first.graph.node? Wilful.effect).map (·.sources) = some [Wilful.cell] ∧
    Wilful.first.graph.sheet.value? Wilful.cell = some (.bool true) :=
  ⟨Wilful.run_first, Wilful.course_first, ⟨⟨[], rfl⟩, by simp, by simp⟩, by cbv, by cbv, by cbv, by cbv⟩

end Engine

end LiveTemplate.Reactive
