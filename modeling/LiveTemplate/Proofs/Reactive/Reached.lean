import LiveTemplate.Proofs.Reactive.Flush

/-!
# What clients can reach

A client makes signals, computeds and effects, reads and writes, and opens and closes batches, in any
order (`Engine.Move`); it may remove effects and the scopes of effects. Its computeds are lawful and
ranked, and its effects watch. Every engine that can be reached in this way is poised: its graph is
sound and nothing is under way.
-/
namespace LiveTemplate.Reactive

variable {σ : Type}

namespace Engine

open Reactive.Graph

theorem flush_held {refresh : NodeId → Engine σ → Option (Engine σ)} {e : Engine σ}
    (held : 0 < e.batchDepth) : flush refresh e = some (.ok (), e) := by
  simp [flush, held]

variable {mode : Bool → Prop} {refresh : NodeId → Engine Journal → Option (Engine Journal)}

/-! ## Flushes and writes -/

theorem flush_rest {e : Engine Journal} (rest : e.batchDepth = 0) (still : e.flushing = false)
    (drained : e.graph.pending = []) : flush refresh e = some (.ok (), e) := by
  rw [flush, if_neg (by simp [rest, still]), drain_nil _ (by exact drained)]
  simp only [Option.map_some, ← still, if_true]

/-- Any end of a flush but giving up on the queue. -/
def Calm (r : Except Fault Unit) : Prop :=
  ∀ runs, r ≠ .error (.reactive (.unsettled runs))

theorem calm_ok : Calm (.ok ()) := by
  simp [Calm]

theorem flush_free {e e' : Engine Journal} {r : Except Fault Unit} (free : e.batchDepth = 0)
    (still : e.flushing = false) (flushed : flush refresh e = some (r, e')) :
    ∃ settled e₁, drain refresh e.settings.maxRuns { e with flushing := true } = some (settled, e₁) ∧
      e' = { e₁ with flushing := false } ∧ (settled = false → ¬Calm r) ∧ (Calm r → r = .ok ()) := by
  rw [flush, if_neg (by simp [free, still])] at flushed
  simp only [Option.map_eq_some_iff, Prod.mk.injEq] at flushed
  obtain ⟨⟨settled, e₁⟩, hdrain, rfl, rfl⟩ := flushed
  cases settled
  · exact ⟨false, e₁, hdrain, rfl, fun _ calm => calm _ rfl, fun calm => absurd rfl (calm _)⟩
  · exact ⟨true, e₁, hdrain, rfl, nofun, fun _ => rfl⟩

theorem Onward.flushing {e e₁ : Engine Journal} (h : Onward mode { e with flushing := true } e₁)
    (still : e.flushing = false) : Onward mode e { e₁ with flushing := false } where
  frame := by
    rw [h.frame]
    simp only [← still]
  sound := h.sound
  sheet := h.sheet
  effects := h.effects
  fresh := h.fresh

theorem flush_spec (attends : AttendsBy mode refresh) {e e' : Engine Journal}
    {r : Except Fault Unit} (hs : e.graph.Sound mode) (still : e.flushing = false)
    (flushed : flush refresh e = some (r, e')) :
    Onward mode e e' ∧ (e.batchDepth = 0 → e'.graph.pending = []) ∧
      ∃ recs, e'.host = e.host ++ recs ∧ Recorded recs e.graph e'.graph ∧
        (0 < e.batchDepth → recs = [] ∧ e' = e) := by
  rcases Nat.eq_zero_or_pos e.batchDepth with free | held
  · obtain ⟨settled, e₁, hdrain, rfl, -⟩ := flush_free free still flushed
    obtain ⟨honward, hempty, recs, hhost, hrec⟩ :=
      drain_spec (e := { e with flushing := true }) attends hs hdrain
    exact ⟨honward.flushing still, fun _ => hempty, recs, hhost, hrec, fun h => by omega⟩
  · rw [flush_held held] at flushed
    obtain ⟨-, rfl⟩ := Prod.mk.inj (Option.some.inj flushed)
    exact ⟨.refl hs, fun h => by omega, [], by simp, ⟨by simp, by simp, by simp⟩, fun _ => ⟨rfl, rfl⟩⟩

/-- What outlasts the runs of effects lasts through a flush, if it ends well or dropping the queue
does no harm. -/
theorem flush_keeps (attends : AttendsBy mode refresh)
    {I : Option NodeId → Graph (Program Journal) → Journal → Prop} (lasting : Lasting mode I)
    {e e' : Engine Journal} {r : Except Fault Unit} (hs : e.graph.Sound mode)
    (still : e.flushing = false) (start : I none e.graph e.host)
    (drop : ¬Calm r → ∀ {e : Engine Journal}, e.graph.Sound mode → I none e.graph e.host →
      I none e.dropQueue.graph e.dropQueue.host)
    (flushed : flush refresh e = some (r, e')) : I none e'.graph e'.host := by
  rcases Nat.eq_zero_or_pos e.batchDepth with free | held
  · obtain ⟨settled, e₁, hdrain, rfl, hr, -⟩ := flush_free free still flushed
    have hend : I none e₁.graph e₁.host := drain_keeps (e := { e with flushing := true }) attends
      lasting hs start (fun hsettled => drop (hr hsettled)) hdrain
    exact hend
  · rw [flush_held held] at flushed
    obtain ⟨-, rfl⟩ := Prod.mk.inj (Option.some.inj flushed)
    exact start

/-- A write fails, or changes nothing, or stores the value and flushes. -/
theorem writeSignal_cases {σ : Type} {refresh : NodeId → Engine σ → Option (Engine σ)}
    {e e' : Engine σ} {id : NodeId} {value : Value} {r : Except Fault Unit} (written : writeSignal refresh id value e = some (r, e')) :
    (r = .error (.reactive (.disposed .signal)) ∧ e' = e) ∨ (r = .ok () ∧ e' = e) ∨
      ∃ n old, e.graph.node? id = some n ∧ n.kind = .signal old ∧
        ¬(e.settings.writeEquality = .skipEqual ∧ old.equals value = true) ∧
        flush refresh { e with graph := e.graph.written id value n.subscribers } = some (r, e') := by
  unfold writeSignal at written
  split at written
  next old _ _ subscribers _ hn =>
    split at written
    next =>
      obtain ⟨rfl, rfl⟩ := Prod.mk.inj (Option.some.inj written)
      exact .inr (.inl ⟨rfl, rfl⟩)
    next hstored => exact .inr (.inr ⟨_, old, hn, rfl, by simpa using hstored, written⟩)
  · obtain ⟨rfl, rfl⟩ := Prod.mk.inj (Option.some.inj written)
    exact .inl ⟨rfl, rfl⟩

theorem writeSignal_stored {e : Engine Journal}
    (refresh : NodeId → Engine Journal → Option (Engine Journal)) {id : NodeId} {old value : Value}
    {freshness : Freshness} {sources subscribers : List NodeId} {owner : Option ScopeId}
    (found : e.graph.node? id = some ⟨.signal old, freshness, sources, subscribers, owner⟩)
    (changed : old.equals value = false) :
    writeSignal refresh id value e =
      flush refresh { e with graph := e.graph.written id value subscribers } := by
  simp only [writeSignal, found, changed, Bool.and_false, Bool.false_eq_true, if_false]
  rfl

theorem writeSignal_of_held {e : Engine Journal}
    (refresh : NodeId → Engine Journal → Option (Engine Journal)) (held : 0 < e.batchDepth)
    {id : NodeId} {old value : Value} {freshness : Freshness} {sources subscribers : List NodeId}
    {owner : Option ScopeId}
    (found : e.graph.node? id = some ⟨.signal old, freshness, sources, subscribers, owner⟩)
    (changed : old.equals value = false) :
    writeSignal refresh id value e =
      some (.ok (), { e with graph := e.graph.written id value subscribers }) :=
  (writeSignal_stored refresh found changed).trans (flush_held held)

/-! ## Moves -/

/-- No effect has read the key: keys cannot be guessed before they are given out. -/
def Unread (journal : Journal) (id : NodeId) : Prop :=
  ∀ s ∈ journal, ∀ r ∈ s.readings, r.cell.node ≠ id

/-- What a client can do with an engine, if effects read by a mode and flushes end as allowed. -/
inductive Move (mode : Bool → Prop) (allowed : Except Fault Unit → Prop) :
    Engine Journal → Engine Journal → Prop where
  | newSignal {e : Engine Journal} {value : Value} {id : NodeId} {g : Graph (Program Journal)}
      (proper : value.Proper) (inserted : e.graph.insertNode (.signal value) .clean none = (id, g))
      (unread : Unread e.host id) : Move mode allowed e { e with graph := g }
  | newComputed {e : Engine Journal} {body : Program Journal} {id : NodeId}
      {g : Graph (Program Journal)} (lawful : body.Lawful)
      (inserted : e.graph.insertNode (.computed body false none) .dirty none = (id, g))
      (ranked : g.sheet.Ranked) (unread : Unread e.host id) : Move mode allowed e { e with graph := g }
  | newOwnedComputed {e : Engine Journal} {body : Program Journal} {owner : ScopeId} {id : NodeId}
      {g : Graph (Program Journal)} (lawful : body.Lawful)
      (inserted : e.graph.insertOwned (.computed body false none) owner = some (id, g))
      (ranked : g.sheet.Ranked) (unread : Unread e.host id) : Move mode allowed e { e with graph := g }
  | newEffect {e e' : Engine Journal} {p : Program Journal} {label depth : Nat} {owner : ScopeId}
      {id : NodeId} {g : Graph (Program Journal)} (reads : p.Reads mode)
      (unused : ∀ s ∈ e.host, s.label ≠ label)
      (inserted : e.graph.insertOwned (.effect (p.watched label []) false) owner = some (id, g))
      (ran : refreshWithin depth id { e with graph := g } = some e') : Move mode allowed e e'
  | newScope {e : Engine Journal} {id : ScopeId} {g : Graph (Program Journal)}
      (inserted : e.graph.insertScope = (id, g)) : Move mode allowed e { e with graph := g }
  | newChildScope {e : Engine Journal} {parent id : ScopeId} {g : Graph (Program Journal)}
      (inserted : e.graph.insertChildScope parent = some (id, g)) :
      Move mode allowed e { e with graph := g }
  | read {e e' : Engine Journal} {depth : Nat} {cell : Cell} {tracked : Bool} {o : Outcome}
      (read : e.readCell (refreshWithin depth) cell tracked = some (o, e')) : Move mode allowed e e'
  | write {e e' : Engine Journal} {depth : Nat} {id : NodeId} {value : Value} {r : Except Fault Unit}
      (proper : value.Proper) (written : writeSignal (refreshWithin depth) id value e = some (r, e'))
      (ended : allowed r) : Move mode allowed e e'
  | openBatch (e : Engine Journal) : Move mode allowed e { e with batchDepth := e.batchDepth + 1 }
  | closeBatch {e e' : Engine Journal} {depth : Nat} {r : Except Fault Unit}
      (opened : 0 < e.batchDepth)
      (flushed : flush (refreshWithin depth) { e with batchDepth := e.batchDepth - 1 } = some (r, e'))
      (ended : allowed r) : Move mode allowed e e'
  | disposeEffect {e : Engine Journal} {id : NodeId}
      (keeps : (e.graph.removeNode id).sheet = e.graph.sheet) :
      Move mode allowed e { e with graph := e.graph.removeNode id }
  | disposeScope {e : Engine Journal} {id : ScopeId}
      (keeps : (e.graph.removeScope id).sheet = e.graph.sheet) :
      Move mode allowed e { e with graph := e.graph.removeScope id }

/-- The engines that clients can bring about. -/
inductive Reached (mode : Bool → Prop) (allowed : Except Fault Unit → Prop) (settings : Settings) :
    Engine Journal → Prop where
  | start : Reached mode allowed settings (start settings [])
  | move {e e' : Engine Journal} (reached : Reached mode allowed settings e)
      (move : Move mode allowed e e') : Reached mode allowed settings e'

/-- Nothing is under way, and every effect has run. -/
structure Poised (mode : Bool → Prop) (e : Engine Journal) : Prop where
  sound : e.graph.Sound mode
  tracking : e.tracking = []
  still : e.flushing = false
  drained : e.batchDepth = 0 → e.graph.pending = []
  seen : ∀ {id : NodeId} {label : Nat}, e.graph.EffectAt id label → ∃ s ∈ e.host, s.label = label

/-- The move appended sightings that are fresh after it. -/
def Appends (e e' : Engine Journal) : Prop :=
  ∃ recs, e'.host = e.host ++ recs ∧ ∀ s ∈ recs, ∀ r ∈ s.readings, e'.graph.Fresh r

theorem Appends.of_eq {e e' : Engine Journal} (h : e'.host = e.host) : Appends e e' :=
  ⟨[], by simp [h], by simp⟩

section Moves

variable {e e' : Engine Journal}

theorem Poised.start (mode : Bool → Prop) (settings : Settings) :
    Poised mode (Engine.start settings []) := by
  refine ⟨⟨coherent_empty, ranked_empty, nofun, nofun, ?_, .nil, nofun⟩, rfl, rfl, fun _ => rfl, ?_⟩
  · rintro x y label ⟨n, _, _, hn, -⟩
    cases hn
  · rintro id label ⟨n, _, _, hn, -⟩
    cases hn

/-- What a client reads is fresh, and only computeds were brought up to date. -/
theorem Poised.read (hp : Poised mode e) {depth : Nat} {cell : Cell} {tracked : Bool} {o : Outcome}
    (hread : e.readCell (refreshWithin depth) cell tracked = some (o, e')) :
    ∃ g, e' = { e with graph := g } ∧ e.graph.Refreshed e.graph.sheet.Computes g ∧ g.Coherent ∧
      g.Fresh ⟨cell, o⟩ := by
  obtain ⟨F, hF⟩ := hp.sound.coherent.exists_foretold hp.sound.ranked
  obtain ⟨g, hr, hg, hfresh, hcase⟩ := (readCell_any (serves_refreshWithin F depth)
    hp.sound.coherent hF.obeys (Idle.mono hp.sound.idle fun _ _ => trivial) (fun _ => hF.covers _)
    tracked).1 _ hread
  refine ⟨g, ?_, hr.mono fun x hx => hx.1, hg, hfresh⟩
  rcases hcase with ⟨rfl, -⟩ | ⟨rfl, -⟩
  · cases tracked <;> simp [trackIf, track, hp.tracking]
  · rfl

theorem Poised.refreshed (hp : Poised mode e) {P : NodeId → Prop} {g : Graph (Program Journal)}
    (hr : e.graph.Refreshed P g) (hg : g.Coherent) : Poised mode { e with graph := g } where
  sound := hp.sound.refreshed hr hg
  tracking := hp.tracking
  still := hp.still
  drained h := hr.pending.trans (hp.drained h)
  seen hx := hp.seen ((effectAt_of_skeleton (skeleton_of_refreshed hr)).1 hx)

/-- A graph without new effects, and with nothing new in its queue. -/
theorem Poised.graph (hp : Poised mode e) {g : Graph (Program Journal)} (hs : g.Sound mode)
    (pending : g.pending ⊆ e.graph.pending)
    (effects : ∀ {x : NodeId} {l : Nat}, g.EffectAt x l → e.graph.EffectAt x l) :
    Poised mode { e with graph := g } where
  sound := hs
  tracking := hp.tracking
  still := hp.still
  drained h := List.subset_nil.1 (hp.drained h ▸ pending)
  seen hx := hp.seen (effects hx)

theorem effectAt_insertNode {g : Graph (Program Journal)} {kind : NodeKind (Program Journal)}
    {freshness : Freshness} {owner : Option ScopeId} (cell : ∀ body running, kind ≠ .effect body running)
    {x : NodeId} {l : Nat} (hx : (g.insertNode kind freshness owner).2.EffectAt x l) :
    g.EffectAt x l := by
  obtain ⟨n, p, running, hn, hk⟩ := hx
  rcases insertNode_origin hn with ⟨-, rfl⟩ | hn
  · exact absurd hk (cell _ _)
  · exact ⟨n, p, running, hn, hk⟩

theorem effectAt_congr {g h : Graph (Program Journal)} (same : ∀ x, h.node? x = g.node? x)
    {x : NodeId} {l : Nat} : h.EffectAt x l ↔ g.EffectAt x l := by
  simp only [EffectAt, same]

theorem sheet_of_node? {σ : Type} {g h : Graph (Program σ)} (same : ∀ x, h.node? x = g.node? x) :
    h.sheet = g.sheet :=
  sheet_of_skeleton fun x => by rw [same]

/-- A new effect runs at once, since it is dirty. -/
theorem Poised.newEffect (hp : Poised mode e) {p : Program Journal} {label depth : Nat}
    {owner : ScopeId} {id : NodeId} {g : Graph (Program Journal)} (reads : p.Reads mode)
    (unused : ∀ s ∈ e.host, s.label ≠ label)
    (inserted : e.graph.insertOwned (.effect (p.watched label []) false) owner = some (id, g))
    (ran : refreshWithin depth id { e with graph := g } = some e') :
    Poised mode e' ∧ g.Sound mode ∧ g.EffectAt id label ∧
      Attended mode id label { e with graph := g } e' ∧
      ∃ readings, e'.host = e.host ++ [⟨label, readings⟩] ∧ Saw mode id readings e'.graph := by
  obtain ⟨rfl, hsame, hpending⟩ := insertOwned_eq_some inserted
  have hself : g.node? (e.graph.insertNode (.effect (p.watched label []) false) .dirty
      (some owner)).1 = some ⟨.effect (p.watched label []) false, .dirty, [], [], some owner⟩ :=
    (hsame _).trans (insertNode_self _ _ _ _)
  have hs : g.Sound mode := by
    refine (hp.sound.insertEffect reads fun x l hx => ?_).congr hsame hpending
    obtain ⟨s, hs, rfl⟩ := hp.seen hx
    exact unused s hs
  have hat : g.EffectAt _ label := ⟨_, p, false, hself, rfl⟩
  have hattended := attends_refreshWithin mode depth (e := { e with graph := g }) hs hat ran
  have honward := hattended.onward (e := { e with graph := g }) hs
  obtain ⟨readings, hhost, hsaw⟩ := hattended.ending.resolve_left fun ⟨_, hpassed⟩ => by
    have hstale := (hpassed.steady hself (by simp)).1
    cases hstale
  refine ⟨⟨honward.sound, ?_, ?_, fun h => ?_, fun {x l} hx => ?_⟩, hs, hat, hattended, readings,
    hhost, hsaw⟩
  · rw [honward.frame]
    exact hp.tracking
  · rw [honward.frame]
    exact hp.still
  · rw [honward.frame] at h
    exact hattended.refreshed.pending.trans (hpending.trans (hp.drained h))
  · rw [hhost]
    obtain ⟨n, q, running, hn, hk⟩ := (effectAt_congr hsame).1 (honward.effects.1 hx)
    rcases insertNode_origin hn with ⟨rfl, rfl⟩ | hn
    · obtain ⟨hbody, -⟩ := NodeKind.effect.inj hk
      exact ⟨⟨label, readings⟩, by simp, Program.watched_label hbody⟩
    · obtain ⟨s, hs, hlabel⟩ := hp.seen ⟨n, q, running, hn, hk⟩
      exact ⟨s, List.mem_append_left _ hs, hlabel⟩

/-- A write or the end of a batch. -/
theorem Poised.flushed (hp : Poised mode e) {g : Graph (Program Journal)} (batchDepth : Nat)
    {depth : Nat}
    (hs : g.Sound mode)
    (effects : ∀ {x : NodeId} {l : Nat}, g.EffectAt x l → e.graph.EffectAt x l)
    {r : Except Fault Unit}
    (flushed : flush (refreshWithin depth)
      { e with graph := g, batchDepth := batchDepth } = some (r, e')) :
    Poised mode e' ∧ ∃ recs, e'.host = e.host ++ recs ∧ Recorded recs g e'.graph ∧
      (0 < batchDepth → recs = []) := by
  obtain ⟨honward, hdrained, recs, hhost, hrec, hheld⟩ := flush_spec
    (e := { e with graph := g, batchDepth := batchDepth }) (attends_refreshWithin mode depth) hs
    hp.still flushed
  refine ⟨⟨honward.sound, ?_, ?_, fun h => hdrained ?_, fun hx => ?_⟩, recs, hhost, hrec,
    fun h => (hheld h).1⟩
  · rw [honward.frame]
    exact hp.tracking
  · rw [honward.frame]
    exact hp.still
  · rw [honward.frame] at h
    exact h
  · obtain ⟨s, hs, hlabel⟩ := hp.seen (effects (honward.effects.1 hx))
    exact ⟨s, by rw [hhost]; exact List.mem_append_left _ hs, hlabel⟩

theorem Poised.pruned (hp : Poised mode e) {g : Graph (Program Journal)}
    (pruned : e.graph.Pruned g) : Poised mode { e with graph := g } :=
  hp.graph (hp.sound.pruned pruned) pruned.sublist.subset fun {x l} ⟨m, p, running, hm, hk⟩ => by
    obtain ⟨n, hn, hk', -⟩ := pruned.origin hm
    exact ⟨n, p, running, hn, hk'.symm.trans hk⟩

theorem Poised.move {allowed : Except Fault Unit → Prop} (hp : Poised mode e)
    (move : Move mode allowed e e') : Poised mode e' ∧ Appends e e' := by
  cases move with
  | newSignal proper inserted unread =>
    obtain rfl := congrArg Prod.snd inserted
    exact ⟨hp.graph (hp.sound.insertSignal proper) (List.Subset.refl _)
      (effectAt_insertNode fun _ _ h => by cases h), .of_eq rfl⟩
  | newComputed lawful inserted ranked unread =>
    obtain rfl := congrArg Prod.snd inserted
    exact ⟨hp.graph (hp.sound.insertComputed lawful ranked) (List.Subset.refl _)
      (effectAt_insertNode fun _ _ h => by cases h), .of_eq rfl⟩
  | newOwnedComputed lawful inserted ranked unread =>
    obtain ⟨-, hsame, hpending⟩ := insertOwned_eq_some inserted
    refine ⟨hp.graph ((hp.sound.insertComputed lawful ?_).congr hsame hpending) ?_ fun hx => ?_,
      .of_eq rfl⟩
    · rwa [← sheet_of_node? hsame]
    · rw [hpending]
      exact List.Subset.refl _
    · exact effectAt_insertNode (fun _ _ h => by cases h) ((effectAt_congr hsame).1 hx)
  | newEffect reads unused inserted ran =>
    obtain ⟨hp', -, -, -, readings, hhost, hsaw⟩ := hp.newEffect reads unused inserted ran
    refine ⟨hp', _, hhost, fun s hs r hr => ?_⟩
    obtain rfl := List.mem_singleton.1 hs
    exact hsaw.fresh r hr
  | newScope inserted =>
    obtain rfl := congrArg Prod.snd inserted
    exact ⟨hp.graph (hp.sound.congr (fun _ => rfl) rfl) (List.Subset.refl _) fun hx => hx,
      .of_eq rfl⟩
  | newChildScope inserted =>
    obtain ⟨hsame, hpending⟩ := insertChildScope_eq_some inserted
    refine ⟨hp.graph (hp.sound.congr hsame hpending) ?_ fun hx => (effectAt_congr hsame).1 hx,
      .of_eq rfl⟩
    rw [hpending]
    exact List.Subset.refl _
  | read hread =>
    obtain ⟨g, rfl, hr, hg, -⟩ := hp.read hread
    exact ⟨hp.refreshed hr hg, .of_eq rfl⟩
  | write proper written ended =>
    rcases writeSignal_cases written with ⟨-, rfl⟩ | ⟨-, rfl⟩ | ⟨n, old, hn, hk, -, hflush⟩
    · exact ⟨hp, .of_eq rfl⟩
    · exact ⟨hp, .of_eq rfl⟩
    · obtain ⟨hp', recs, hhost, hrec, -⟩ := hp.flushed e.batchDepth
        (hp.sound.written hn hk proper) (fun hx => effectAt_written hn hx) hflush
      exact ⟨hp', recs, hhost, hrec.fresh⟩
  | openBatch =>
    exact ⟨⟨hp.sound, hp.tracking, hp.still, fun h => by simp at h, hp.seen⟩, .of_eq rfl⟩
  | closeBatch opened flushed ended =>
    obtain ⟨hp', recs, hhost, hrec, -⟩ :=
      hp.flushed (e.batchDepth - 1) hp.sound (fun hx => hx) flushed
    exact ⟨hp', recs, hhost, hrec.fresh⟩
  | @disposeEffect id keeps =>
    rw [removeNode_eq_remove] at keeps ⊢
    exact ⟨hp.pruned (hp.sound.coherent.pruned_remove keeps), .of_eq rfl⟩
  | disposeScope keeps => exact ⟨hp.pruned (hp.sound.coherent.pruned_remove keeps), .of_eq rfl⟩

end Moves

theorem Reached.poised {allowed : Except Fault Unit → Prop} {settings : Settings}
    {e : Engine Journal} (reached : Reached mode allowed settings e) : Poised mode e := by
  induction reached with
  | start => exact .start mode settings
  | move _ move ih => exact (ih.move move).1

/-- Adds an effect that watches, and runs it. -/
def watch (owner : ScopeId) (label : Nat) (p : Program Journal) (depth : Nat) (e : Engine Journal) :
    Option (Engine Journal) :=
  (e.graph.insertOwned (.effect (p.watched label []) false) owner).bind fun (id, g) =>
    refreshWithin depth id { e with graph := g }

theorem Reached.watch {allowed : Except Fault Unit → Prop} {settings : Settings}
    {e e' : Engine Journal} (reached : Reached mode allowed settings e) {p : Program Journal}
    {owner : ScopeId} {label depth : Nat} (reads : p.Reads mode)
    (unused : ∀ s ∈ e.host, s.label ≠ label) (watched : watch owner label p depth e = some e') :
    Reached mode allowed settings e' := by
  obtain ⟨⟨id, g⟩, inserted, ran⟩ := Option.bind_eq_some_iff.1 watched
  exact reached.move (.newEffect reads unused inserted ran)

/-! ## A small engine -/

/-- Whether a run ends well. -/
def succeeds {σ : Type} (depth : Nat) (p : Program σ) (e : Engine σ) : Bool :=
  (run depth p e).any fun r => r.1.toBool

theorem succeeds_iff {σ : Type} {depth : Nat} {p : Program σ} {e : Engine σ} :
    succeeds depth p e = true ↔ ∃ v e', run depth p e = some (.ok v, e') := by
  rw [succeeds]
  rcases run depth p e with _ | ⟨r, e'⟩
  · simp
  · cases r <;> simp [Except.toBool]

namespace Small

/-- One queued effect may run. -/
def settings : Settings := ⟨.skipEqual, 1, Nat.one_pos⟩

def scope : ScopeId := ⟨0, 0⟩

def first : NodeId := ⟨0, 0⟩

def second : NodeId := ⟨1, 0⟩

def copy : NodeId := ⟨2, 0⟩

/-- Two signals, and a computed that shows the first of them. -/
def cells : Graph (Program Journal) :=
  let g := (Graph.empty.insertScope).2
  let g := (g.insertNode (.signal (.bool false)) .clean none).2
  let g := (g.insertNode (.signal (.bool false)) .clean none).2
  (g.insertNode (.computed (.get ⟨.signal, first⟩) false none) .dirty none).2

theorem ranked_cells : cells.sheet.Ranked := by
  refine ⟨fun _ => 0, fun t ht id body hbody => ?_⟩
  obtain ⟨v, hv⟩ : ∃ v, t.value? first = some v :=
    Option.isSome_iff_exists.1 ((ht.2.1 first).trans rfl)
  rw [ht.1] at hbody
  obtain ⟨n, running, last, hn, hk⟩ := body?_eq_some.1 hbody
  obtain ⟨-, rfl⟩ | hn := insertNode_origin hn
  · cases hk
    exact .signal hv (.done _)
  obtain ⟨-, rfl⟩ | hn := insertNode_origin hn
  · cases hk
  obtain ⟨-, rfl⟩ | hn := insertNode_origin hn
  · cases hk
  cases hn

theorem reached_cells (mode : Bool → Prop) (allowed : Except Fault Unit → Prop) :
    Reached mode allowed settings { start settings [] with graph := cells } := by
  have lawful : (Program.get ⟨.signal, first⟩ : Program Journal).Lawful :=
    .read _ fun _ _ h => .done h
  have h₀ : Reached mode allowed settings { start settings [] with graph := Graph.empty.insertScope.2 } :=
    .move .start (.newScope rfl)
  have h₁ := h₀.move (.newSignal (Value.Proper.bool false) rfl nofun)
  have h₂ := h₁.move (.newSignal (Value.Proper.bool false) rfl nofun)
  exact h₂.move (.newComputed lawful rfl ranked_cells nofun)

/-- An effect on the second signal. -/
def engine₁ : Engine Journal :=
  (watch scope 0 (.get ⟨.signal, second⟩) 3 { start settings [] with graph := cells }).get
    (by decide +kernel)

/-- Then an effect on the computed. -/
def engine : Engine Journal :=
  (watch scope 1 (.get ⟨.computed, copy⟩) 3 engine₁).get (by decide +kernel)

theorem reads_get {mode : Bool → Prop} (tracked : mode true) (cell : Cell) :
    (Program.get cell : Program Journal).Reads mode :=
  .read _ tracked fun r => .done r

theorem reached_engine {mode : Bool → Prop} (tracked : mode true)
    (allowed : Except Fault Unit → Prop) : Reached mode allowed settings engine := by
  have h₁ : Reached mode allowed settings engine₁ :=
    (reached_cells mode allowed).watch (reads_get tracked _) nofun (Option.some_get _).symm
  exact h₁.watch (reads_get tracked _) (by decide +kernel) (Option.some_get _).symm

end Small

end Engine

end LiveTemplate.Reactive
