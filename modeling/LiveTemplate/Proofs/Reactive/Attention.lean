import LiveTemplate.Proofs.Reactive.Reached

/-!
# What lasts while clients go on

A property of the graph and the journal that every step upholds (`Engine.Upheld`) holds of all
engines that clients can reach. Two such properties say that effects do not miss changes:

* every late effect is queued, and recorded the live cells that it saw last (`Graph.Alert`),
  whatever happens;
* every effect minds its sources and heeds what it saw last (`Graph.Vigilant`), as long as no flush
  gave up on the queue.
-/
namespace LiveTemplate.Reactive

namespace Graph

variable {mode : Bool → Prop} {g h : Graph (Program Journal)} {id : NodeId} {r : Reading}
  {journal : Journal}

/-! ## New nodes -/

section Insert

variable {kind : NodeKind (Program Journal)} {freshness : Freshness} {owner : Option ScopeId}

theorem settled_insertNode {s : NodeId} (settled : g.Settled s) :
    (g.insertNode kind freshness owner).2.Settled s := by
  obtain ⟨n, hn, hset⟩ := settled
  exact ⟨n, (insertNode_live hn).2, hset⟩

theorem holds_of_insertNode {cell : Cell}
    (holds : (g.insertNode kind freshness owner).2.sheet.Holds cell)
    (other : cell.node ≠ (g.insertNode kind freshness owner).1) : g.sheet.Holds cell := by
  obtain ⟨k, x⟩ := cell
  cases k with
  | signal =>
    obtain ⟨v, hv⟩ := holds
    obtain ⟨n, hn, hk⟩ := value?_eq_some.1 hv
    rw [node?_insertNode, if_neg other] at hn
    exact ⟨v, value?_eq_some.2 ⟨n, hn, hk⟩⟩
  | computed =>
    obtain ⟨body, hbody⟩ := holds
    obtain ⟨n, _, _, hn, hk⟩ := body?_eq_some.1 hbody
    rw [node?_insertNode, if_neg other] at hn
    exact ⟨body, body?_of_kind hn hk⟩

theorem same_insertNode {n m : Node (Program Journal)} (hn : g.node? id = some n)
    (hm : (g.insertNode kind freshness owner).2.node? id = some m) : m = n :=
  Option.some.inj (hm.symm.trans (insertNode_live hn).2)

theorem Minds.inserted {s : NodeId} (hh : g.Minds id s) {n : Node (Program Journal)}
    (hn : g.node? id = some n) : (g.insertNode kind freshness owner).2.Minds id s := by
  refine ⟨fun hm => ?_, fun hm hclean => ?_⟩
  · obtain rfl := same_insertNode hn hm
    exact hh.source hn
  · obtain rfl := same_insertNode hn hm
    exact settled_insertNode (hh.settled hn hclean)

theorem Answers.inserted (ha : g.Answers id r) {n : Node (Program Journal)}
    (hn : g.node? id = some n)
    (back : (g.insertNode kind freshness owner).2.sheet.Holds r.cell → g.sheet.Holds r.cell) :
    (g.insertNode kind freshness owner).2.Answers id r := by
  refine ha.imp (fun hh => ?_) fun ⟨gone, outcome⟩ => ⟨fun holds => gone (back holds), outcome⟩
  refine ⟨hh.toMinds.inserted hn, holds_insertNode hh.holds, fun hm hdirty => ?_⟩
  obtain rfl := same_insertNode hn hm
  obtain ⟨t, ht⟩ : ∃ t, g.node? r.cell.node = some t := by
    obtain ⟨⟨k, x⟩, o⟩ := r
    cases k with
    | signal =>
      obtain ⟨v, hv⟩ := hh.holds
      obtain ⟨t, ht, -⟩ := value?_eq_some.1 hv
      exact ⟨t, ht⟩
    | computed =>
      obtain ⟨body, hbody⟩ := hh.holds
      obtain ⟨t, _, _, ht, -⟩ := body?_eq_some.1 hbody
      exact ⟨t, ht⟩
  rw [shown_insertNode ht]
  exact hh.alike hn hdirty

theorem QueuesBut.inserted (queues : g.QueuesBut none) :
    (g.insertNode kind freshness owner).2.QueuesBut (some (g.insertNode kind freshness owner).1) := by
  intro x n hn heffect hlate
  rcases insertNode_origin hn with ⟨rfl, -⟩ | hn
  · exact .inr rfl
  · exact .inl ((queues hn heffect hlate).resolve_right nofun)

theorem Minding.inserted (minding : g.Minding) : (g.insertNode kind freshness owner).2.Minding := by
  intro x s n hn heffect hs
  rcases insertNode_origin hn with ⟨-, rfl⟩ | hn
  · cases hs
  · exact (minding hn heffect hs).inserted hn

end Insert

/-! ## Removals -/

theorem EffectAt.of_pruned (hp : g.Pruned h) {x : NodeId} {l : Nat} (hx : h.EffectAt x l) :
    g.EffectAt x l := by
  obtain ⟨m, p, running, hm, hk⟩ := hx
  obtain ⟨n, hn, hk', -⟩ := hp.origin hm
  exact ⟨n, p, running, hn, hk'.symm.trans hk⟩

theorem Minds.pruned (hp : g.Pruned h) {s : NodeId} (hh : g.Minds id s) : h.Minds id s := by
  refine ⟨fun hm => ?_, fun hm hclean => ?_⟩
  · obtain ⟨n, hn, -, -, hsources⟩ := hp.origin hm
    exact hsources ▸ hh.source hn
  · obtain ⟨n, hn, -, hfresh, -⟩ := hp.origin hm
    exact hp.cells.settled (hh.settled hn (hfresh ▸ hclean))

theorem Answers.pruned (hp : g.Pruned h) (ha : g.Answers id r) : h.Answers id r := by
  refine ha.congr hp.cells.sheet fun hh => ⟨hh.toMinds.pruned hp, hp.cells.sheet ▸ hh.holds,
    fun hm hdirty => ?_⟩
  obtain ⟨n, hn, -, hfresh, -⟩ := hp.origin hm
  rw [hp.cells.shown]
  exact hh.alike hn (hfresh ▸ hdirty)

theorem QueuesBut.pruned (hp : g.Pruned h) {x : Option NodeId} (queues : g.QueuesBut x) :
    h.QueuesBut x := by
  intro y m hm heffect hlate
  obtain ⟨n, hn, hk, hfresh, -⟩ := hp.origin hm
  refine (queues hn (by rwa [Node.isEffect, ← hk]) (hfresh ▸ hlate)).imp_left fun hy => ?_
  exact hp.pending y hy (by simp [hm])

/-! ## Signals -/

/-- Signals record no sources. -/
def Rooted (g : Graph (Program Journal)) : Prop :=
  ∀ {x : NodeId} {n : Node (Program Journal)} {v : Value}, g.node? x = some n → n.kind = .signal v →
    n.sources = []

theorem not_computes_of_signal {x : NodeId} {n : Node (Program Journal)} {v : Value}
    (hn : g.node? x = some n) (hk : n.kind = .signal v) : ¬g.sheet.Computes x := by
  rintro ⟨body, hbody⟩
  obtain ⟨n', _, _, hn', hk'⟩ := body?_eq_some.1 hbody
  obtain rfl := Option.some.inj (hn.symm.trans hn')
  simp [hk] at hk'

theorem Rooted.refreshed {P : NodeId → Prop} (rooted : g.Rooted) (hr : g.Refreshed P h)
    (far : ∀ {x : NodeId} {n : Node (Program Journal)} {v : Value}, g.node? x = some n →
      n.kind = .signal v → ¬P x) : h.Rooted := by
  intro x m v hm hk
  obtain ⟨n, hn, hcase⟩ := hr.origin hm
  have hskeleton := skeleton_of_refreshed hr x
  simp only [hm, hn, Option.map_some, Option.some.injEq, hk] at hskeleton
  have hnk : n.kind = .signal v := by
    cases hnk : n.kind <;> simp_all [NodeKind.skeleton]
  rcases hcase with hkept | ⟨hp, -⟩
  · rw [hkept.sources]
    exact rooted hn hnk
  · exact absurd hp (far hn hnk)

theorem Rooted.written (rooted : g.Rooted) {n : Node (Program Journal)} {old value : Value}
    (found : g.node? id = some n) (kind : n.kind = .signal old) {subscribers : List NodeId} :
    (g.written id value subscribers).Rooted := by
  intro x m v hm hk
  by_cases hx : x = id
  · subst hx
    obtain ⟨m', hm', -, hsources, -⟩ := written_self found value subscribers
    obtain rfl := Option.some.inj (hm.symm.trans hm')
    rw [hsources]
    exact rooted found kind
  · obtain ⟨m₀, hm₀, hd⟩ := written_of_ne hx hm
    rw [hd.sources]
    exact rooted hm₀ (hd.kind.symm.trans hk)

end Graph

namespace Engine

open Reactive.Graph

variable {mode : Bool → Prop} {allowed : Except Fault Unit → Prop} {settings : Settings}

/-- Every step of a client upholds the property, if flushes end as allowed. -/
structure Upheld (mode : Bool → Prop) (allowed : Except Fault Unit → Prop)
    (I : Option NodeId → Graph (Program Journal) → Journal → Prop) : Prop
    extends Lasting mode I where
  start : I none .empty []
  refreshed : ∀ {g h : Graph (Program Journal)} {journal : Journal}, h.Sound mode → I none g journal →
    g.Refreshed g.sheet.Computes h → I none h journal
  written : ∀ {g : Graph (Program Journal)} {journal : Journal} {id : NodeId}
    {n : Node (Program Journal)} {old value : Value}, g.Sound mode → g.node? id = some n →
      n.kind = .signal old → I none g journal → I none (g.written id value n.subscribers) journal
  dropped : ∀ {e : Engine Journal} {r : Except Fault Unit}, allowed r → ¬Calm r →
    e.graph.Sound mode → I none e.graph e.host → I none e.dropQueue.graph e.dropQueue.host
  cell : ∀ {g : Graph (Program Journal)} {journal : Journal} {kind : NodeKind (Program Journal)}
    {freshness : Freshness} {owner : Option ScopeId}, (∀ body running, kind ≠ .effect body running) →
      Unread journal (g.insertNode kind freshness owner).1 → I none g journal →
      I none (g.insertNode kind freshness owner).2 journal
  effect : ∀ {g : Graph (Program Journal)} {journal : Journal} {p : Program Journal} {label : Nat}
    {freshness : Freshness} {owner : Option ScopeId}, (∀ s ∈ journal, s.label ≠ label) →
      I none g journal → I (some (g.insertNode (.effect (p.watched label []) false) freshness owner).1)
        (g.insertNode (.effect (p.watched label []) false) freshness owner).2 journal
  pruned : ∀ {g h : Graph (Program Journal)} {journal : Journal} {x : Option NodeId}, g.Pruned h →
    I x g journal → I x h journal

theorem Upheld.flushed {I : Option NodeId → Graph (Program Journal) → Journal → Prop}
    (upheld : Upheld mode allowed I) {e e' : Engine Journal} {d : Nat} {r : Except Fault Unit}
    (hs : e.graph.Sound mode) (still : e.flushing = false) (start : I none e.graph e.host)
    (flushed : flush (refreshWithin d) e = some (r, e')) (ended : allowed r) :
    I none e'.graph e'.host :=
  flush_keeps (attends_refreshWithin mode d) upheld.toLasting hs still start
    (fun hr _ hs => upheld.dropped ended hr hs) flushed

/-- What every step upholds holds of all that is reached. -/
theorem Reached.upholds {I : Option NodeId → Graph (Program Journal) → Journal → Prop}
    (upheld : Upheld mode allowed I) {e : Engine Journal} (reached : Reached mode allowed settings e) :
    I none e.graph e.host := by
  induction reached with
  | start => exact upheld.start
  | @move e e' reached move ih =>
    have hp := reached.poised
    cases move with
    | newSignal proper inserted unread =>
      obtain ⟨rfl, rfl⟩ := Prod.mk.inj inserted
      exact upheld.cell nofun unread ih
    | newComputed lawful inserted ranked unread =>
      obtain ⟨rfl, rfl⟩ := Prod.mk.inj inserted
      exact upheld.cell nofun unread ih
    | newOwnedComputed lawful inserted ranked unread =>
      obtain ⟨rfl, hsame, hpending⟩ := insertOwned_eq_some inserted
      have hcoherent := (hp.sound.insertComputed lawful (by rwa [← sheet_of_node? hsame])).coherent
      exact upheld.pruned (hcoherent.pruned_same hsame hpending) (upheld.cell nofun unread ih)
    | newEffect reads unused inserted ran =>
      obtain ⟨hp', hs, hat, hattended, -⟩ := hp.newEffect reads unused inserted ran
      obtain ⟨rfl, hsame, hpending⟩ := insertOwned_eq_some inserted
      have hcoherent : (e.graph.insertNode (.effect (Program.watched _ _ []) false) .dirty
          (some _)).2.Coherent := (hs.congr (fun x => (hsame x).symm) hpending.symm).coherent
      exact upheld.attended hs hat hattended
        (upheld.pruned (hcoherent.pruned_same hsame hpending) (upheld.effect unused ih))
    | newScope inserted =>
      obtain rfl := congrArg Prod.snd inserted
      exact upheld.pruned (hp.sound.coherent.pruned_same (fun _ => rfl) rfl) ih
    | newChildScope inserted =>
      obtain ⟨hsame, hpending⟩ := insertChildScope_eq_some inserted
      exact upheld.pruned (hp.sound.coherent.pruned_same hsame hpending) ih
    | read hread =>
      obtain ⟨g, rfl, hr, hg, -⟩ := hp.read hread
      exact upheld.refreshed (hp.refreshed hr hg).sound ih hr
    | write proper written ended =>
      rcases writeSignal_cases written with ⟨-, rfl⟩ | ⟨-, rfl⟩ | ⟨n, old, hn, hk, -, hflush⟩
      · exact ih
      · exact ih
      · exact upheld.flushed (e := { e with graph := e.graph.written _ _ n.subscribers })
          (hp.sound.written hn hk proper) hp.still (upheld.written hp.sound hn hk ih) hflush ended
    | openBatch => exact ih
    | closeBatch opened flushed ended =>
      exact upheld.flushed (e := { e with batchDepth := e.batchDepth - 1 }) hp.sound hp.still ih
        flushed ended
    | disposeEffect keeps =>
      rw [removeNode_eq_remove] at keeps ⊢
      exact upheld.pruned (hp.sound.coherent.pruned_remove keeps) ih
    | disposeScope keeps => exact upheld.pruned (hp.sound.coherent.pruned_remove keeps) ih

/-! ## Effects that do not miss a change -/

theorem upheld_queues (mode : Bool → Prop) (allowed : Except Fault Unit → Prop) :
    Upheld mode allowed fun x g _ => g.QueuesBut x where
  toLasting := lasting_queues mode
  start := nofun
  refreshed _ queues hr := queues.refreshed hr
  written _ found _ queues := queues.written found _
  dropped := by
    intro e r _ _ _ queues x m hm heffect hlate
    rw [node?_dropQueue] at hm
    split at hm
    · obtain ⟨n, -, rfl⟩ := Option.map_eq_some_iff.1 hm
      exact absurd rfl hlate
    next hx => exact absurd ((queues hm heffect hlate).resolve_right nofun) hx
  cell cell _ queues := by
    intro x n hn heffect hlate
    rcases insertNode_origin hn with ⟨-, rfl⟩ | hn
    · obtain ⟨body, running, hk⟩ := Node.kind_of_isEffect heffect
      exact absurd hk (cell body running)
    · exact queues hn heffect hlate
  effect _ queues := queues.inserted
  pruned hp queues := queues.pruned hp

theorem upheld_minding (mode : Bool → Prop) : Upheld mode Calm fun _ g _ => g.Minding where
  toLasting := lasting_minding mode
  start := nofun
  refreshed _ minding hr := minding.refreshed hr fun _ hx => hx
  written hs found kind minding := minding.written hs found kind
  dropped calm late := absurd calm late
  cell _ _ minding := minding.inserted
  effect _ minding := minding.inserted
  pruned hp minding := by
    intro x s m hm heffect hs
    obtain ⟨n, hn, hk, -, hsources⟩ := hp.origin hm
    exact (minding hn (by rwa [Node.isEffect, ← hk]) (hsources ▸ hs)).pruned hp

/-- What is recalled of a journal without the label of an effect. -/
theorem latest_unused {journal : Journal} {label : Nat} (unused : ∀ s ∈ journal, s.label ≠ label)
    {r : Reading} : r ∉ journal.latest label := fun h => by
  obtain ⟨s, hs, hlabel, -⟩ := Journal.mem_latest h
  exact unused s hs hlabel

/-- An effect after an insertion is new or was there before. -/
theorem effectAt_insertEffect {g : Graph (Program Journal)} {p : Program Journal} {label : Nat}
    {freshness : Freshness} {owner : Option ScopeId} {x : NodeId} {l : Nat}
    (hx : (g.insertNode (.effect (p.watched label []) false) freshness owner).2.EffectAt x l) :
    l = label ∨ g.EffectAt x l := by
  obtain ⟨n, q, running, hn, hk⟩ := hx
  rcases insertNode_origin hn with ⟨-, rfl⟩ | hn
  · obtain ⟨hbody, -⟩ := NodeKind.effect.inj hk
    exact .inl (Program.watched_label hbody).symm
  · exact .inr ⟨n, q, running, hn, hk⟩

theorem holds_unread {g : Graph (Program Journal)} {journal : Journal}
    {kind : NodeKind (Program Journal)} {freshness : Freshness} {owner : Option ScopeId}
    (unread : Unread journal (g.insertNode kind freshness owner).1) {label : Nat} {r : Reading}
    (hr : r ∈ journal.latest label)
    (holds : (g.insertNode kind freshness owner).2.sheet.Holds r.cell) : g.sheet.Holds r.cell := by
  obtain ⟨s, hs, -, hmem⟩ := Journal.mem_latest hr
  exact holds_of_insertNode holds (unread s hs r hmem)

theorem upheld_recalls (tracked : ∀ t, mode t → t = true) (allowed : Except Fault Unit → Prop) :
    Upheld mode allowed fun _ g journal => g.Recalls journal where
  toLasting := lasting_recalls tracked
  start _ hr := absurd hr List.not_mem_nil
  refreshed _ recalls hr := recalls.refreshed hr fun _ hx => hx
  written _ found kind recalls := recalls.written found kind _
  dropped := by
    intro e _ _ _ hs recalls x l r hx hr holds m hm
    obtain ⟨honward, hhost, -⟩ := dropQueue_onward hs
    rw [hhost] at hr
    rw [honward.sheet] at holds
    have hback {n : Node (Program Journal)} (hn : e.graph.node? x = some n) : m.sources = n.sources := by
      rw [node?_dropQueue, hn] at hm
      split at hm <;> obtain rfl := Option.some.inj hm <;> rfl
    obtain ⟨n, hn, -⟩ := (honward.effects.1 hx).isEffect
    rw [hback hn]
    exact recalls (honward.effects.1 hx) hr holds hn
  cell cell unread recalls := by
    intro x l r hx hr holds m hm
    have hx := effectAt_insertNode cell hx
    obtain ⟨n, hn, -⟩ := hx.isEffect
    obtain rfl := same_insertNode hn hm
    exact recalls hx hr (holds_unread unread hr holds) hn
  effect unused recalls := by
    intro x l r hx hr holds m hm
    rcases effectAt_insertEffect hx with rfl | hx
    · exact absurd hr (latest_unused unused)
    · obtain ⟨n, hn, -⟩ := hx.isEffect
      obtain rfl := same_insertNode hn hm
      rw [sheet_insertEffect] at holds
      exact recalls hx hr holds hn
  pruned hp recalls := by
    intro x l r hx hr holds m hm
    obtain ⟨n, hn, -, -, hsources⟩ := hp.origin hm
    rw [hp.cells.sheet] at holds
    rw [hsources]
    exact recalls (hx.of_pruned hp) hr holds hn

theorem upheld_pays (tracked : ∀ t, mode t → t = true) :
    Upheld mode Calm fun _ g journal => g.Pays .latest journal ∧ [] <+: journal where
  toLasting := lasting_pays tracked .latest
  start := ⟨fun _ hr => absurd hr List.not_mem_nil, List.nil_prefix⟩
  refreshed _ pays hr := ⟨Pays.refreshed pays.1 hr fun _ hx => hx, pays.2⟩
  written hs found kind pays := ⟨Pays.written hs pays.1 found kind, pays.2⟩
  dropped calm late := absurd calm late
  cell cell unread pays := by
    refine ⟨fun hx hr => ?_, pays.2⟩
    have hx := effectAt_insertNode cell hx
    obtain ⟨n, hn, -⟩ := hx.isEffect
    exact (pays.1 hx hr).inserted hn (holds_unread unread hr)
  effect unused pays := by
    refine ⟨fun hx hr => ?_, pays.2⟩
    rcases effectAt_insertEffect hx with rfl | hx
    · exact absurd hr (latest_unused unused)
    · obtain ⟨n, hn, -⟩ := hx.isEffect
      exact (pays.1 hx hr).inserted hn fun holds => sheet_insertEffect _ _ ▸ holds
  pruned hp pays := ⟨fun hx hr => (pays.1 (hx.of_pruned hp) hr).pruned hp, pays.2⟩

/-- Signals record nothing. -/
theorem upheld_rooted (mode : Bool → Prop) (allowed : Except Fault Unit → Prop) :
    Upheld mode allowed fun _ g _ => g.Rooted where
  dequeued _ rooted := rooted
  attended _ hat attended rooted := rooted.refreshed attended.refreshed fun {x n v} hn hk => by
    rintro (hx | rfl)
    · exact not_computes_of_signal hn hk hx
    · obtain ⟨n', _, _, hn', hk'⟩ := hat
      obtain rfl := Option.some.inj (hn.symm.trans hn')
      simp [hk] at hk'
  start hn := by cases hn
  refreshed _ rooted hr := rooted.refreshed hr fun hn hk => not_computes_of_signal hn hk
  written _ found kind rooted := rooted.written found kind
  dropped := by
    intro e _ _ _ _ rooted x m v hm hk
    rw [node?_dropQueue] at hm
    split at hm
    · obtain ⟨n, hn, rfl⟩ := Option.map_eq_some_iff.1 hm
      have hsources : n.sources = [] := rooted hn hk
      exact hsources
    · exact rooted hm hk
  cell _ _ rooted := by
    intro x n v hn hk
    rcases insertNode_origin hn with ⟨-, rfl⟩ | hn
    · rfl
    · exact rooted hn hk
  effect _ rooted := by
    intro x n v hn hk
    rcases insertNode_origin hn with ⟨-, rfl⟩ | hn
    · rfl
    · exact rooted hn hk
  pruned hp rooted := by
    intro x m v hm hk
    obtain ⟨n, hn, hk', -, hsources⟩ := hp.origin hm
    rw [hsources]
    exact rooted hn (hk'.symm.trans hk)

end Engine

end LiveTemplate.Reactive
