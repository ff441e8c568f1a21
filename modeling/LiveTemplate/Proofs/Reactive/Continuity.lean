import LiveTemplate.Proofs.Reactive.Courses
import LiveTemplate.Proofs.Reactive.Flush

/-!
# What goes on through a change of the graph

`Graph.Continues g evs h` says how `h` comes from `g` by a course with the events `evs`, whatever was
done in it. A node goes on or is gone for good; what runs goes on running, and its recorded sources
stay until they are gone. An effect that is not dirty has heard of the writes to its sources
(`Graph.Heard`), or nothing happened to them and it was not dirty before (`Graph.Unmoved`).

The relation is transitive, and every single change of the graph belongs to it. So do the beginning and
the end of a run, taken together with what happens in between.
-/
namespace LiveTemplate.Reactive

variable {β σ : Type}

/-! ## Events -/

namespace Event

/-- The last run of a node: its sources until then, what happened during the run, the cells that it
read by tracked reads, and what happened after it. -/
structure LastRun (x : NodeId) (evs : List Event) (sources : List NodeId) (during : List Event)
    (reads : List NodeId) (after : List Event) : Prop where
  split : ∃ before, evs = before ++ .began x sources :: (during ++ .ended x reads :: after)
  once : ∀ sources', .began x sources' ∉ during
  last : ∀ sources', .began x sources' ∉ after

/-- Somebody saw the value in the signal, and the signal was not written since. -/
def Saw (s : NodeId) (value : Value) : List Event → Prop
  | [] => False
  | ev :: evs => ev = .saw s value ∧ .wrote s ∉ evs ∨ Saw s value evs

variable {x s : NodeId} {value : Value} {evs evs' during after : List Event}
  {sources reads : List NodeId}

theorem LastRun.prepend (h : LastRun x evs' sources during reads after) (evs : List Event) :
    LastRun x (evs ++ evs') sources during reads after := by
  obtain ⟨⟨before, rfl⟩, once, last⟩ := h
  exact ⟨⟨evs ++ before, by simp⟩, once, last⟩

theorem LastRun.append (h : LastRun x evs sources during reads after)
    (idle : ∀ sources', .began x sources' ∉ evs') :
    LastRun x (evs ++ evs') sources during reads (after ++ evs') := by
  obtain ⟨⟨before, rfl⟩, once, last⟩ := h
  refine ⟨⟨before, by simp⟩, once, fun sources' hmem => ?_⟩
  exact (List.mem_append.1 hmem).elim (last sources') (idle sources')

theorem LastRun.began_mem (h : LastRun x evs sources during reads after) : .began x sources ∈ evs := by
  obtain ⟨before, rfl⟩ := h.split
  simp

theorem Saw.mem (h : Saw s value evs) : .saw s value ∈ evs := by
  induction evs with
  | nil => exact h.elim
  | cons ev evs ih =>
    rcases h with ⟨rfl, -⟩ | h
    · exact List.mem_cons_self
    · exact List.mem_cons_of_mem _ (ih h)

theorem saw_append :
    Saw s value (evs ++ evs') ↔ Saw s value evs ∧ .wrote s ∉ evs' ∨ Saw s value evs' := by
  induction evs with
  | nil => simp [Saw]
  | cons ev evs ih =>
    simp only [List.cons_append, Saw, ih, List.mem_append]
    tauto

end Event

open Event

namespace Graph

/-! ## Nodes that are gone for good -/

/-- There was a node of this key, and it is gone. -/
def Spent (g : Graph β) (id : NodeId) : Prop := g.nodes.Spent id

section Spent

variable {g h : Graph β} {x : NodeId}

theorem Spent.node? (hx : g.Spent x) : g.node? x = none := Arena.get?_of_spent hx

theorem Spent.modifyNode (hx : g.Spent x) (id : NodeId) (f : Node β → Node β) :
    (g.modifyNode id f).Spent x :=
  Arena.Spent.modify hx id f

theorem Spent.foldl_modifyNode (hx : g.Spent x) (ids : List NodeId) (f : Node β → Node β) :
    (ids.foldl (fun g id => g.modifyNode id f) g).Spent x := by
  induction ids generalizing g with
  | nil => exact hx
  | cons id ids ih => exact ih (hx.modifyNode id f)

theorem Spent.insertNode (hx : g.Spent x) (kind : NodeKind β) (freshness : Freshness)
    (owner : Option ScopeId) : (g.insertNode kind freshness owner).2.Spent x :=
  Arena.Spent.insert hx _

theorem Spent.relink (hx : g.Spent x) (id : NodeId) (sources : List NodeId) :
    (g.relink id sources).Spent x := by
  unfold Graph.relink
  split
  · exact hx
  · exact ((hx.foldl_modifyNode _ _).foldl_modifyNode _ _).modifyNode _ _

theorem Spent.removeNode (hx : g.Spent x) (id : NodeId) : (g.removeNode id).Spent x := by
  unfold Graph.removeNode
  split
  · exact hx
  next n hn =>
    have herase : ({ g with nodes := g.nodes.erase id } : Graph β).Spent x := Arena.Spent.erase hx id
    have hrest := (herase.foldl_modifyNode n.sources (Node.dropSubscriber id)).foldl_modifyNode
      n.subscribers (Node.dropSource id)
    dsimp only
    split <;> exact hrest

theorem spent_removeNode {id : NodeId} {n : Node β} (found : g.node? id = some n) :
    (g.removeNode id).Spent id := by
  unfold Graph.removeNode
  simp only [found]
  have herase : ({ g with nodes := g.nodes.erase id } : Graph β).Spent id := Arena.spent_erase found
  have hrest := (herase.foldl_modifyNode n.sources (Node.dropSubscriber id)).foldl_modifyNode
    n.subscribers (Node.dropSource id)
  split <;> exact hrest

theorem Spent.delay (hx : g.Spent x) (id : NodeId) (f : Freshness) (effect : Bool) :
    (g.delay id f effect).Spent x := by
  unfold Graph.delay
  split <;> exact hx.modifyNode id (Node.withFreshness f)

theorem Spent.markStale (hx : g.Spent x) (work : List NodeId) : (g.markStale work).Spent x := by
  induction g, work using markStale_induction with
  | nil g =>
    rw [Graph.markStale]
    exact hx
  | mark g id n work found clean ih =>
    rw [markStale_cons_clean found clean]
    exact ih (hx.delay _ _ _)
  | skip g id work skip ih =>
    rw [markStale_cons_skip skip]
    exact ih hx

theorem Spent.markDirty (hx : g.Spent x) (id : NodeId) : (g.markDirty id).Spent x := by
  unfold Graph.markDirty
  split
  · exact hx
  · split
    · exact hx
    · dsimp only
      split
      · exact hx.modifyNode id (Node.withFreshness .dirty)
      · exact (hx.modifyNode _ _).markStale _

theorem Spent.markAll (hx : g.Spent x) (ids : List NodeId) : (ids.foldl Graph.markDirty g).Spent x := by
  induction ids generalizing g with
  | nil => exact hx
  | cons id ids ih => exact ih (hx.markDirty id)

theorem Spent.stored (hx : g.Spent x) (id : NodeId) (outcome : Outcome) :
    (g.stored id outcome).Spent x := by
  unfold Graph.stored
  split
  · dsimp only
    split
    · exact (hx.modifyNode _ _).foldl_modifyNode _ _
    · exact hx.modifyNode _ _
  · exact hx

end Spent

/-! ## The relation -/

/-- There is or was a node of this key. -/
def Met (g : Graph β) (id : NodeId) : Prop := (g.node? id).isSome = true ∨ g.Spent id

theorem Met.modifyNode {g : Graph β} {x : NodeId} (met : g.Met x) (id : NodeId) (f : Node β → Node β) :
    (g.modifyNode id f).Met x := by
  refine met.imp (fun hlive => ?_) fun hspent => hspent.modifyNode id f
  rw [node?_modifyNode]
  split <;> simpa using hlive

/-- A node and what it is later on, in a graph in which some keys are spent. -/
structure Persists (h : Graph β) (n m : Node β) : Prop where
  effect : m.isEffect = n.isEffect
  running : m.isRunning = n.isRunning
  signal : ∀ value, m.kind = .signal value → ∃ old, n.kind = .signal old
  fewer : n.isRunning = true → m.sources ⊆ n.sources
  dropped : n.isRunning = true → ∀ s ∈ n.sources, s ∈ m.sources ∨ h.Spent s
  clean : n.isRunning = true → n.sources = [] → n.freshness = .clean → m.freshness = .clean

/-- The effect ran, and has recorded what it read, but for what is gone since. Nothing recorded was
written after the run; nor during it, if it was recorded before. -/
def Heard (h : Graph β) (x : NodeId) (m : Node β) (evs : List Event) : Prop :=
  ∃ sources during reads after, LastRun x evs sources during reads after ∧
    (∀ s ∈ reads, s ∈ m.sources ∨ h.Spent s) ∧
    ∀ s ∈ m.sources, .wrote s ∉ after ∧ (s ∈ sources → .wrote s ∉ during)

/-- The effect did not run, and nothing that it has recorded was written. -/
structure Unmoved (h : Graph β) (x : NodeId) (n m : Node β) (evs : List Event) : Prop where
  effect : n.isEffect = true
  higher : n.freshness ≠ .dirty
  idle : ∀ sources, .began x sources ∉ evs
  kept : ∀ s ∈ n.sources, s ∈ m.sources ∨ h.Spent s
  quiet : ∀ s ∈ m.sources, s ∈ n.sources ∧ .wrote s ∉ evs

structure Continues (g : Graph β) (evs : List Event) (h : Graph β) : Prop where
  spent : ∀ {x : NodeId}, g.Spent x → h.Spent x
  persists : ∀ {x : NodeId} {n : Node β}, g.node? x = some n →
    (∃ m, h.node? x = some m ∧ h.Persists n m) ∨ h.Spent x
  new : ∀ {x : NodeId} {m : Node β}, h.node? x = some m → g.node? x = none → m.isRunning = false
  still : ∀ {x : NodeId}, g.Spent x → ∀ sources, .began x sources ∉ evs
  silent : ∀ {x : NodeId} {n : Node β}, g.node? x = some n → n.isRunning = true →
    ∀ sources, .began x sources ∉ evs
  met : ∀ {s : NodeId} {value : Value}, .saw s value ∈ evs → h.Met s
  agrees : ∀ {s : NodeId} {m : Node β} {seen value : Value}, h.node? s = some m →
    m.kind = .signal value → Saw s seen evs → seen = value
  stored : ∀ {s : NodeId} {n m : Node β} {value : Value}, g.node? s = some n → h.node? s = some m →
    n.kind = .signal value → .wrote s ∉ evs → m.kind = .signal value
  heard : ∀ {x : NodeId} {m : Node β}, h.node? x = some m → m.isEffect = true →
    m.freshness ≠ .dirty → .gaveUp ∉ evs →
      h.Heard x m evs ∨ ∃ n, g.node? x = some n ∧ h.Unmoved x n m evs

variable {g h k : Graph β} {evs evs' : List Event} {x : NodeId} {n m l : Node β}

theorem Persists.trans (hp : h.Persists n m) (hp' : k.Persists m l)
    (spent : ∀ {x}, h.Spent x → k.Spent x) : k.Persists n l where
  effect := hp'.effect.trans hp.effect
  running := hp'.running.trans hp.running
  signal value hl := by
    obtain ⟨old, hm⟩ := hp'.signal value hl
    exact hp.signal old hm
  fewer hn := List.Subset.trans (hp'.fewer (hp.running.trans hn)) (hp.fewer hn)
  dropped hn s hs := (hp.dropped hn s hs).elim (hp'.dropped (hp.running.trans hn) s) (.inr ∘ spent)
  clean hn hs hc := hp'.clean (hp.running.trans hn) (List.subset_nil.1 (hs ▸ hp.fewer hn))
    (hp.clean hn hs hc)

theorem Heard.prepend (hh : h.Heard x m evs') (evs : List Event) : h.Heard x m (evs ++ evs') := by
  obtain ⟨sources, during, reads, after, run, rest⟩ := hh
  exact ⟨sources, during, reads, after, run.prepend evs, rest⟩

theorem Heard.append (hh : h.Heard x m evs) (hu : k.Unmoved x m l evs')
    (spent : ∀ {x}, h.Spent x → k.Spent x) : k.Heard x l (evs ++ evs') := by
  obtain ⟨sources, during, reads, after, run, recorded, quiet⟩ := hh
  refine ⟨sources, during, reads, after ++ evs', run.append hu.idle,
    fun s hs => (recorded s hs).elim (hu.kept s) (.inr ∘ spent), fun s hs => ?_⟩
  obtain ⟨hs, hquiet⟩ := hu.quiet s hs
  exact ⟨fun hmem => (List.mem_append.1 hmem).elim (quiet s hs).1 hquiet, (quiet s hs).2⟩

theorem Unmoved.trans (hu : h.Unmoved x n m evs) (hu' : k.Unmoved x m l evs')
    (spent : ∀ {x}, h.Spent x → k.Spent x) : k.Unmoved x n l (evs ++ evs') where
  effect := hu.effect
  higher := hu.higher
  idle sources hmem := (List.mem_append.1 hmem).elim (hu.idle sources) (hu'.idle sources)
  kept s hs := (hu.kept s hs).elim (hu'.kept s) (.inr ∘ spent)
  quiet s hs := by
    obtain ⟨hs, hquiet'⟩ := hu'.quiet s hs
    obtain ⟨hs, hquiet⟩ := hu.quiet s hs
    exact ⟨hs, fun hmem => (List.mem_append.1 hmem).elim hquiet hquiet'⟩

theorem Continues.find (hc : g.Continues evs h) (hn : g.node? x = some n) (hm : h.node? x = some m) :
    h.Persists n m := by
  rcases hc.persists hn with ⟨m', hm', hp⟩ | hspent
  · rwa [Option.some.inj (hm.symm.trans hm')]
  · simp [hspent.node?] at hm

/-- What runs was running before. -/
theorem Continues.origin (hc : g.Continues evs h) (hm : h.node? x = some m)
    (running : m.isRunning = true) : ∃ n, g.node? x = some n ∧ h.Persists n m := by
  cases hn : g.node? x with
  | none => simp [hc.new hm hn] at running
  | some n => exact ⟨n, rfl, hc.find hn hm⟩

theorem Continues.of_met (hc : g.Continues evs h) (met : g.Met x) : h.Met x := by
  rcases met with hlive | hspent
  · obtain ⟨n, hn⟩ := Option.isSome_iff_exists.1 hlive
    rcases hc.persists hn with ⟨m, hm, -⟩ | hspent
    · exact .inl (by simp [hm])
    · exact .inr hspent
  · exact .inr (hc.spent hspent)

theorem Continues.trans (hc : g.Continues evs h) (hc' : h.Continues evs' k) :
    g.Continues (evs ++ evs') k where
  spent hx := hc'.spent (hc.spent hx)
  persists hn := by
    rcases hc.persists hn with ⟨m, hm, hp⟩ | hspent
    · rcases hc'.persists hm with ⟨l, hl, hp'⟩ | hspent
      · exact .inl ⟨l, hl, hp.trans hp' hc'.spent⟩
      · exact .inr hspent
    · exact .inr (hc'.spent hspent)
  new {x l} hl hnone := by
    cases hm : h.node? x with
    | none => exact hc'.new hl hm
    | some m => exact (hc'.find hm hl).running.trans (hc.new hm hnone)
  still hx sources hmem := (List.mem_append.1 hmem).elim (hc.still hx sources)
    (hc'.still (hc.spent hx) sources)
  silent hn running sources hmem := by
    rcases List.mem_append.1 hmem with hmem | hmem
    · exact hc.silent hn running sources hmem
    · rcases hc.persists hn with ⟨m, hm, hp⟩ | hspent
      · exact hc'.silent hm (hp.running.trans running) sources hmem
      · exact hc'.still hspent sources hmem
  met hmem := (List.mem_append.1 hmem).elim (fun h => hc'.of_met (hc.met h)) hc'.met
  agrees {s l seen value} hl hk hsaw := by
    rcases saw_append.1 hsaw with ⟨hsaw, hquiet⟩ | hsaw
    · rcases hc.met hsaw.mem with hlive | hspent
      · obtain ⟨m, hm⟩ := Option.isSome_iff_exists.1 hlive
        obtain ⟨old, hold⟩ := (hc'.find hm hl).signal value hk
        rw [hc.agrees hm hold hsaw]
        exact NodeKind.signal.inj ((hc'.stored hm hl hold hquiet).symm.trans hk)
      · simp [(hc'.spent hspent).node?] at hl
    · exact hc'.agrees hl hk hsaw
  stored {s n l value} hn hl hk hquiet := by
    rw [List.mem_append, not_or] at hquiet
    rcases hc.persists hn with ⟨m, hm, -⟩ | hspent
    · exact hc'.stored hm hl (hc.stored hn hm hk hquiet.1) hquiet.2
    · simp [(hc'.spent hspent).node?] at hl
  heard {x l} hl heffect hdirty hgave := by
    rw [List.mem_append, not_or] at hgave
    rcases hc'.heard hl heffect hdirty hgave.2 with hh | ⟨m, hm, hu⟩
    · exact .inl (hh.prepend evs)
    · rcases hc.heard hm hu.effect hu.higher hgave.1 with hh | ⟨n, hn, hu'⟩
      · exact .inl (hh.append hu hc'.spent)
      · exact .inr ⟨n, hn, hu'.trans hu hc'.spent⟩

/-- While effects run for the first time, they are clean and have no sources. -/
def Opening (g : Graph β) : Prop :=
  ∀ ⦃x : NodeId⦄ ⦃n : Node β⦄, g.node? x = some n → n.isEffect = true → n.isRunning = true →
    n.sources = [] ∧ n.freshness = .clean

theorem Continues.opening (hc : g.Continues evs h) (opening : g.Opening) : h.Opening := by
  intro x m hm heffect hrunning
  obtain ⟨n, hn, hp⟩ := hc.origin hm hrunning
  have hnrunning := hp.running.symm.trans hrunning
  obtain ⟨hsources, hclean⟩ := opening hn (hp.effect.symm.trans heffect) hnrunning
  exact ⟨List.subset_nil.1 (hsources ▸ hp.fewer hnrunning), hp.clean hnrunning hsources hclean⟩

/-- Edges are recorded at both ends, and every late effect is queued or at hand. -/
structure Tidy (hand : NodeId → Prop) (g : Graph β) : Prop where
  linked : g.Linked
  queued : ∀ {x : NodeId} {n : Node β}, g.node? x = some n → n.isEffect = true →
    n.freshness ≠ .clean → x ∈ g.pending ∨ hand x

theorem Tidy.mono {hand hand' : NodeId → Prop} (ht : g.Tidy hand) (more : ∀ x, hand x → hand' x) :
    g.Tidy hand' :=
  ⟨ht.linked, fun hn heffect hlate => (ht.queued hn heffect hlate).imp_right (more _)⟩

end Graph

/-! ## Single changes -/

/-- What only a run of the node changes is as it was. A first run stays clean. -/
structure Node.Steady (n m : Node β) : Prop where
  effect : m.isEffect = n.isEffect
  running : m.isRunning = n.isRunning
  signal : ∀ value, m.kind = .signal value → ∃ old, n.kind = .signal old
  sources : m.sources = n.sources
  clean : n.isRunning = true → n.sources = [] → n.freshness = .clean → m.freshness = .clean

/-- Another freshness is nothing to what only a run changes, if a first run stays clean. -/
theorem Node.Steady.of_eq {n m : Node β} (kind : m.kind = n.kind) (sources : m.sources = n.sources)
    (clean : n.isRunning = true → n.sources = [] → n.freshness = .clean → m.freshness = .clean) :
    n.Steady m :=
  ⟨by rw [Node.isEffect, Node.isEffect, kind], by rw [Node.isRunning, Node.isRunning, kind],
    fun value hm => ⟨value, kind.symm.trans hm⟩, sources, clean⟩

namespace Graph

variable {g h : Graph β} {evs : List Event}

theorem Continues.of_steady (spent : ∀ {x}, g.Spent x → h.Spent x)
    (live : ∀ x, (h.node? x).isSome = (g.node? x).isSome)
    (steady : ∀ {x n m}, g.node? x = some n → h.node? x = some m → n.Steady m)
    (runs : ∀ x sources, .began x sources ∉ evs)
    (shows : ∀ {s value}, .saw s value ∈ evs → ∃ m, h.node? s = some m ∧ m.kind = .signal value)
    (stored : ∀ {x n m value}, g.node? x = some n → h.node? x = some m → n.kind = .signal value →
      .wrote x ∉ evs → m.kind = n.kind)
    (heard : ∀ {x n m}, g.node? x = some n → h.node? x = some m → n.isEffect = true →
      m.freshness ≠ .dirty → .gaveUp ∉ evs →
        n.freshness ≠ .dirty ∧ ∀ s ∈ n.sources, .wrote s ∉ evs) : g.Continues evs h where
  spent := spent
  persists {x n} hn := by
    obtain ⟨m, hm⟩ := Option.isSome_iff_exists.1 ((live x).trans (by simp [hn]))
    have hs := steady hn hm
    exact .inl ⟨m, hm, hs.effect, hs.running, hs.signal, fun _ => hs.sources ▸ List.Subset.refl _,
      fun _ s hmem => .inl (hs.sources ▸ hmem), hs.clean⟩
  new {x m} hm hnone := by
    have hlive := live x
    simp [hm, hnone] at hlive
  still _ := runs _
  silent _ _ := runs _
  met hmem := by
    obtain ⟨m, hm, -⟩ := shows hmem
    exact .inl (by simp [hm])
  agrees hm hk hsaw := by
    obtain ⟨m', hm', hk'⟩ := shows hsaw.mem
    obtain rfl := Option.some.inj (hm.symm.trans hm')
    exact NodeKind.signal.inj (hk'.symm.trans hk)
  stored hn hm hk hquiet := (stored hn hm hk hquiet).trans hk
  heard {x m} hm heffect hdirty hgave := by
    obtain ⟨n, hn⟩ := Option.isSome_iff_exists.1 ((live x).symm.trans (by simp [hm]))
    have hs := steady hn hm
    have hneffect := hs.effect.symm.trans heffect
    obtain ⟨hhigher, hquiet⟩ := heard hn hm hneffect hdirty hgave
    exact .inr ⟨n, hn, hneffect, hhigher, runs x, fun s hmem => .inl (hs.sources ▸ hmem),
      fun s hmem => ⟨hs.sources ▸ hmem, hquiet s (hs.sources ▸ hmem)⟩⟩

theorem Continues.of_nodes (nodes : h.nodes = g.nodes) : g.Continues [] h := by
  have hnode (x : NodeId) : h.node? x = g.node? x := by simp only [node?, nodes]
  refine .of_steady (fun hx => ?_) (fun x => by rw [hnode]) (fun {x n m} hn hm => ?_)
    (fun _ _ => List.not_mem_nil) (by simp) (fun {x n m _} hn hm _ _ => ?_)
    fun {x n m} hn hm _ hdirty _ => ⟨?_, fun _ _ => List.not_mem_nil⟩
  · simpa only [Spent, nodes] using hx
  · obtain rfl := Option.some.inj (hn.symm.trans ((hnode x).symm.trans hm))
    exact .of_eq rfl rfl fun _ _ h => h
  · rw [Option.some.inj (hn.symm.trans ((hnode x).symm.trans hm))]
  · obtain rfl := Option.some.inj (hn.symm.trans ((hnode x).symm.trans hm))
    exact hdirty

theorem Continues.refl (g : Graph β) : g.Continues [] g := .of_nodes rfl

/-- Reading a signal changes no node. -/
theorem continues_saw {s : NodeId} {n : Node β} {value : Value} (found : g.node? s = some n)
    (kind : n.kind = .signal value) : g.Continues [.saw s value] g := by
  refine .of_steady id (fun _ => rfl) (fun {x n m} hn hm => ?_) (by simp) (fun hmem => ?_)
    (fun {x n m _} hn hm _ _ => ?_) fun {x n m} hn hm _ hdirty _ => ⟨?_, by simp⟩
  · obtain rfl := Option.some.inj (hn.symm.trans hm)
    exact .of_eq rfl rfl fun _ _ h => h
  · obtain ⟨rfl, rfl⟩ := Event.saw.inj (List.mem_singleton.1 hmem)
    exact ⟨n, found, kind⟩
  · rw [Option.some.inj (hn.symm.trans hm)]
  · obtain rfl := Option.some.inj (hn.symm.trans hm)
    exact hdirty

theorem Tidy.of_nodes {hand : NodeId → Prop} (ht : g.Tidy hand) (nodes : h.nodes = g.nodes)
    (pending : h.pending = g.pending) : h.Tidy hand := by
  have hnode (x : NodeId) : h.node? x = g.node? x := by simp only [node?, nodes]
  refine ⟨ht.linked.congr fun x => by rw [hnode], fun {x n} hn heffect hlate => ?_⟩
  rw [pending]
  exact ht.queued ((hnode x).symm.trans hn) heffect hlate

/-- A node that is not dirty is made clean. -/
theorem continues_cleaned {id : NodeId} (higher : g.freshness? id ≠ some .dirty) :
    g.Continues [] (g.setFreshness id .clean) := by
  have hnode := node?_setFreshness g id (f := .clean)
  have hcase {x : NodeId} {n m : Node β} (hn : g.node? x = some n)
      (hm : (g.setFreshness id .clean).node? x = some m) :
      x = id ∧ m = n.withFreshness .clean ∨ m = n := by
    rw [hnode, hn] at hm
    split at hm
    · exact .inl ⟨‹_›, (Option.some.inj hm).symm⟩
    · exact .inr (Option.some.inj hm).symm
  refine .of_steady (fun hx => hx.modifyNode _ _) (fun x => ?_) (fun {x n m} hn hm => ?_)
    (fun _ _ => List.not_mem_nil) nofun (fun hn hm _ _ => ?_)
    fun {x n m} hn hm _ hdirty _ => ⟨?_, fun _ _ => List.not_mem_nil⟩
  · rw [hnode]
    split <;> simp
  · rcases hcase hn hm with ⟨-, rfl⟩ | rfl
    · exact .of_eq rfl rfl fun _ _ _ => rfl
    · exact .of_eq rfl rfl fun _ _ h => h
  · rcases hcase hn hm with ⟨-, rfl⟩ | rfl <;> rfl
  · rcases hcase hn hm with ⟨rfl, -⟩ | rfl
    · simpa [freshness?, hn] using higher
    · exact hdirty

theorem Tidy.cleaned {hand : NodeId → Prop} {id : NodeId}
    (ht : g.Tidy fun x => hand x ∨ x = id) : (g.setFreshness id .clean).Tidy hand := by
  refine ⟨ht.linked.modifyNode id fun _ => rfl, fun {x m} hm heffect hlate => ?_⟩
  rw [node?_setFreshness] at hm
  split at hm
  · obtain ⟨n, -, rfl⟩ := Option.map_eq_some_iff.1 hm
    exact absurd rfl hlate
  next hx =>
    exact (ht.queued hm heffect hlate).imp_right fun h => h.resolve_right hx

/-! ### Dropping the queue -/

theorem continues_dropQueue (e : Engine σ) : e.graph.Continues [.gaveUp] e.dropQueue.graph := by
  have hnode := e.node?_dropQueue
  have hcase {x : NodeId} {n m : Node (Program σ)} (hn : e.graph.node? x = some n)
      (hm : e.dropQueue.graph.node? x = some m) : m = n.withFreshness .clean ∨ m = n := by
    rw [hnode, hn] at hm
    split at hm
    · exact .inl (Option.some.inj hm).symm
    · exact .inr (Option.some.inj hm).symm
  refine .of_steady (fun hx => hx.foldl_modifyNode _ _) (fun x => ?_) (fun {x n m} hn hm => ?_)
    (by simp) (by simp) (fun hn hm _ _ => ?_)
    fun _ _ _ _ hgave => absurd (List.mem_singleton.2 rfl) hgave
  · rw [hnode]
    split <;> simp
  · rcases hcase hn hm with rfl | rfl
    · exact .of_eq rfl rfl fun _ _ _ => rfl
    · exact .of_eq rfl rfl fun _ _ h => h
  · rcases hcase hn hm with rfl | rfl <;> rfl

theorem Tidy.dropQueue {hand : NodeId → Prop} {e : Engine σ} (ht : e.graph.Tidy hand) :
    e.dropQueue.graph.Tidy hand := by
  have hnode := e.node?_dropQueue
  refine ⟨ht.linked.congr fun x => ?_, fun {x m} hm heffect hlate => .inr ?_⟩
  · rw [hnode]
    split
    · cases e.graph.node? x <;> rfl
    · rfl
  · rw [hnode] at hm
    split at hm
    · obtain ⟨n, -, rfl⟩ := Option.map_eq_some_iff.1 hm
      exact absurd rfl hlate
    next hx => exact (ht.queued hm heffect hlate).resolve_left hx

/-! ### Writing -/

section Written

variable {g : Graph (Program σ)} {id : NodeId} {n : Node (Program σ)} {old : Value}

/-- A write makes the effects that have recorded the signal dirty. -/
theorem written_dirty (linked : g.Linked) (found : g.node? id = some n) (value : Value) {x : NodeId}
    {m : Node (Program σ)} (hx : g.node? x = some m) (mem : id ∈ m.sources)
    {m' : Node (Program σ)} (hm' : (g.written id value n.subscribers).node? x = some m') :
    m'.freshness = .dirty :=
  markAll_dirty ((linked.edge hx found).1 mem) hm'

/-- Marks only reach what has sources. -/
theorem not_carries_of_bare (linked : g.Linked) {x : NodeId} {m : Node (Program σ)}
    (hx : g.node? x = some m) (bare : m.sources = []) : ¬g.Carries id x := by
  have hfar {y : NodeId} {k : Node (Program σ)} (hy : g.node? y = some k) : x ∉ k.subscribers :=
    fun hmem => by simpa [bare] using (linked.edge hx hy).2 hmem
  rintro ⟨k, hk, hmarks⟩
  cases hmarks with
  | target mem => exact hfar hk mem
  | onward _ found mem => exact hfar found mem

theorem continues_written (linked : g.Linked) (found : g.node? id = some n) (kind : n.kind = .signal old)
    (value : Value) : g.Continues [.wrote id] (g.written id value n.subscribers) := by
  have hd := delayed_written g id value n.subscribers
  have hsteady {x : NodeId} {k m : Node (Program σ)} (hk : g.node? x = some k)
      (hm : (g.written id value n.subscribers).node? x = some m) :
      k.Steady m ∧ (m.freshness ≠ .dirty → k.freshness ≠ .dirty) := by
    by_cases hx : x = id
    · subst hx
      obtain rfl := Option.some.inj (found.symm.trans hk)
      have hdelayed := hd.each (revalued_self found value) hm
      refine ⟨⟨?_, ?_, fun _ _ => ⟨old, kind⟩, hdelayed.sources, fun hrunning => ?_⟩,
        fun h h' => h (hdelayed.dirty h')⟩
      · simp [Node.isEffect, hdelayed.kind, kind]
      · simp [Node.isRunning, hdelayed.kind, kind]
      · simp [Node.isRunning, kind] at hrunning
    · have hdelayed := hd.each ((revalued_other g value hx).trans hk) hm
      refine ⟨.of_eq hdelayed.kind hdelayed.sources fun _ hbare hclean => ?_,
        fun h h' => h (hdelayed.dirty h')⟩
      have hsame := (written_spared found value (not_carries_of_bare linked hk hbare)).1 hx
      rwa [← Option.some.inj (hk.symm.trans (hsame.symm.trans hm))]
  refine .of_steady (fun hx => (hx.modifyNode id _).markAll _) (fun x => ?_)
    (fun hk hm => (hsteady hk hm).1) (by simp) (by simp)
    (fun {x k m _} hk hm _ hquiet => (hd.each ((revalued_other g value ?_).trans hk) hm).kind)
    fun {x k m} hk hm _ hdirty _ => ⟨(hsteady hk hm).2 hdirty, fun s hs hmem => hdirty ?_⟩
  · rw [hd.live, revalued, node?_modifyNode]
    split <;> simp
  · rintro rfl
    simp at hquiet
  · obtain rfl := Event.wrote.inj (List.mem_singleton.1 hmem)
    exact written_dirty linked found value hk hs hm

theorem Tidy.written {hand : NodeId → Prop} (ht : g.Tidy hand) (found : g.node? id = some n)
    (value : Value) : (g.written id value n.subscribers).Tidy hand := by
  have hd := delayed_written g id value n.subscribers
  have hrevalued : (g.revalued id value).Linked := ht.linked.modifyNode id fun _ => rfl
  refine ⟨hd.linked hrevalued, fun {x m} hm heffect hlate => ?_⟩
  have hne : x ≠ id := by
    rintro rfl
    obtain ⟨m', hm', hk, -⟩ := written_self found value n.subscribers
    obtain rfl := Option.some.inj (hm.symm.trans hm')
    simp [Node.isEffect, hk] at heffect
  obtain ⟨k, hk, hdelayed⟩ := hd.origin hm
  have heffect' : k.isEffect = true := by rwa [Node.isEffect, ← hdelayed.kind]
  by_cases hclean : k.freshness = .clean
  · exact .inl (hd.queued hk hm heffect' hclean hlate)
  · exact (ht.queued ((revalued_other g value hne).symm.trans hk) heffect' hclean).imp_left (hd.pending x)

end Written

/-! ### Making and removing nodes -/

section Insert

variable {g : Graph (Program σ)} {kind : NodeKind (Program σ)} {freshness : Freshness}
  {owner : Option ScopeId}

theorem continues_insertNode (idle : ∀ n : Node (Program σ), n.kind = kind → n.isRunning = false)
    (late : (∃ body running, kind = .effect body running) → freshness = .dirty) :
    g.Continues [] (g.insertNode kind freshness owner).2 where
  spent hx := hx.insertNode kind freshness owner
  persists hn := .inl ⟨_, (insertNode_live hn).2, rfl, rfl, fun value hk => ⟨value, hk⟩,
    fun _ => List.Subset.refl _, fun _ _ hs => .inl hs, fun _ _ h => h⟩
  new hm hnone := by
    rcases insertNode_origin hm with ⟨-, rfl⟩ | hm
    · exact idle _ rfl
    · simp [hnone] at hm
  still _ _ := List.not_mem_nil
  silent _ _ _ := List.not_mem_nil
  met := nofun
  agrees _ _ := False.elim
  stored hn hm hk _ := by
    obtain rfl := Option.some.inj ((insertNode_live hn).2.symm.trans hm)
    exact hk
  heard {x m} hm heffect hdirty _ := by
    rcases insertNode_origin hm with ⟨-, rfl⟩ | hm
    · exact absurd rfl (late (Node.kind_of_isEffect heffect) ▸ hdirty)
    · exact .inr ⟨m, hm, heffect, hdirty, fun _ => List.not_mem_nil, fun _ hs => .inl hs,
        fun _ hs => ⟨hs, List.not_mem_nil⟩⟩

theorem Tidy.insertNode {hand : NodeId → Prop} (ht : g.Tidy hand)
    (queued : (∃ body running, kind = .effect body running) →
      hand (g.insertNode kind freshness owner).1) : (g.insertNode kind freshness owner).2.Tidy hand := by
  refine ⟨ht.linked.insertNode _ _ _, fun {x m} hm heffect hlate => ?_⟩
  rcases insertNode_origin hm with ⟨rfl, rfl⟩ | hm
  · exact .inr (queued (Node.kind_of_isEffect heffect))
  · exact ht.queued hm heffect hlate

end Insert

section Remove

variable {g : Graph β} {id : NodeId}

/-- A source stays, or is the node that was removed. -/
theorem kept_removeNode (linked : g.Linked) {x : NodeId} {n m : Node β} (hn : g.node? x = some n)
    (sources : m.sources = n.sources.filter (· ≠ id)) {s : NodeId} (hs : s ∈ n.sources) :
    s ∈ m.sources ∨ (g.removeNode id).Spent s := by
  by_cases hsid : s = id
  · subst hsid
    obtain ⟨k, hk⟩ := Option.isSome_iff_exists.1 (linked.source_live hn hs)
    exact .inr (spent_removeNode hk)
  · exact .inl (sources ▸ List.mem_filter.2 ⟨hs, decide_eq_true hsid⟩)

theorem continues_removeNode (linked : g.Linked) (id : NodeId) :
    g.Continues [] (g.removeNode id) where
  spent hx := hx.removeNode id
  persists {x n} hn := by
    by_cases hx : x = id
    · subst hx
      exact .inr (spent_removeNode hn)
    · obtain ⟨m, hm⟩ : ∃ m, (g.removeNode id).node? x = some m := by
        rw [node?_removeNode, if_neg hx, hn]
        exact ⟨_, rfl⟩
      obtain ⟨-, n', hn', hkind, hfresh, hsources, -⟩ := removeNode_of_ne linked hm
      obtain rfl := Option.some.inj (hn.symm.trans hn')
      exact .inl ⟨m, hm, by simp [Node.isEffect, hkind], by simp [Node.isRunning, hkind],
        fun value hk => ⟨value, hkind.symm.trans hk⟩, fun _ s hs => (List.mem_filter.1 (hsources ▸ hs)).1,
        fun _ s hs => kept_removeNode linked hn hsources hs, fun _ _ hclean => hfresh.trans hclean⟩
  new hm hnone := by
    obtain ⟨-, n, hn, -⟩ := removeNode_of_ne linked hm
    simp [hnone] at hn
  still _ _ := List.not_mem_nil
  silent _ _ _ := List.not_mem_nil
  met := nofun
  agrees _ _ := False.elim
  stored hn hm hk _ := by
    obtain ⟨-, n, hn', hkind, -⟩ := removeNode_of_ne linked hm
    obtain rfl := Option.some.inj (hn.symm.trans hn')
    exact hkind.trans hk
  heard {x m} hm heffect hdirty _ := by
    obtain ⟨-, n, hn, hkind, hfresh, hsources, -⟩ := removeNode_of_ne linked hm
    exact .inr ⟨n, hn, by rwa [Node.isEffect, ← hkind], hfresh ▸ hdirty, fun _ => List.not_mem_nil,
      fun s hs => kept_removeNode linked hn hsources hs,
      fun s hs => ⟨(List.mem_filter.1 (hsources ▸ hs)).1, List.not_mem_nil⟩⟩

theorem Tidy.removeNode {hand : NodeId → Prop} (ht : g.Tidy hand) (id : NodeId) :
    (g.removeNode id).Tidy hand := by
  refine ⟨ht.linked.removeNode id, fun {x m} hm heffect hlate => ?_⟩
  obtain ⟨hx, n, hn, hkind, hfresh, -⟩ := removeNode_of_ne ht.linked hm
  refine (ht.queued hn (by rwa [Node.isEffect, ← hkind]) (hfresh ▸ hlate)).imp_left fun h => ?_
  rw [pending_removeNode]
  split
  · simpa using ⟨h, hx⟩
  · exact h

/-- Removing scopes and nodes goes node by node. -/
theorem remove_keeps (work : List Doomed) {hand : NodeId → Prop} (ht : g.Tidy hand) :
    g.Continues [] (g.remove work) ∧ (g.remove work).Tidy hand ∧
      (g.remove work).pending ⊆ g.pending := by
  refine remove_induct (motive := fun h => g.Continues [] h ∧ h.Tidy hand ∧ h.pending ⊆ g.pending)
    g work ⟨.refl g, ht, List.Subset.refl _⟩ (fun {h} id ih => ?_) fun {h id record} _ ih => ?_
  · obtain ⟨hc, ht', hpending⟩ := ih
    refine ⟨hc.trans (continues_removeNode ht'.linked id), ht'.removeNode id,
      List.Subset.trans ?_ hpending⟩
    rw [pending_removeNode]
    split
    · exact List.filter_sublist.subset
    · exact List.Subset.refl _
  · obtain ⟨hc, ht', hsub⟩ := ih
    have hnodes := nodes_detachScope h id record
    have hpending := pending_detachScope h id record
    exact ⟨hc.trans (Continues.of_nodes hnodes), ht'.of_nodes hnodes hpending, hpending ▸ hsub⟩

end Remove

/-! ### Runs -/

/-- The run of a node ends, and nothing else does. What it read it has recorded. -/
structure Closes (id : NodeId) (reads : List NodeId) (g h : Graph (Program σ)) : Prop where
  spent : ∀ {x : NodeId}, g.Spent x → h.Spent x
  live : ∀ x, (h.node? x).isSome = (g.node? x).isSome
  self : ∀ {n m : Node (Program σ)}, g.node? id = some n → h.node? id = some m →
    m.isEffect = n.isEffect ∧ m.isRunning = false ∧ (n.isEffect = true → m.freshness = n.freshness)
  body : ∀ {m : Node (Program σ)}, h.node? id = some m → ∀ value, m.kind ≠ .signal value
  records : ∀ {m : Node (Program σ)}, h.node? id = some m → ∀ s ∈ reads,
    (g.node? s).isSome = true → s ∈ m.sources
  other : ∀ {x : NodeId} {n m : Node (Program σ)}, x ≠ id → g.node? x = some n →
    h.node? x = some m → n.Kept m
  linked : g.Linked → h.Linked
  pending : h.pending = g.pending

section Run

variable {g h k : Graph (Program σ)} {id : NodeId} {n : Node (Program σ)} {evs : List Event}

/-- What is gone does not come to an end. -/
theorem Closes.of_gone (gone : g.node? id = none) (reads : List NodeId) : g.Closes id reads g where
  spent hx := hx
  live _ := rfl
  self hn := by simp [gone] at hn
  body hm := by simp [gone] at hm
  records hm := by simp [gone] at hm
  other _ hn hm := by
    obtain rfl := Option.some.inj (hn.symm.trans hm)
    exact .refl _
  linked hg := hg
  pending := rfl

theorem closes_finished (linked : g.Linked)
    (computed : ∀ n, g.node? id = some n → ∃ body running last, n.kind = .computed body running last)
    (reads : List NodeId) (outcome : Outcome) : g.Closes id reads (g.finished id reads outcome) := by
  cases hn : g.node? id with
  | none =>
    have hsame : g.finished id reads outcome = g := by simp [finished, relink, stored, hn]
    rw [hsame]
    exact .of_gone hn reads
  | some n =>
    obtain ⟨body, running, last, hk⟩ := computed n hn
    have hrelink := (node?_relink hn reads id).trans (by rw [hn, Option.map_some])
    have hfinished := node?_stored hrelink hk outcome id
    rw [hrelink, Option.map_some] at hfinished
    refine
      { spent := fun hx => (hx.relink id reads).stored id outcome
        live := isSome_finished hn hk reads outcome
        self := fun {n' m} hn' hm => ?_
        body := fun {m} hm => ?_
        records := fun {m} hm s hs hlive => ?_
        other := fun hx hm hm' => ?_
        linked := fun hg => linked_finished hg hn hk reads outcome
        pending := pending_finished g id reads outcome }
    · obtain rfl := Option.some.inj (hn.symm.trans hn')
      obtain rfl := Option.some.inj (hfinished.symm.trans hm)
      simp [Node.isEffect, Node.isRunning, hk]
    · obtain rfl := Option.some.inj (hfinished.symm.trans hm)
      simp
    · obtain rfl := Option.some.inj (hfinished.symm.trans hm)
      simp [hs, hlive, relinked]
    · obtain ⟨m, hm'', hkept, -⟩ := finished_other linked hn hk reads outcome hx hm
      rwa [Option.some.inj (hm'.symm.trans hm'')]

theorem closes_effectFinished
    (effect : ∀ n, g.node? id = some n → n.isEffect = true) (reads : List NodeId) :
    g.Closes id reads (g.effectFinished id reads) := by
  cases hn : g.node? id with
  | none =>
    have hnode (x : NodeId) : (g.effectFinished id reads).node? x = g.node? x := by
      simp only [effectFinished, relink, hn, node?_modifyNode]
      split
      next hx => rw [hx, hn, Option.map_none]
      next => rfl
    exact
      { spent := fun hx => (hx.relink id reads).modifyNode id _
        live := fun x => by rw [hnode]
        self := fun hn' => by simp [hn] at hn'
        body := fun hm => by simp [hnode, hn] at hm
        records := fun hm => by simp [hnode, hn] at hm
        other := fun _ hm hm' => by
          obtain rfl := Option.some.inj (hm.symm.trans ((hnode _).symm.trans hm'))
          exact .refl _
        linked := fun hg => hg.congr fun x => by rw [hnode]
        pending := pending_effectFinished g id reads }
  | some n =>
    obtain ⟨body, running, hk⟩ := Node.kind_of_isEffect (effect n hn)
    have hself := node?_relink hn reads id
    rw [hn, Option.map_some] at hself
    have hrested : (g.effectFinished id reads).node? id = some { relinked id n.sources reads
        (reads.filter fun s => (g.node? s).isSome) id n with kind := .effect body false } := by
      rw [effectFinished, node?_modifyNode_self, hself, Option.map_some]
      simp [relinked, hk]
    exact
      { spent := fun hx => (hx.relink id reads).modifyNode id _
        live := isSome_effectFinished hn reads
        self := fun {n' m} hn' hm => by
          obtain rfl := Option.some.inj (hn.symm.trans hn')
          obtain rfl := Option.some.inj (hrested.symm.trans hm)
          simp [relinked, Node.isEffect, Node.isRunning, hk]
        body := fun hm => by
          obtain rfl := Option.some.inj (hrested.symm.trans hm)
          simp
        records := fun hm s hs hlive => by
          obtain rfl := Option.some.inj (hrested.symm.trans hm)
          simp [relinked, hs, hlive]
        other := fun hx hm hm' => by
          obtain ⟨m, hm'', hkind, hfresh, hsources⟩ := effectFinished_other hn reads hx hm
          rw [Option.some.inj (hm'.symm.trans hm'')]
          exact ⟨hkind, hsources, .inl hfresh⟩
        linked := fun hg => by
          refine (hg.relink hn reads).modifyNode id fun m => ?_
          split <;> rfl
        pending := pending_effectFinished g id reads }

theorem Tidy.begun {hand : NodeId → Prop} (ht : g.Tidy fun x => hand x ∨ x = id)
    (kind : NodeKind (Program σ)) : (g.begun id kind).Tidy hand := by
  refine ⟨ht.linked.modifyNode id fun _ => rfl, fun {x m} hm heffect hlate => ?_⟩
  by_cases hx : x = id
  · subst hx
    rw [Graph.begun, node?_modifyNode_self] at hm
    obtain ⟨n, -, rfl⟩ := Option.map_eq_some_iff.1 hm
    exact absurd rfl hlate
  · rw [begun_other hx] at hm
    exact (ht.queued hm heffect hlate).imp_right fun h => h.resolve_right hx

theorem Tidy.closed {hand : NodeId → Prop} {reads : List NodeId} (ht : h.Tidy hand)
    (closes : h.Closes id reads k) : k.Tidy hand := by
  refine ⟨closes.linked ht.linked, fun {x l} hl heffect hlate => ?_⟩
  obtain ⟨m, hm⟩ := Option.isSome_iff_exists.1 ((closes.live x).symm.trans (by simp [hl]))
  rw [closes.pending]
  by_cases hx : x = id
  · subst hx
    obtain ⟨heffect', -, hfresh⟩ := closes.self hm hl
    have hmeffect := heffect'.symm.trans heffect
    exact ht.queued hm hmeffect (hfresh hmeffect ▸ hlate)
  · have hkept := closes.other hx hm hl
    exact ht.queued hm (by rwa [Node.isEffect, ← hkept.kind]) fun hc => hlate (hkept.clean_iff.2 hc)

theorem Closes.find {reads : List NodeId} (closes : h.Closes id reads k) {x : NodeId}
    {l : Node (Program σ)} (hl : k.node? x = some l) : ∃ m, h.node? x = some m :=
  Option.isSome_iff_exists.1 ((closes.live x).symm.trans (by simp [hl]))

section Other

variable {reads : List NodeId} {x : NodeId} {m l : Node (Program σ)}

/-- Another node persists. -/
theorem Closes.persists (closes : h.Closes id reads k) (other : x ≠ id) (hm : h.node? x = some m)
    (hl : k.node? x = some l) : k.Persists m l := by
  have hkept := closes.other other hm hl
  exact ⟨by simp [Node.isEffect, hkept.kind], by simp [Node.isRunning, hkept.kind],
    fun value hk => ⟨value, hkept.kind.symm.trans hk⟩, fun _ => hkept.sources ▸ List.Subset.refl _,
    fun _ s hs => .inl (hkept.sources ▸ hs), fun _ _ hclean => hkept.clean_iff.2 hclean⟩

/-- Another effect stays as it is. -/
theorem Closes.unmoved (closes : h.Closes id reads k) (other : x ≠ id) (hm : h.node? x = some m)
    (hl : k.node? x = some l) (effect : l.isEffect = true) (higher : l.freshness ≠ .dirty) :
    k.Unmoved x m l [.ended id reads] := by
  have hkept := closes.other other hm hl
  refine ⟨by rwa [Node.isEffect, ← hkept.kind], fun hdirty => higher ?_, by simp,
    fun s hs => .inl (hkept.sources ▸ hs), fun s hs => ⟨hkept.sources ▸ hs, by simp⟩⟩
  rcases hkept.freshness with hsame | ⟨hstale, -⟩
  · exact hsame.trans hdirty
  · simp [hdirty] at hstale

end Other

section Whole

variable {kind : NodeKind (Program σ)} {reads : List NodeId}

/-- An effect that is not dirty after its run has heard of all that it had recorded before. -/
theorem run_heard (found : g.node? id = some n)
    (starts : ∀ m : Node (Program σ), m.kind = kind → m.isEffect = n.isEffect ∧ m.isRunning = true)
    (hc : (g.begun id kind).Continues evs h) (linked : h.Linked) (known : ∀ s ∈ reads, h.Met s)
    (closes : h.Closes id reads k) {l : Node (Program σ)} (hl : k.node? id = some l)
    (effect : l.isEffect = true) (higher : l.freshness ≠ .dirty) (settled : .gaveUp ∉ evs) :
    k.Heard id l (.began id n.sources :: (evs ++ [.ended id reads])) := by
  have hself := begun_self found kind
  obtain ⟨m, hm⟩ := closes.find hl
  obtain ⟨heffect, -, hfresh⟩ := closes.self hm hl
  have hmeffect := heffect.symm.trans effect
  have hsilent := hc.silent hself (starts _ rfl).2
  -- it did not run within its run, so it had not moved
  obtain ⟨n', hn', hu⟩ := (hc.heard hm hmeffect (hfresh hmeffect ▸ higher) settled).resolve_left
    fun ⟨sources, _, _, _, run, _⟩ => hsilent sources run.began_mem
  obtain rfl := Option.some.inj (hself.symm.trans hn')
  refine ⟨n.sources, evs, reads, [], ⟨⟨[], rfl⟩, hsilent, fun _ => List.not_mem_nil⟩,
    fun s hs => (known s hs).imp (closes.records hl s hs) closes.spent,
    fun s hs => ⟨List.not_mem_nil, fun hmem => ?_⟩⟩
  have hmem' : s ∈ m.sources := (hu.kept s hmem).resolve_right fun hspent => by
    simpa [(closes.spent hspent).node?] using (closes.linked linked).source_live hl hs
  exact (hu.quiet s hmem').2

theorem run_persists (found : g.node? id = some n) (idle : n.isRunning = false)
    (starts : ∀ m : Node (Program σ), m.kind = kind → m.isEffect = n.isEffect ∧ m.isRunning = true)
    (hc : (g.begun id kind).Continues evs h) (closes : h.Closes id reads k) {x : NodeId}
    {n' : Node (Program σ)} (hn' : g.node? x = some n') :
    (∃ l, k.node? x = some l ∧ k.Persists n' l) ∨ k.Spent x := by
  obtain ⟨n₀, hn₀, hsame⟩ : ∃ n₀, (g.begun id kind).node? x = some n₀ ∧ (x ≠ id → n₀ = n') := by
    by_cases hx : x = id
    · subst hx
      exact ⟨_, begun_self hn' kind, fun h => absurd rfl h⟩
    · exact ⟨n', (begun_other hx).trans hn', fun _ => rfl⟩
  rcases hc.persists hn₀ with ⟨m, hm, hp⟩ | hspent
  · obtain ⟨l, hl⟩ := Option.isSome_iff_exists.1 ((closes.live x).trans (by simp [hm]))
    refine .inl ⟨l, hl, ?_⟩
    by_cases hx : x = id
    · subst hx
      obtain rfl := Option.some.inj (found.symm.trans hn')
      obtain ⟨heffect, hrunning, -⟩ := closes.self hm hl
      obtain rfl := Option.some.inj (hn₀.symm.trans (begun_self found kind))
      exact
        { effect := heffect.trans (hp.effect.trans (starts _ rfl).1)
          running := hrunning.trans idle.symm
          signal := fun value hk => absurd hk (closes.body hl value)
          fewer := fun h => by simp [idle] at h
          dropped := fun h => by simp [idle] at h
          clean := fun h => by simp [idle] at h }
    · obtain rfl := hsame hx
      exact hp.trans (closes.persists hx hm hl) closes.spent
  · exact .inr (closes.spent hspent)

/-- A whole run, from what goes on during it. -/
theorem continues_run (found : g.node? id = some n) (idle : n.isRunning = false)
    (body : ∀ value, n.kind ≠ .signal value)
    (starts : ∀ m : Node (Program σ), m.kind = kind → m.isEffect = n.isEffect ∧ m.isRunning = true)
    (hc : (g.begun id kind).Continues evs h) (linked : h.Linked)
    (known : ∀ s ∈ reads, h.Met s) (closes : h.Closes id reads k) :
    g.Continues (.began id n.sources :: (evs ++ [.ended id reads])) k where
  spent hx := closes.spent (hc.spent (hx.modifyNode _ _))
  persists hn' := run_persists found idle starts hc closes hn'
  new {x l} hl hnone := by
    have hx : x ≠ id := by
      rintro rfl
      simp [found] at hnone
    obtain ⟨m, hm⟩ := closes.find hl
    rw [Node.isRunning, (closes.other hx hm hl).kind]
    exact hc.new hm ((begun_other hx).trans hnone)
  still {x} hx sources := by
    have hx' : x ≠ id := by
      rintro rfl
      simp [hx.node?] at found
    simpa [hx'] using hc.still (hx.modifyNode _ _) sources
  silent {x n'} hn' hrunning sources := by
    have hx : x ≠ id := by
      rintro rfl
      obtain rfl := Option.some.inj (found.symm.trans hn')
      simp [idle] at hrunning
    simpa [hx] using hc.silent ((begun_other hx).trans hn') hrunning sources
  met {s value} hmem := by
    have hmem : .saw s value ∈ evs := by simpa using hmem
    exact (hc.met hmem).imp (fun hlive => (closes.live s).trans hlive) closes.spent
  agrees {s l seen value} hl hk hsaw := by
    have hsaw : Saw s seen evs := by
      rcases hsaw with ⟨h, -⟩ | hsaw
      · cases h
      · exact (saw_append.1 hsaw).elim And.left (by simp [Saw])
    obtain ⟨m, hm⟩ := closes.find hl
    have hx : s ≠ id := by
      rintro rfl
      exact closes.body hl value hk
    exact hc.agrees hm ((closes.other hx hm hl).kind.symm.trans hk) hsaw
  stored {s n' l value} hn' hl hk hquiet := by
    have hx : s ≠ id := by
      rintro rfl
      obtain rfl := Option.some.inj (found.symm.trans hn')
      exact body value hk
    obtain ⟨m, hm⟩ := closes.find hl
    rw [(closes.other hx hm hl).kind]
    exact hc.stored ((begun_other hx).trans hn') hm hk fun h => hquiet (by simp [h])
  heard {x l} hl heffect hdirty hgave := by
    have hsettled : .gaveUp ∉ evs := fun h => hgave (by simp [h])
    by_cases hx : x = id
    · subst hx
      exact .inl (run_heard found starts hc linked known closes hl heffect hdirty hsettled)
    · obtain ⟨m, hm⟩ := closes.find hl
      have hend := closes.unmoved hx hm hl heffect hdirty
      rcases hc.heard hm hend.effect hend.higher hsettled with hh | ⟨n', hn', hu⟩
      · exact .inl ((hh.append hend closes.spent).prepend [_])
      · have hbegin : (g.begun id kind).Unmoved x n' n' [.began id n.sources] := ⟨hu.effect, hu.higher,
          by simp [hx], fun s hs => .inl hs, fun s hs => ⟨hs, by simp⟩⟩
        exact .inr ⟨n', (begun_other hx).symm.trans hn',
          hbegin.trans (hu.trans hend closes.spent) fun hs => closes.spent (hc.spent hs)⟩

end Whole

end Run

end Graph

end LiveTemplate.Reactive
