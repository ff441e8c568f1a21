import LiveTemplate.Proofs.Reactive.Continuity

/-!
# Well-formed graphs

What the parts of a graph say about each other (`Graph.WellFormed`): edges are recorded at both ends
and lead between live nodes, signals have no sources and effects no subscribers, the queue holds
effects, and the scopes form a forest whose members list exactly what they own and what is below them.

Each operation keeps a graph well-formed. An operation also leaves what it finds in its place, or ends
it for good (`Graph.Lasts`): a node does not turn into one of another sort.
-/
namespace LiveTemplate.Reactive

variable {β σ : Type}

inductive NodeSort where
  | signal
  | computed
  | effect
  deriving DecidableEq

def NodeKind.sort : NodeKind β → NodeSort
  | .signal _ => .signal
  | .computed _ _ _ => .computed
  | .effect _ _ => .effect

namespace Node

def sort (n : Node β) : NodeSort := n.kind.sort

/-- What a node is to the rest of the graph. -/
def shape (n : Node β) : NodeSort × (List NodeId × List NodeId) × Option ScopeId :=
  (n.sort, Graph.ends n, n.owner)

theorem sort_eq_effect {n : Node β} :
    n.sort = .effect ↔ ∃ body running, n.kind = .effect body running := by
  unfold sort NodeKind.sort
  split <;> simp_all

theorem isEffect_iff {n : Node β} : n.isEffect = true ↔ n.sort = .effect := by
  refine ⟨fun h => sort_eq_effect.2 (kind_of_isEffect h), fun h => ?_⟩
  obtain ⟨body, running, hkind⟩ := sort_eq_effect.1 h
  simp [isEffect, hkind]

theorem sort_eq_signal {n : Node β} : n.sort = .signal ↔ ∃ value, n.kind = .signal value := by
  unfold sort NodeKind.sort
  split <;> simp_all

theorem sort_eq_computed {n : Node β} :
    n.sort = .computed ↔ ∃ body running last, n.kind = .computed body running last := by
  unfold sort NodeKind.sort
  split <;> simp_all

end Node

namespace Graph

def Owns (g : Graph β) (s : ScopeId) (x : NodeId) : Prop :=
  ∃ n, g.node? x = some n ∧ n.owner = some s

/-- The first scope is the parent of the second. -/
def Above (g : Graph β) (s t : ScopeId) : Prop :=
  ∃ r, g.scope? t = some r ∧ r.parent = some s

/-- Live scopes list exactly what they own and what is right below them. -/
structure Listed (g : Graph β) : Prop where
  nodes : ∀ {s : ScopeId} {r : ScopeRecord}, g.scope? s = some r →
    r.nodes.Nodup ∧ ∀ x, x ∈ r.nodes ↔ g.Owns s x
  children : ∀ {s : ScopeId} {r : ScopeRecord}, g.scope? s = some r →
    r.children.Nodup ∧ ∀ t, t ∈ r.children ↔ g.Above s t

structure WellFormed (g : Graph β) : Prop where
  linked : g.Linked
  signals : ∀ {x : NodeId} {n : Node β}, g.node? x = some n → n.sort = .signal → n.sources = []
  effects : ∀ {x : NodeId} {n : Node β}, g.node? x = some n → n.sort = .effect → n.subscribers = []
  queued : ∀ x ∈ g.pending, ∃ n, g.node? x = some n ∧ n.sort = .effect
  listed : g.Listed
  owner_live : ∀ {s : ScopeId} {x : NodeId}, g.Owns s x → (g.scope? s).isSome
  parent_live : ∀ {s t : ScopeId}, g.Above s t → (g.scope? s).isSome
  /-- The way up from a scope ends. -/
  forest : WellFounded g.Above

theorem wellFormed_empty : (empty : Graph β).WellFormed where
  linked := linked_empty
  signals := nofun
  effects := nofun
  queued := nofun
  listed := ⟨nofun, nofun⟩
  owner_live := nofun
  parent_live := nofun
  forest := ⟨fun _ => ⟨_, nofun⟩⟩

/-! ## Scopes -/

theorem scope?_modifyScope (g : Graph β) (s t : ScopeId) (f : ScopeRecord → ScopeRecord) :
    (g.modifyScope s f).scope? t = if t = s then (g.scope? t).map f else g.scope? t :=
  Arena.get?_modify _ _ _ _

theorem scope?_insertScope (g : Graph β) (t : ScopeId) :
    g.insertScope.2.scope? t = if t = g.insertScope.1 then some ⟨none, [], []⟩ else g.scope? t :=
  Arena.get?_insert _ _ _

theorem scope?_insertScope_fresh (g : Graph β) : g.scope? g.insertScope.1 = none :=
  Arena.get?_insert_fresh _ _

theorem scope?_congr {g h : Graph β} (scopes : h.scopes = g.scopes) (t : ScopeId) :
    h.scope? t = g.scope? t := by
  rw [scope?, scopes, scope?]

/-- A scope that owns a new node has it at the end of its list. -/
theorem scope?_insertOwned {g h : Graph β} {kind : NodeKind β} {owner : ScopeId} {id : NodeId}
    (inserted : g.insertOwned kind owner = some (id, h)) :
    (g.scope? owner).isSome = true ∧ ∀ t, h.scope? t =
      if t = owner then (g.scope? t).map fun r => { r with nodes := r.nodes ++ [id] }
      else g.scope? t := by
  unfold insertOwned at inserted
  split at inserted
  next hlive =>
    cases inserted
    exact ⟨hlive, fun t => scope?_modifyScope _ _ _ _⟩
  · cases inserted

/-- A scope above a new one has it at the end of its list. -/
theorem scope?_insertChildScope {g h : Graph β} {parent id : ScopeId}
    (inserted : g.insertChildScope parent = some (id, h)) :
    (g.scope? parent).isSome = true ∧ g.scope? id = none ∧ ∀ t, h.scope? t =
      if t = parent then (g.scope? t).map fun r => { r with children := r.children ++ [id] }
      else if t = id then some ⟨some parent, [], []⟩ else g.scope? t := by
  unfold insertChildScope at inserted
  split at inserted
  next hlive =>
    cases inserted
    have hfresh := Arena.get?_insert_fresh g.scopes (⟨some parent, [], []⟩ : ScopeRecord)
    refine ⟨hlive, hfresh, fun t => (scope?_modifyScope _ _ _ _).trans ?_⟩
    have hinsert := Arena.get?_insert g.scopes (⟨some parent, [], []⟩ : ScopeRecord) t
    split
    next ht =>
      subst ht
      refine congrArg _ (hinsert.trans (if_neg ?_))
      intro heq
      rw [heq] at hlive
      simp [Arena.contains, hfresh] at hlive
    next => exact hinsert
  · cases inserted

/-! ## Changes of kinds and freshness -/

/-- The nodes have changed in kind and freshness at most. -/
structure Alters (g h : Graph β) : Prop where
  scopes : h.scopes = g.scopes
  shape : ∀ x, (h.node? x).map Node.shape = (g.node? x).map Node.shape
  spent : ∀ {x : NodeId}, g.Spent x → h.Spent x

variable {g h k : Graph β}

theorem Alters.refl (g : Graph β) : g.Alters g := ⟨rfl, fun _ => rfl, id⟩

theorem Alters.trans (ha : g.Alters h) (ha' : h.Alters k) : g.Alters k :=
  ⟨ha'.scopes.trans ha.scopes, fun x => (ha'.shape x).trans (ha.shape x), ha'.spent ∘ ha.spent⟩

theorem Alters.origin (ha : g.Alters h) {x : NodeId} {m : Node β} (hm : h.node? x = some m) :
    ∃ n, g.node? x = some n ∧ m.shape = n.shape := by
  have hshape := ha.shape x
  rw [hm, Option.map_some, eq_comm, Option.map_eq_some_iff] at hshape
  obtain ⟨n, hn, heq⟩ := hshape
  exact ⟨n, hn, heq.symm⟩

theorem Alters.find (ha : g.Alters h) {x : NodeId} {n : Node β} (hn : g.node? x = some n) :
    ∃ m, h.node? x = some m ∧ m.shape = n.shape := by
  have hshape := ha.shape x
  rwa [hn, Option.map_some, Option.map_eq_some_iff] at hshape

theorem alters_modifyNode (id : NodeId) {f : Node β → Node β}
    (keeps : ∀ n, g.node? id = some n → (f n).shape = n.shape) : g.Alters (g.modifyNode id f) where
  scopes := rfl
  shape x := by
    rw [node?_modifyNode]
    split
    next hx =>
      subst hx
      cases hn : g.node? x with
      | none => rfl
      | some n => exact congrArg some (keeps n hn)
    next => rfl
  spent hx := hx.modifyNode id f

theorem alters_foldl_modifyNode (g : Graph β) (ids : List NodeId) {f : Node β → Node β}
    (keeps : ∀ n, (f n).shape = n.shape) :
    g.Alters (ids.foldl (fun g id => g.modifyNode id f) g) := by
  induction ids generalizing g with
  | nil => exact .refl g
  | cons id ids ih => exact (alters_modifyNode id fun n _ => keeps n).trans (ih _)

theorem alters_setFreshness (g : Graph β) (id : NodeId) (f : Freshness) :
    g.Alters (g.setFreshness id f) :=
  alters_modifyNode id fun _ _ => rfl

theorem alters_requeued (g : Graph β) (pending : List NodeId) :
    g.Alters { g with pending := pending } := ⟨rfl, fun _ => rfl, id⟩

theorem alters_delay (g : Graph β) (id : NodeId) (f : Freshness) (effect : Bool) :
    g.Alters (g.delay id f effect) := by
  unfold delay
  split
  · exact (alters_setFreshness g id f).trans (alters_requeued _ _)
  · exact alters_setFreshness g id f

theorem alters_markStale (g : Graph β) (work : List NodeId) : g.Alters (g.markStale work) := by
  induction g, work using markStale_induction with
  | nil g =>
    rw [markStale]
    exact .refl g
  | mark g id n work found clean ih =>
    rw [markStale_cons_clean found clean]
    exact (alters_delay _ _ _ _).trans ih
  | skip g id work skip ih =>
    rw [markStale_cons_skip skip]
    exact ih

theorem alters_markDirty (g : Graph β) (id : NodeId) : g.Alters (g.markDirty id) := by
  unfold markDirty
  split
  · exact .refl g
  next n hn =>
    split
    · exact .refl g
    · have hdelay := alters_delay g id .dirty n.isEffect
      unfold delay at hdelay
      dsimp only
      split
      next heffect => rwa [if_pos heffect] at hdelay
      next heffect =>
        rw [if_neg heffect] at hdelay
        exact hdelay.trans (alters_markStale _ _)

theorem alters_markAll (g : Graph β) (ids : List NodeId) :
    g.Alters (ids.foldl markDirty g) := by
  induction ids generalizing g with
  | nil => exact .refl g
  | cons id ids ih => exact (alters_markDirty g id).trans (ih _)

theorem alters_revalued {g : Graph (Program σ)} {id : NodeId} {n : Node (Program σ)}
    (found : g.node? id = some n) (signal : n.sort = .signal) (value : Value) :
    g.Alters (g.revalued id value) := by
  refine alters_modifyNode id fun m hm => ?_
  obtain rfl := Option.some.inj (found.symm.trans hm)
  exact congrArg (·, _) signal.symm

theorem alters_written {g : Graph (Program σ)} {id : NodeId} {n : Node (Program σ)}
    (found : g.node? id = some n) (signal : n.sort = .signal) (value : Value)
    (subscribers : List NodeId) : g.Alters (g.written id value subscribers) :=
  (alters_revalued found signal value).trans (alters_markAll _ _)

theorem alters_begun {id : NodeId} {n : Node β} (found : g.node? id = some n) {kind : NodeKind β}
    (sort : kind.sort = n.sort) : g.Alters (g.begun id kind) := by
  refine alters_modifyNode id fun m hm => ?_
  obtain rfl := Option.some.inj (found.symm.trans hm)
  exact congrArg (·, _) sort

theorem shape_wake (n : Node β) : n.wake.shape = n.shape := by
  unfold Node.wake
  split <;> rfl

theorem alters_stored (g : Graph β) (id : NodeId) (outcome : Outcome) :
    g.Alters (g.stored id outcome) := by
  unfold stored
  split
  next body _ _ _ _ _ _ hn =>
    have hkeeps := alters_modifyNode (g := g) id
      (f := fun n => { n with kind := .computed body false (some outcome) }) fun m hm => by
        obtain rfl := Option.some.inj (hn.symm.trans hm)
        rfl
    dsimp only
    split
    · exact hkeeps.trans (alters_foldl_modifyNode _ _ shape_wake)
    · exact hkeeps
  · exact .refl g

theorem alters_dropQueue (e : Engine σ) : e.graph.Alters e.dropQueue.graph :=
  (alters_foldl_modifyNode e.graph e.graph.pending (f := Node.withFreshness .clean) fun _ => rfl).trans
    (alters_requeued _ _)

/-! ## Operations on what is gone -/

theorem modifyNode_gone {id : NodeId} (gone : g.node? id = none) (f : Node β → Node β) :
    g.modifyNode id f = g := by
  unfold modifyNode Arena.modify
  split
  next n hn => exact absurd (gone.symm.trans hn) (by simp)
  next => rfl

theorem relink_gone {id : NodeId} (gone : g.node? id = none) (sources : List NodeId) :
    g.relink id sources = g := by
  simp [relink, gone]

theorem finished_gone {id : NodeId} (gone : g.node? id = none) (sources : List NodeId)
    (outcome : Outcome) : g.finished id sources outcome = g := by
  rw [finished, relink_gone gone, stored, gone]

theorem effectFinished_gone {id : NodeId} (gone : g.node? id = none) (sources : List NodeId) :
    g.effectFinished id sources = g := by
  rw [effectFinished, relink_gone gone, modifyNode_gone gone]

/-! ## What keeps a graph well-formed -/

theorem Alters.owns (ha : g.Alters h) {s : ScopeId} {x : NodeId} : h.Owns s x ↔ g.Owns s x := by
  constructor
  · rintro ⟨m, hm, howner⟩
    obtain ⟨n, hn, hshape⟩ := ha.origin hm
    exact ⟨n, hn, (congrArg (·.2.2) hshape).symm.trans howner⟩
  · rintro ⟨n, hn, howner⟩
    obtain ⟨m, hm, hshape⟩ := ha.find hn
    exact ⟨m, hm, (congrArg (·.2.2) hshape).trans howner⟩

theorem alters_effectFinished (g : Graph β) (id : NodeId) (sources : List NodeId) :
    (g.relink id sources).Alters (g.effectFinished id sources) := by
  refine alters_modifyNode id fun n _ => ?_
  split
  next hkind => simp [Node.shape, Node.sort, hkind, NodeKind.sort, ends]
  next => rfl

/-- The forest depends on the scopes and on the owners of nodes only. -/
theorem WellFormed.housed (hg : g.WellFormed) (scopes : h.scopes = g.scopes)
    (owns : ∀ s x, h.Owns s x ↔ g.Owns s x) (linked : h.Linked)
    (signals : ∀ {x n}, h.node? x = some n → n.sort = .signal → n.sources = [])
    (effects : ∀ {x n}, h.node? x = some n → n.sort = .effect → n.subscribers = [])
    (queued : ∀ x ∈ h.pending, ∃ n, h.node? x = some n ∧ n.sort = .effect) : h.WellFormed := by
  have hscope := scope?_congr scopes
  have habove : h.Above = g.Above := by
    funext s t
    simp only [Above, hscope]
  refine ⟨linked, signals, effects, queued, ⟨fun {s r} hr => ?_, fun {s r} hr => ?_⟩,
    fun {s x} hx => ?_, fun {s t} ht => ?_, habove ▸ hg.forest⟩
  · simpa only [owns] using hg.listed.nodes ((hscope s).symm.trans hr)
  · simpa only [habove] using hg.listed.children ((hscope s).symm.trans hr)
  · rw [hscope]
    exact hg.owner_live ((owns s x).1 hx)
  · rw [hscope]
    exact hg.parent_live (habove ▸ ht)

theorem WellFormed.alters (hg : g.WellFormed) (ha : g.Alters h)
    (queued : ∀ x ∈ h.pending, x ∈ g.pending ∨ ∃ m, h.node? x = some m ∧ m.sort = .effect) :
    h.WellFormed := by
  refine hg.housed ha.scopes (fun s x => ha.owns) (hg.linked.congr fun x => ?_) (fun {x m} hm hs => ?_)
    (fun {x m} hm hs => ?_) fun x hx => ?_
  · have hends := congrArg (Option.map (·.2.1)) (ha.shape x)
    rwa [Option.map_map, Option.map_map] at hends
  · obtain ⟨n, hn, hshape⟩ := ha.origin hm
    have hsort : m.sort = n.sort := congrArg (·.1) hshape
    exact (congrArg (·.2.1.1) hshape).trans (hg.signals hn (hsort.symm.trans hs))
  · obtain ⟨n, hn, hshape⟩ := ha.origin hm
    have hsort : m.sort = n.sort := congrArg (·.1) hshape
    exact (congrArg (·.2.1.2) hshape).trans (hg.effects hn (hsort.symm.trans hs))
  · refine (queued x hx).elim (fun hx => ?_) id
    obtain ⟨n, hn, hs⟩ := hg.queued x hx
    obtain ⟨m, hm, hshape⟩ := ha.find hn
    exact ⟨m, hm, (congrArg (·.1) hshape).trans hs⟩

/-- Only the queue has changed, and holds nothing new. -/
theorem WellFormed.requeued (hg : g.WellFormed) {pending : List NodeId} (fewer : pending ⊆ g.pending) :
    ({ g with pending := pending } : Graph β).WellFormed :=
  hg.alters (alters_requeued g pending) fun _ hx => .inl (fewer hx)

theorem WellFormed.setFreshness (hg : g.WellFormed) (id : NodeId) (f : Freshness) :
    (g.setFreshness id f).WellFormed :=
  hg.alters (alters_setFreshness g id f) fun _ => .inl

theorem WellFormed.markAll (hg : g.WellFormed) (ids : List NodeId) :
    (ids.foldl markDirty g).WellFormed := by
  refine hg.alters (alters_markAll g ids) fun x hx => ?_
  refine ((delayed_markAll g ids).added x hx).imp_right ?_
  rintro ⟨m, hm, heffect, -⟩
  exact ⟨m, hm, Node.isEffect_iff.1 heffect⟩

theorem WellFormed.revalued {g : Graph (Program σ)} (hg : g.WellFormed) {id : NodeId}
    {n : Node (Program σ)} (found : g.node? id = some n) (signal : n.sort = .signal) (value : Value) :
    (g.revalued id value).WellFormed :=
  hg.alters (alters_revalued found signal value) fun _ => .inl

theorem WellFormed.written {g : Graph (Program σ)} (hg : g.WellFormed) {id : NodeId}
    {n : Node (Program σ)} (found : g.node? id = some n) (signal : n.sort = .signal) (value : Value)
    (subscribers : List NodeId) : (g.written id value subscribers).WellFormed :=
  (hg.revalued found signal value).markAll subscribers

theorem WellFormed.relink (hg : g.WellFormed) {id : NodeId} {n : Node β} (found : g.node? id = some n)
    (bodied : n.sort ≠ .signal) {sources : List NodeId}
    (cells : ∀ s ∈ sources, ∀ m, g.node? s = some m → m.sort ≠ .effect) :
    (g.relink id sources).WellFormed := by
  have origin {x : NodeId} {m : Node β} (hm : (g.relink id sources).node? x = some m) :
      ∃ m₀, g.node? x = some m₀ ∧
        relinked id n.sources sources (sources.filter fun s => (g.node? s).isSome) x m₀ = m :=
    Option.map_eq_some_iff.1 ((node?_relink found sources x).symm.trans hm)
  refine hg.housed (scopes_relink g id sources) (fun s x => ⟨?_, ?_⟩) (hg.linked.relink found sources)
    (fun {x m} hm hs => ?_) (fun {x m} hm hs => ?_) fun x hx => ?_
  · rintro ⟨m, hm, howner⟩
    obtain ⟨m₀, hm₀, rfl⟩ := origin hm
    exact ⟨m₀, hm₀, howner⟩
  · rintro ⟨m, hm, howner⟩
    exact ⟨_, (node?_relink found sources x).trans (congrArg _ hm), howner⟩
  · obtain ⟨m₀, hm₀, rfl⟩ := origin hm
    have hne : x ≠ id := by
      rintro rfl
      obtain rfl := Option.some.inj (found.symm.trans hm₀)
      exact bodied hs
    simpa [relinked, hne] using hg.signals hm₀ hs
  · obtain ⟨m₀, hm₀, rfl⟩ := origin hm
    have hbare : m₀.subscribers = [] := hg.effects hm₀ hs
    have hx : x ∉ sources := fun hmem => cells x hmem m₀ hm₀ hs
    simp [relinked, hx, hbare]
  · obtain ⟨m, hm, hs⟩ := hg.queued x (pending_relink g id sources ▸ hx)
    exact ⟨_, (node?_relink found sources x).trans (congrArg _ hm), hs⟩

/-! ### New nodes and scopes -/

/-- A list of all that have a property, with one more behind them. -/
theorem lists_concat {α : Type} {xs : List α} {P : α → Prop}
    (lists : xs.Nodup ∧ ∀ x, x ∈ xs ↔ P x) {a : α} (new : ¬P a) :
    (xs ++ [a]).Nodup ∧ ∀ x, x ∈ xs ++ [a] ↔ P x ∨ x = a := by
  obtain ⟨hnodup, hmem⟩ := lists
  have hnew : a ∉ xs := fun ha => new ((hmem a).1 ha)
  refine ⟨List.nodup_append.2 ⟨hnodup, List.nodup_singleton a, fun x hx y hy => ?_⟩, fun x => ?_⟩
  · rintro rfl
    exact hnew (List.mem_singleton.1 hy ▸ hx)
  · rw [List.mem_append, List.mem_singleton, hmem]

/-- One that was not above any other may be put below others. -/
theorem wellFounded_leaf {α : Type} {R S : α → α → Prop} (wf : WellFounded R) {a : α} {P : α → Prop}
    (bare : ∀ x, ¬R a x) (apart : ¬P a) (grown : ∀ x y, S x y ↔ R x y ∨ y = a ∧ P x) :
    WellFounded S := by
  have hbare (x : α) : ¬S a x := fun h => by
    rcases (grown a x).1 h with h | ⟨-, h⟩
    · exact bare x h
    · exact apart h
  -- first the others: what is above them was so before
  have hold (x : α) : x ≠ a → Acc S x := by
    induction x using wf.induction with
    | _ x ih =>
      intro hne
      refine ⟨_, fun y hy => ih y ?_ ?_⟩
      · exact ((grown y x).1 hy).resolve_right fun hnew => hne hnew.1
      · rintro rfl
        exact hbare x hy
  refine ⟨fun x => ?_⟩
  by_cases hx : x = a
  · refine ⟨_, fun y hy => hold y ?_⟩
    rintro rfl
    exact hbare x hy
  · exact hold x hx

section Insert

variable {kind : NodeKind β} {freshness : Freshness}

theorem wired_insertNode (hg : g.WellFormed) (kind : NodeKind β) (freshness : Freshness)
    (owner : Option ScopeId)
    (same : ∀ x, h.node? x = (g.insertNode kind freshness owner).2.node? x) {x : NodeId} {m : Node β}
    (hm : h.node? x = some m) :
    (m.sort = .signal → m.sources = []) ∧ (m.sort = .effect → m.subscribers = []) := by
  rw [same, node?_insertNode] at hm
  split at hm
  · obtain rfl := Option.some.inj hm
    exact ⟨fun _ => rfl, fun _ => rfl⟩
  · exact ⟨hg.signals hm, hg.effects hm⟩

theorem queued_insertNode (hg : g.WellFormed) (owner : Option ScopeId)
    (same : ∀ x, h.node? x = (g.insertNode kind freshness owner).2.node? x)
    (pending : h.pending = g.pending) (x : NodeId) (hx : x ∈ h.pending) :
    ∃ n, h.node? x = some n ∧ n.sort = .effect := by
  obtain ⟨n, hn, hs⟩ := hg.queued x (pending ▸ hx)
  refine ⟨n, ?_, hs⟩
  have hne : x ≠ (g.insertNode kind freshness owner).1 := by
    rintro rfl
    simp [node?_insertNode_fresh] at hn
  rw [same, node?_insertNode, if_neg hne, hn]

theorem owns_insertNode (kind : NodeKind β) (freshness : Freshness) (owner : Option ScopeId)
    (same : ∀ x, h.node? x = (g.insertNode kind freshness owner).2.node? x) {s : ScopeId} {x : NodeId} :
    h.Owns s x ↔ g.Owns s x ∨ x = (g.insertNode kind freshness owner).1 ∧ owner = some s := by
  have hfresh := node?_insertNode_fresh g kind freshness owner
  simp only [Owns, same, node?_insertNode]
  by_cases hx : x = (g.insertNode kind freshness owner).1
  · subst hx
    simp [hfresh]
  · simp [hx]

theorem WellFormed.insertNode (hg : g.WellFormed) (kind : NodeKind β) (freshness : Freshness) :
    (g.insertNode kind freshness none).2.WellFormed := by
  have hwired {x m} := wired_insertNode (x := x) (m := m) hg kind freshness none fun _ => rfl
  refine hg.housed rfl (fun s x => ?_) (hg.linked.insertNode _ _ _) (fun hm => (hwired hm).1)
    (fun hm => (hwired hm).2) (queued_insertNode hg none (fun _ => rfl) rfl)
  rw [owns_insertNode kind freshness none fun _ => rfl]
  simp

theorem WellFormed.insertOwned (hg : g.WellFormed) {owner : ScopeId} {id : NodeId}
    (inserted : g.insertOwned kind owner = some (id, h)) : h.WellFormed := by
  obtain ⟨rfl, hsame, hpending⟩ := insertOwned_eq_some inserted
  obtain ⟨hlive, hscope⟩ := scope?_insertOwned inserted
  have howns {s x} := owns_insertNode (s := s) (x := x) kind .dirty (some owner) hsame
  have hfresh := node?_insertNode_fresh g kind .dirty (some owner)
  generalize (g.insertNode kind .dirty (some owner)).1 = id at howns hfresh hscope
  have hscopes (s : ScopeId) : (h.scope? s).isSome = (g.scope? s).isSome := by
    rw [hscope]
    split <;> simp
  have origin {s : ScopeId} {r : ScopeRecord} (hr : h.scope? s = some r) :
      ∃ r₀, g.scope? s = some r₀ ∧ r = { r₀ with nodes := if s = owner then r₀.nodes ++ [id] else r₀.nodes } := by
    rw [hscope] at hr
    split at hr
    next hs =>
      obtain ⟨r₀, hr₀, rfl⟩ := Option.map_eq_some_iff.1 hr
      exact ⟨r₀, hr₀, by simp [hs]⟩
    next hs => exact ⟨r, hr, by simp [hs]⟩
  have habove (s t : ScopeId) : h.Above s t ↔ g.Above s t := by
    simp only [Above, hscope]
    split
    · cases g.scope? t <;> simp
    · rfl
  have hwired {x m} := wired_insertNode (x := x) (m := m) hg kind .dirty (some owner) hsame
  refine ⟨(hg.linked.insertNode kind .dirty (some owner)).congr fun x => by rw [hsame],
    fun hm => (hwired hm).1, fun hm => (hwired hm).2, queued_insertNode hg _ hsame hpending,
    ⟨fun {s r} hr => ?_, fun {s r} hr => ?_⟩, fun {s x} hx => ?_, fun {s t} ht => ?_, ?_⟩
  · obtain ⟨r₀, hr₀, rfl⟩ := origin hr
    have hnew : ¬g.Owns s id := by
      rintro ⟨n, hn, -⟩
      simp [hfresh] at hn
    by_cases hs : s = owner
    · subst hs
      simpa only [if_true, howns, and_true] using lists_concat (hg.listed.nodes hr₀) hnew
    · simpa [hs, howns, Ne.symm hs] using hg.listed.nodes hr₀
  · obtain ⟨r₀, hr₀, rfl⟩ := origin hr
    simpa only [habove] using hg.listed.children hr₀
  · rw [hscopes]
    rcases howns.1 hx with hx | ⟨-, hs⟩
    · exact hg.owner_live hx
    · exact Option.some.inj hs ▸ hlive
  · rw [hscopes]
    exact hg.parent_live ((habove s t).1 ht)
  · exact (funext₂ fun s t => propext (habove s t)) ▸ hg.forest

/-- A new scope that is listed by its parent, if it has one, leaves a well-formed graph. -/
theorem WellFormed.grown (hg : g.WellFormed) (parent : Option ScopeId) {id : ScopeId}
    (same : ∀ x, h.node? x = g.node? x) (pending : h.pending = g.pending) (fresh : g.scope? id = none)
    (live : ∀ p ∈ parent, (g.scope? p).isSome)
    (scope : ∀ t, h.scope? t = if some t = parent then
        (g.scope? t).map fun r => { r with children := r.children ++ [id] }
      else if t = id then some ⟨parent, [], []⟩ else g.scope? t) : h.WellFormed := by
  have howns (s : ScopeId) (x : NodeId) : h.Owns s x ↔ g.Owns s x := by simp only [Owns, same]
  have hid : some id ≠ parent := fun heq => by simpa [fresh] using live id heq.symm
  have hbare (t : ScopeId) : ¬g.Above id t := fun ht => by simpa [fresh] using hg.parent_live ht
  have hscopes {s : ScopeId} (hs : (g.scope? s).isSome) : (h.scope? s).isSome := by
    rw [scope]
    split
    · simpa using hs
    · split
      · rfl
      · exact hs
  have origin {s : ScopeId} {r : ScopeRecord} (hr : h.scope? s = some r) :
      s = id ∧ r = ⟨parent, [], []⟩ ∨ s ≠ id ∧ ∃ r₀, g.scope? s = some r₀ ∧
        r = { r₀ with children := if some s = parent then r₀.children ++ [id] else r₀.children } := by
    rw [scope] at hr
    split at hr
    next hs =>
      obtain ⟨r₀, hr₀, rfl⟩ := Option.map_eq_some_iff.1 hr
      exact .inr ⟨fun heq => hid (heq ▸ hs), r₀, hr₀, by simp [hs]⟩
    next hs =>
      split at hr
      next hnew => exact .inl ⟨hnew, (Option.some.inj hr).symm⟩
      next hold => exact .inr ⟨hold, r, hr, by simp [hs]⟩
  have habove (s t : ScopeId) : h.Above s t ↔ g.Above s t ∨ t = id ∧ parent = some s := by
    constructor
    · rintro ⟨r, hr, hp⟩
      rcases origin hr with ⟨ht, rfl⟩ | ⟨-, r₀, hr₀, rfl⟩
      · exact .inr ⟨ht, hp⟩
      · exact .inl ⟨r₀, hr₀, hp⟩
    · rintro (⟨r, hr, hp⟩ | ⟨rfl, hp⟩)
      · have hne : t ≠ id := by
          rintro rfl
          simp [fresh] at hr
        rw [Above, scope, if_neg hne, hr]
        split
        · exact ⟨_, rfl, hp⟩
        · exact ⟨_, rfl, hp⟩
      · exact ⟨_, by rw [scope, if_neg hid, if_pos rfl], hp⟩
  refine ⟨hg.linked.congr fun x => by rw [same], fun hm => hg.signals ((same _).symm.trans hm),
    fun hm => hg.effects ((same _).symm.trans hm), fun x hx => ?_,
    ⟨fun {s r} hr => ?_, fun {s r} hr => ?_⟩, fun {s x} hx => ?_, fun {s t} ht => ?_,
    wellFounded_leaf hg.forest hbare hid.symm habove⟩
  · rw [same]
    exact hg.queued x (pending ▸ hx)
  · rcases origin hr with ⟨rfl, rfl⟩ | ⟨-, r₀, hr₀, rfl⟩
    · refine ⟨.nil, fun x => iff_of_false List.not_mem_nil fun hx => ?_⟩
      simpa [fresh] using hg.owner_live ((howns s x).1 hx)
    · simpa only [howns] using hg.listed.nodes hr₀
  · rcases origin hr with ⟨rfl, rfl⟩ | ⟨-, r₀, hr₀, rfl⟩
    · refine ⟨.nil, fun t => iff_of_false List.not_mem_nil fun ht => ?_⟩
      rcases (habove _ t).1 ht with ht | ⟨-, hp⟩
      · exact hbare t ht
      · exact hid hp.symm
    · have hnew : ¬g.Above s id := by
        rintro ⟨r, hr, -⟩
        simp [fresh] at hr
      by_cases hs : some s = parent
      · simpa only [hs, if_true, habove, and_true] using
          lists_concat (hg.listed.children hr₀) hnew
      · simpa [hs, habove, Ne.symm hs] using hg.listed.children hr₀
  · exact hscopes (hg.owner_live ((howns s x).1 hx))
  · rcases (habove s t).1 ht with ht | ⟨-, hp⟩
    · exact hscopes (hg.parent_live ht)
    · exact hscopes (live s hp)

theorem WellFormed.insertScope (hg : g.WellFormed) : g.insertScope.2.WellFormed :=
  hg.grown none (fun _ => rfl) rfl (scope?_insertScope_fresh g) nofun fun t => by
    rw [scope?_insertScope]
    simp

theorem WellFormed.insertChildScope (hg : g.WellFormed) {parent id : ScopeId}
    (inserted : g.insertChildScope parent = some (id, h)) : h.WellFormed := by
  obtain ⟨hsame, hpending⟩ := insertChildScope_eq_some inserted
  obtain ⟨hlive, hfresh, hscope⟩ := scope?_insertChildScope inserted
  refine hg.grown (some parent) hsame hpending hfresh ?_ fun t => ?_
  · rintro p ⟨⟩
    exact hlive
  · rw [hscope]
    simp

end Insert

/-! ## What an operation leaves -/

/-- There was a scope of this key, and it is gone. -/
def Ended (g : Graph β) (s : ScopeId) : Prop := g.scopes.Spent s

theorem Ended.scope? {s : ScopeId} (hs : g.Ended s) : g.scope? s = none := Arena.get?_of_spent hs

/-- The key is or was that of a node of such a sort. -/
def OfSort (g : Graph β) (p : NodeSort → Prop) (x : NodeId) : Prop :=
  g.Spent x ∨ ∃ n, g.node? x = some n ∧ p n.sort

/-- What was there is there still, or is gone for good. -/
structure Lasts (g h : Graph β) : Prop where
  spent : ∀ {x : NodeId}, g.Spent x → h.Spent x
  ended : ∀ {s : ScopeId}, g.Ended s → h.Ended s
  node : ∀ {x : NodeId} {n : Node β}, g.node? x = some n →
    h.Spent x ∨ ∃ m, h.node? x = some m ∧ m.sort = n.sort
  scope : ∀ {s : ScopeId}, (g.scope? s).isSome → h.Ended s ∨ (h.scope? s).isSome

theorem Lasts.refl (g : Graph β) : g.Lasts g :=
  ⟨id, id, fun hn => .inr ⟨_, hn, rfl⟩, .inr⟩

theorem Lasts.trans (hl : g.Lasts h) (hl' : h.Lasts k) : g.Lasts k where
  spent hx := hl'.spent (hl.spent hx)
  ended hs := hl'.ended (hl.ended hs)
  node hn := by
    rcases hl.node hn with hx | ⟨m, hm, hsort⟩
    · exact .inl (hl'.spent hx)
    · exact (hl'.node hm).imp_right fun ⟨l, hl, hsort'⟩ => ⟨l, hl, hsort'.trans hsort⟩
  scope hs := (hl.scope hs).elim (fun hs => .inl (hl'.ended hs)) hl'.scope

theorem Lasts.ofSort (hl : g.Lasts h) {p : NodeSort → Prop} {x : NodeId} (hx : g.OfSort p x) :
    h.OfSort p x := by
  rcases hx with hx | ⟨n, hn, hp⟩
  · exact .inl (hl.spent hx)
  · exact (hl.node hn).imp_right fun ⟨m, hm, hsort⟩ => ⟨m, hm, hsort ▸ hp⟩

theorem Alters.lasts (ha : g.Alters h) : g.Lasts h where
  spent := ha.spent
  ended hs := by
    rw [Ended, ha.scopes]
    exact hs
  node hn := by
    obtain ⟨m, hm, hshape⟩ := ha.find hn
    exact .inr ⟨m, hm, congrArg (·.1) hshape⟩
  scope hs := by
    rw [scope?_congr ha.scopes]
    exact .inr hs

theorem lasts_relink {id : NodeId} {n : Node β} (found : g.node? id = some n) (sources : List NodeId) :
    g.Lasts (g.relink id sources) where
  spent hx := hx.relink id sources
  ended hs := by
    rw [Ended, scopes_relink]
    exact hs
  node hn := .inr ⟨_, (node?_relink found sources _).trans (congrArg _ hn), rfl⟩
  scope hs := by
    rw [scope?_congr (scopes_relink g id sources)]
    exact .inr hs

section Insert

variable {kind : NodeKind β} {freshness : Freshness} {owner : Option ScopeId}

theorem lasts_insertNode : g.Lasts (g.insertNode kind freshness owner).2 where
  spent hx := hx.insertNode kind freshness owner
  ended hs := hs
  node {x n} hn := by
    have hne : x ≠ (g.insertNode kind freshness owner).1 := by
      rintro rfl
      simp [node?_insertNode_fresh] at hn
    exact .inr ⟨n, by rw [node?_insertNode, if_neg hne, hn], rfl⟩
  scope hs := .inr hs

theorem lasts_modifyScope (g : Graph β) (s : ScopeId) (f : ScopeRecord → ScopeRecord) :
    g.Lasts (g.modifyScope s f) where
  spent hx := hx
  ended hs := Arena.Spent.modify hs s f
  node hn := .inr ⟨_, hn, rfl⟩
  scope hs := .inr (by
    rw [scope?_modifyScope]
    split
    · simpa using hs
    · exact hs)

theorem lasts_insertOwned {owner : ScopeId} {id : NodeId}
    (inserted : g.insertOwned kind owner = some (id, h)) : g.Lasts h := by
  unfold insertOwned at inserted
  split at inserted
  · cases inserted
    exact lasts_insertNode.trans (lasts_modifyScope _ _ _)
  · cases inserted

theorem lasts_addScope (record : ScopeRecord) :
    g.Lasts { g with scopes := (g.scopes.insert record).2 } where
  spent hx := hx
  ended hs := Arena.Spent.insert hs record
  node hn := .inr ⟨_, hn, rfl⟩
  scope {s} hs := .inr (by
    rw [scope?, Arena.get?_insert]
    split
    · rfl
    · exact hs)

theorem lasts_insertChildScope {parent id : ScopeId} (inserted : g.insertChildScope parent = some (id, h)) :
    g.Lasts h := by
  unfold insertChildScope at inserted
  split at inserted
  · cases inserted
    exact (lasts_addScope _).trans (lasts_modifyScope _ _ _)
  · cases inserted

end Insert

end Graph

end LiveTemplate.Reactive
