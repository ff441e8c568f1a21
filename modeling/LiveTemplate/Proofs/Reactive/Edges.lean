import LiveTemplate.Reactive.Graph

/-!
# What graph operations do to nodes and edges

For each operation on a graph, what `node?` finds afterwards. From these it follows that edges stay
recorded at both ends (`Graph.Linked`): a node stands among the subscribers of exactly the nodes that
stand among its sources.
-/
namespace LiveTemplate.Reactive

variable {β : Type}

namespace Graph

/-! ## Nodes -/

theorem node?_modifyNode (g : Graph β) (id x : NodeId) (f : Node β → Node β) :
    (g.modifyNode id f).node? x = if x = id then (g.node? x).map f else g.node? x :=
  Arena.get?_modify _ _ _ _

@[simp] theorem node?_modifyNode_self (g : Graph β) (id : NodeId) (f : Node β → Node β) :
    (g.modifyNode id f).node? id = (g.node? id).map f := by
  simp [node?_modifyNode]

theorem node?_modifyNode_of_ne (g : Graph β) {id x : NodeId} (f : Node β → Node β) (h : x ≠ id) :
    (g.modifyNode id f).node? x = g.node? x := by
  simp [node?_modifyNode, h]

theorem node?_setFreshness (g : Graph β) (id x : NodeId) (f : Freshness) :
    (g.setFreshness id f).node? x =
      if x = id then (g.node? x).map (Node.withFreshness f) else g.node? x :=
  node?_modifyNode _ _ _ _

@[simp] theorem node?_enqueue (g : Graph β) (id x : NodeId) :
    (g.enqueue id).node? x = g.node? x := rfl

@[simp] theorem node?_modifyScope (g : Graph β) (id : ScopeId) (f : ScopeRecord → ScopeRecord)
    (x : NodeId) : (g.modifyScope id f).node? x = g.node? x := rfl

@[simp] theorem contains_nodes (g : Graph β) (id : NodeId) :
    g.nodes.contains id = (g.node? id).isSome := rfl

@[simp] theorem pending_modifyNode (g : Graph β) (id : NodeId) (f : Node β → Node β) :
    (g.modifyNode id f).pending = g.pending := rfl

@[simp] theorem scopes_modifyNode (g : Graph β) (id : NodeId) (f : Node β → Node β) :
    (g.modifyNode id f).scopes = g.scopes := rfl

/-- A change that can be repeated without effect reaches every node of a list. -/
theorem node?_foldl_modifyNode (g : Graph β) (ids : List NodeId) {f : Node β → Node β}
    (hf : ∀ n, f (f n) = f n) (x : NodeId) :
    (ids.foldl (fun g id => g.modifyNode id f) g).node? x =
      if x ∈ ids then (g.node? x).map f else g.node? x := by
  induction ids generalizing g with
  | nil => simp
  | cons id ids ih =>
    rw [List.foldl_cons, ih, node?_modifyNode]
    by_cases h : x = id
    · subst h
      cases g.node? x <;> simp [hf]
    · simp [h]

theorem pending_foldl_modifyNode (g : Graph β) (ids : List NodeId) (f : Node β → Node β) :
    (ids.foldl (fun g id => g.modifyNode id f) g).pending = g.pending := by
  induction ids generalizing g with
  | nil => rfl
  | cons id ids ih => exact ih _

theorem node?_insertNode (g : Graph β) (kind : NodeKind β) (freshness : Freshness)
    (owner : Option ScopeId) (x : NodeId) :
    (g.insertNode kind freshness owner).2.node? x =
      if x = (g.insertNode kind freshness owner).1 then some ⟨kind, freshness, [], [], owner⟩
      else g.node? x :=
  Arena.get?_insert _ _ _

theorem node?_insertNode_fresh (g : Graph β) (kind : NodeKind β) (freshness : Freshness)
    (owner : Option ScopeId) : g.node? (g.insertNode kind freshness owner).1 = none :=
  Arena.get?_insert_fresh _ _

@[simp] theorem pending_insertNode (g : Graph β) (kind : NodeKind β) (freshness : Freshness)
    (owner : Option ScopeId) : (g.insertNode kind freshness owner).2.pending = g.pending := rfl

/-- An owned node is a node like any other; its place in the scope aside. -/
theorem insertOwned_eq_some {g h : Graph β} {kind : NodeKind β} {owner : ScopeId} {id : NodeId}
    (inserted : g.insertOwned kind owner = some (id, h)) :
    id = (g.insertNode kind .dirty (some owner)).1 ∧
      (∀ x, h.node? x = (g.insertNode kind .dirty (some owner)).2.node? x) ∧
      h.pending = g.pending := by
  unfold insertOwned at inserted
  split at inserted
  · cases inserted
    exact ⟨rfl, fun _ => rfl, rfl⟩
  · cases inserted

theorem insertChildScope_eq_some {g h : Graph β} {parent id : ScopeId}
    (inserted : g.insertChildScope parent = some (id, h)) :
    (∀ x, h.node? x = g.node? x) ∧ h.pending = g.pending := by
  unfold insertChildScope at inserted
  split at inserted
  · cases inserted
    exact ⟨fun _ => rfl, rfl⟩
  · cases inserted

/-- What becomes of a node when another one's sources are recorded anew. -/
def relinked (id : NodeId) (old sources live : List NodeId) (x : NodeId) (m : Node β) : Node β :=
  { m with
    sources := if x = id then live else m.sources
    subscribers :=
      if x ∈ sources then enlist id m.subscribers
      else if x ∈ old then m.subscribers.filter (· ≠ id)
      else m.subscribers }

theorem addSubscriber_twice (id : NodeId) (n : Node β) :
    (n.addSubscriber id).addSubscriber id = n.addSubscriber id := by
  simp [Node.addSubscriber, enlist, apply_ite (id ∈ ·)]

theorem dropSubscriber_twice (id : NodeId) (n : Node β) :
    (n.dropSubscriber id).dropSubscriber id = n.dropSubscriber id := by
  simp [Node.dropSubscriber]

theorem dropSource_twice (id : NodeId) (n : Node β) :
    (n.dropSource id).dropSource id = n.dropSource id := by
  simp [Node.dropSource]

theorem node?_relink {g : Graph β} {id : NodeId} {n : Node β} (h : g.node? id = some n)
    (sources : List NodeId) (x : NodeId) :
    (g.relink id sources).node? x = (g.node? x).map
      (relinked id n.sources sources (sources.filter fun s => (g.node? s).isSome) x) := by
  have hlive (g' : Graph β) (hg : ∀ y, (g'.node? y).isSome = (g.node? y).isSome) :
      (sources.filter fun s => g'.nodes.contains s) =
        sources.filter fun s => (g.node? s).isSome := by
    simp [hg]
  unfold relink
  simp only [h]
  rw [hlive _ fun y => ?_, node?_modifyNode]
  · rw [node?_foldl_modifyNode _ _ (addSubscriber_twice id),
      node?_foldl_modifyNode _ _ (dropSubscriber_twice id)]
    cases hx : g.node? x with
    | none => simp
    | some m =>
      have hfilter : (x ∈ sources.filter fun s => (g.node? s).isSome) ↔ x ∈ sources := by
        simp [hx]
      have hleft : x ∈ n.sources.filter (· ∉ sources) ↔ x ∈ n.sources ∧ x ∉ sources := by simp
      simp only [hfilter, hleft, relinked, Option.map_some]
      by_cases hs : x ∈ sources <;> by_cases ho : x ∈ n.sources <;>
        simp only [hs, ho, if_true, if_false, not_true, not_false_iff, and_true, and_false,
          Option.map_some, Node.addSubscriber, Node.dropSubscriber] <;>
        split <;> rfl
  · rw [node?_foldl_modifyNode _ _ (dropSubscriber_twice id)]
    split <;> simp

@[simp] theorem pending_relink (g : Graph β) (id : NodeId) (sources : List NodeId) :
    (g.relink id sources).pending = g.pending := by
  unfold relink
  split
  · rfl
  · simp only [pending_modifyNode, pending_foldl_modifyNode]

@[simp] theorem scopes_relink (g : Graph β) (id : NodeId) (sources : List NodeId) :
    (g.relink id sources).scopes = g.scopes := by
  unfold relink
  split
  · rfl
  · simp only [scopes_modifyNode, scopes_foldl_modifyNode]

/-! ## Edges -/

/-- Edges are recorded at both ends, and lead between live nodes. -/
structure Linked (g : Graph β) : Prop where
  edge : ∀ {a b : NodeId} {n m : Node β}, g.node? a = some n → g.node? b = some m →
    (b ∈ n.sources ↔ a ∈ m.subscribers)
  source_live : ∀ {a b : NodeId} {n : Node β}, g.node? a = some n → b ∈ n.sources →
    (g.node? b).isSome
  subscriber_live : ∀ {a b : NodeId} {n : Node β}, g.node? a = some n → b ∈ n.subscribers →
    (g.node? b).isSome

/-- The two ends that a node records. -/
def ends (n : Node β) : List NodeId × List NodeId := (n.sources, n.subscribers)

theorem linked_empty : (empty : Graph β).Linked :=
  ⟨nofun, nofun, nofun⟩

/-- Only the recorded ends matter. -/
theorem Linked.congr {g h : Graph β} (hg : g.Linked)
    (same : ∀ x, (h.node? x).map ends = (g.node? x).map ends) : h.Linked := by
  have find {x : NodeId} {n : Node β} (hx : h.node? x = some n) :
      ∃ m, g.node? x = some m ∧ m.sources = n.sources ∧ m.subscribers = n.subscribers := by
    have hends := (same x).symm.trans (congrArg (Option.map ends) hx)
    obtain ⟨m, hm, he⟩ := Option.map_eq_some_iff.1 hends
    exact ⟨m, hm, congrArg Prod.fst he, congrArg Prod.snd he⟩
  have live (x : NodeId) : (h.node? x).isSome = (g.node? x).isSome := by
    simpa using congrArg Option.isSome (same x)
  constructor
  · intro a b n m ha hb
    obtain ⟨n', hn', hs, -⟩ := find ha
    obtain ⟨m', hm', -, hsub⟩ := find hb
    rw [← hs, ← hsub]
    exact hg.edge hn' hm'
  · intro a b n ha hb
    obtain ⟨n', hn', hs, -⟩ := find ha
    rw [live]
    exact hg.source_live hn' (hs ▸ hb)
  · intro a b n ha hb
    obtain ⟨n', hn', -, hs⟩ := find ha
    rw [live]
    exact hg.subscriber_live hn' (hs ▸ hb)

theorem Linked.modifyNode {g : Graph β} (hg : g.Linked) (id : NodeId) {f : Node β → Node β}
    (hf : ∀ n, ends (f n) = ends n) : (g.modifyNode id f).Linked := by
  refine hg.congr fun x => ?_
  rw [node?_modifyNode]
  split
  · cases g.node? x <;> simp [hf]
  · rfl

theorem Linked.insertNode {g : Graph β} (hg : g.Linked) (kind : NodeKind β)
    (freshness : Freshness) (owner : Option ScopeId) :
    (g.insertNode kind freshness owner).2.Linked := by
  have fresh := node?_insertNode_fresh g kind freshness owner
  have other := node?_insertNode g kind freshness owner
  generalize (g.insertNode kind freshness owner).1 = id at fresh other
  generalize (g.insertNode kind freshness owner).2 = h at other
  have old {x : NodeId} {n : Node β} (hx : h.node? x = some n) :
      (x = id ∧ n.sources = [] ∧ n.subscribers = []) ∨ g.node? x = some n := by
    rw [other] at hx
    split at hx
    · cases hx
      exact .inl ⟨‹_›, rfl, rfl⟩
    · exact .inr hx
  have live {x : NodeId} (hx : (g.node? x).isSome) : (h.node? x).isSome := by
    rw [other]
    split
    · rfl
    · exact hx
  constructor
  · intro a b n m ha hb
    rcases old ha with ⟨rfl, hs, -⟩ | ha <;> rcases old hb with ⟨rfl, -, hsub⟩ | hb
    · simp [hs, hsub]
    · refine iff_of_false (by simp [hs]) fun hmem => ?_
      simpa [fresh] using hg.subscriber_live hb hmem
    · refine iff_of_false (fun hmem => ?_) (by simp [hsub])
      simpa [fresh] using hg.source_live ha hmem
    · exact hg.edge ha hb
  · intro a b n ha hb
    rcases old ha with ⟨-, hs, -⟩ | ha
    · simp [hs] at hb
    · exact live (hg.source_live ha hb)
  · intro a b n ha hb
    rcases old ha with ⟨-, -, hs⟩ | ha
    · simp [hs] at hb
    · exact live (hg.subscriber_live ha hb)

theorem isSome_relink {g : Graph β} {id : NodeId} {n : Node β} (h : g.node? id = some n)
    (sources : List NodeId) (x : NodeId) :
    ((g.relink id sources).node? x).isSome = (g.node? x).isSome := by
  simp [node?_relink h]

theorem Linked.relink {g : Graph β} (hg : g.Linked) {id : NodeId} {n : Node β}
    (h : g.node? id = some n) (sources : List NodeId) : (g.relink id sources).Linked := by
  have find {x : NodeId} {m : Node β} (hx : (g.relink id sources).node? x = some m) :
      ∃ m₀, g.node? x = some m₀ ∧
        relinked id n.sources sources (sources.filter fun s => (g.node? s).isSome) x m₀ = m :=
    Option.map_eq_some_iff.1 ((node?_relink h sources x).symm.trans hx)
  constructor
  · intro a b na nb ha hb
    obtain ⟨a₀, ha₀, rfl⟩ := find ha
    obtain ⟨b₀, hb₀, rfl⟩ := find hb
    have hedge := hg.edge ha₀ hb₀
    by_cases haid : a = id
    · subst haid
      obtain rfl : n = a₀ := Option.some.inj (h.symm.trans ha₀)
      by_cases hs : b ∈ sources <;> by_cases ho : b ∈ n.sources <;>
        simp [relinked, hs, ho, hb₀, mem_enlist, ← hedge]
    · by_cases hs : b ∈ sources <;> by_cases ho : b ∈ n.sources <;>
        simp [relinked, hs, ho, haid, mem_enlist, hedge]
  · intro a b na ha hb
    obtain ⟨a₀, ha₀, rfl⟩ := find ha
    rw [isSome_relink h]
    by_cases haid : a = id
    · simp only [relinked, haid, if_true, List.mem_filter] at hb
      exact hb.2
    · simp only [relinked, haid, if_false] at hb
      exact hg.source_live ha₀ hb
  · intro a b na ha hb
    obtain ⟨a₀, ha₀, rfl⟩ := find ha
    rw [isSome_relink h]
    have hmem : b = id ∨ b ∈ a₀.subscribers := by
      simp only [relinked] at hb
      split at hb
      · exact mem_enlist.1 hb
      · split at hb
        · exact .inr (List.mem_filter.1 hb).1
        · exact .inr hb
    rcases hmem with rfl | hmem
    · simp [h]
    · exact hg.subscriber_live ha₀ hmem

/-! ## Removal -/

section Removal

variable {g : Graph β} {id : NodeId}

theorem removeNode_eq_remove (g : Graph β) (id : NodeId) : g.removeNode id = g.remove [.node id] := by
  rw [remove, remove]

theorem node?_removeNode (g : Graph β) (id x : NodeId) :
    (g.removeNode id).node? x = if x = id then none else (g.node? x).map fun m =>
      match g.node? id with
      | none => m
      | some n =>
        let m := if x ∈ n.sources then m.dropSubscriber id else m
        if x ∈ n.subscribers then m.dropSource id else m := by
  unfold removeNode
  cases hid : g.node? id with
  | none =>
    by_cases hx : x = id
    · simp [hx, hid]
    · simp [hx]
  | some n =>
    have herase : ({ g with nodes := g.nodes.erase id } : Graph β).node? x =
        if x = id then none else g.node? x := Arena.get?_erase _ _ _
    let unlinked : Graph β := n.subscribers.foldl (fun g sub => g.modifyNode sub (Node.dropSource id))
      (n.sources.foldl (fun g source => g.modifyNode source (Node.dropSubscriber id))
        { g with nodes := g.nodes.erase id })
    refine Eq.trans (b := unlinked.node? x) ?_ ?_
    · dsimp only
      cases n.owner <;> rfl
    rw [node?_foldl_modifyNode _ _ (dropSource_twice id),
      node?_foldl_modifyNode _ _ (dropSubscriber_twice id), herase]
    by_cases hx : x = id
    · simp [hx]
    · by_cases hs : x ∈ n.sources <;> by_cases ht : x ∈ n.subscribers <;>
        cases g.node? x <;> simp [hx, hs, ht]

theorem pending_removeNode (g : Graph β) (id : NodeId) :
    (g.removeNode id).pending = if (g.node? id).isSome then g.pending.filter (· ≠ id)
      else g.pending := by
  unfold removeNode
  cases hid : g.node? id with
  | none => simp
  | some n =>
    obtain ⟨_, _, _, _, owner⟩ := n
    cases owner <;> simp [pending_foldl_modifyNode, modifyScope]

/-- A node that another one's removal leaves is the same, but for its edges to that one. -/
theorem removeNode_of_ne (linked : g.Linked) {x : NodeId} {m : Node β}
    (hm : (g.removeNode id).node? x = some m) : x ≠ id ∧ ∃ n, g.node? x = some n ∧
      m.kind = n.kind ∧ m.freshness = n.freshness ∧ m.sources = n.sources.filter (· ≠ id) ∧
        m.subscribers = n.subscribers.filter (· ≠ id) := by
  have kept {ids : List NodeId} (h : id ∉ ids) : ids.filter (· ≠ id) = ids :=
    List.filter_eq_self.2 fun s hs => decide_eq_true fun heq => h (heq ▸ hs)
  rw [node?_removeNode] at hm
  split at hm
  · cases hm
  next hx =>
    obtain ⟨n, hn, rfl⟩ := Option.map_eq_some_iff.1 hm
    refine ⟨hx, n, hn, ?_⟩
    cases hid : g.node? id with
    | none =>
      have hsource : id ∉ n.sources := fun h => by simpa [hid] using linked.source_live hn h
      have hsub : id ∉ n.subscribers := fun h => by simpa [hid] using linked.subscriber_live hn h
      exact ⟨rfl, rfl, (kept hsource).symm, (kept hsub).symm⟩
    | some k =>
      have hsource : x ∈ k.subscribers ↔ id ∈ n.sources := (linked.edge hn hid).symm
      have hsub : x ∈ k.sources ↔ id ∈ n.subscribers := linked.edge hid hn
      by_cases h : id ∈ n.sources <;> by_cases h' : id ∈ n.subscribers <;>
        simp only [hsource, hsub, h, h', if_true, if_false, Node.dropSource, Node.dropSubscriber, kept,
          not_false_eq_true, and_self]

theorem isSome_removeNode {x : NodeId} (hx : x ≠ id) :
    ((g.removeNode id).node? x).isSome = (g.node? x).isSome := by
  rw [node?_removeNode, if_neg hx, Option.isSome_map]

theorem Linked.removeNode (linked : g.Linked) (id : NodeId) : (g.removeNode id).Linked := by
  have hlive {x : NodeId} {ids : List NodeId} (hx : x ∈ ids.filter (· ≠ id))
      (hsome : x ∈ ids → (g.node? x).isSome) : ((g.removeNode id).node? x).isSome := by
    obtain ⟨hmem, hne⟩ := List.mem_filter.1 hx
    exact (isSome_removeNode (of_decide_eq_true hne)).trans (hsome hmem)
  constructor
  · intro a b na nb ha hb
    obtain ⟨hane, na₀, ha₀, -, -, hsources, -⟩ := removeNode_of_ne linked ha
    obtain ⟨hbne, nb₀, hb₀, -, -, -, hsubs⟩ := removeNode_of_ne linked hb
    simpa [hsources, hsubs, hane, hbne] using linked.edge ha₀ hb₀
  · intro a b na ha hb
    obtain ⟨-, na₀, ha₀, -, -, hsources, -⟩ := removeNode_of_ne linked ha
    exact hlive (hsources ▸ hb) (linked.source_live ha₀)
  · intro a b na ha hb
    obtain ⟨-, na₀, ha₀, -, -, -, hsubs⟩ := removeNode_of_ne linked ha
    exact hlive (hsubs ▸ hb) (linked.subscriber_live ha₀)

theorem nodes_detachScope (g : Graph β) (id : ScopeId) (record : ScopeRecord) :
    (g.detachScope id record).nodes = g.nodes := by
  unfold detachScope
  dsimp only
  split <;> rfl

theorem node?_detachScope (g : Graph β) (id : ScopeId) (record : ScopeRecord) (x : NodeId) :
    (g.detachScope id record).node? x = g.node? x := by
  rw [node?, node?, nodes_detachScope]

theorem pending_detachScope (g : Graph β) (id : ScopeId) (record : ScopeRecord) :
    (g.detachScope id record).pending = g.pending := by
  unfold detachScope
  dsimp only
  split <;> rfl

/-- What is true of a graph after the removal of a node or a scope is true after a removal of many. -/
theorem remove_induct {motive : Graph β → Prop} (g : Graph β) (work : List Doomed) (start : motive g)
    (node : ∀ {g} id, motive g → motive (g.removeNode id))
    (scope : ∀ {g id record}, g.scope? id = some record → motive g → motive (g.detachScope id record)) :
    motive (g.remove work) := by
  induction g, work using remove.induct with
  | case1 g => rwa [remove]
  | case2 g id work ih =>
    rw [remove]
    exact ih (node id start)
  | case3 g id work h ih =>
    rw [remove]
    split
    · exact ih start
    next record h' => simp [h] at h'
  | case4 g id work record h ih =>
    rw [remove]
    split
    next h' => simp [h] at h'
    next record' h' =>
      obtain rfl := Option.some.inj (h.symm.trans h')
      exact ih (scope h start)

end Removal

end Graph

end LiveTemplate.Reactive
