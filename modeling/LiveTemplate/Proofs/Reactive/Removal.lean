import LiveTemplate.Proofs.Reactive.Forest

/-!
# What a removal removes

Removing a list of scopes and nodes removes what is `Condemned` by it: the members of the list, the
scopes below those, and the nodes that these own. Nothing else goes, and what stays loses exactly the
removed keys from its lists (`Graph.Without`). On the way a scope can be gone whose nodes are still
there; that lists are right does not need more than live scopes (`Graph.Tight`).

In a well-formed graph, the removal of a scope removes the scopes within it and what they own
(`Graph.WellFormed.condemned_iff`), and the graph stays well-formed.
-/
namespace LiveTemplate.Reactive

variable {β : Type}

open scoped Classical in
/-- The list without the removed keys. -/
noncomputable def sparing {α : Type} (gone : α → Prop) (ids : List α) : List α :=
  ids.filter fun x => ¬gone x

section Sparing

variable {α : Type} {p q : α → Prop} {ids : List α} {x : α}

theorem mem_sparing : x ∈ sparing p ids ↔ x ∈ ids ∧ ¬p x := by
  simp [sparing]

theorem sparing_sparing : sparing q (sparing p ids) = sparing (fun x => p x ∨ q x) ids := by
  simp only [sparing, List.filter_filter, not_or]
  refine List.filter_congr fun x _ => ?_
  by_cases hp : p x <;> by_cases hq : q x <;> simp [hp, hq]

theorem sparing_eq_self (none : ∀ x ∈ ids, ¬p x) : sparing p ids = ids :=
  List.filter_eq_self.2 fun x hx => by simpa using none x hx

theorem sparing_eq_filter [DecidableEq α] (id : α) (ids : List α) :
    sparing (· = id) ids = ids.filter (· ≠ id) :=
  List.filter_congr fun x _ => by simp

end Sparing

noncomputable def Node.sparing (gone : NodeId → Prop) (n : Node β) : Node β :=
  { n with
    sources := Reactive.sparing gone n.sources
    subscribers := Reactive.sparing gone n.subscribers }

noncomputable def ScopeRecord.sparing (gone : NodeId → Prop) (ended : ScopeId → Prop)
    (r : ScopeRecord) : ScopeRecord :=
  { r with
    children := Reactive.sparing ended r.children
    nodes := Reactive.sparing gone r.nodes }

@[simp] theorem Node.sparing_nothing : Node.sparing (β := β) (fun _ => False) = id := by
  funext n
  simp [Node.sparing, sparing_eq_self]

@[simp] theorem ScopeRecord.sparing_no_node (ended : ScopeId → Prop) :
    ScopeRecord.sparing (fun _ => False) ended =
      fun r => { r with children := Reactive.sparing ended r.children } := by
  funext r
  simp [ScopeRecord.sparing, sparing_eq_self]

theorem Node.sparing_sparing (p q : NodeId → Prop) (n : Node β) :
    (n.sparing p).sparing q = n.sparing fun x => p x ∨ q x := by
  simp [Node.sparing, Reactive.sparing_sparing]

theorem ScopeRecord.sparing_sparing (p q : NodeId → Prop) (p' q' : ScopeId → Prop) (r : ScopeRecord) :
    (r.sparing p p').sparing q q' = r.sparing (fun x => p x ∨ q x) fun t => p' t ∨ q' t := by
  simp [ScopeRecord.sparing, Reactive.sparing_sparing]

namespace Graph

open scoped Classical in
/-- The second graph is the first one without some nodes and scopes. -/
structure Without (gone : Doomed → Prop) (g h : Graph β) : Prop where
  node : ∀ x, h.node? x = if gone (.node x) then none else
    (g.node? x).map (Node.sparing fun y => gone (.node y))
  scope : ∀ s, h.scope? s = if gone (.scope s) then none else
    (g.scope? s).map (ScopeRecord.sparing (fun y => gone (.node y)) fun t => gone (.scope t))
  pending : h.pending = sparing (fun y => gone (.node y)) g.pending

/-- All lists of a graph are right, but scopes may be gone from above what is still there. -/
structure Tight (g : Graph β) : Prop where
  linked : g.Linked
  listed : g.Listed
  queued : ∀ x ∈ g.pending, (g.node? x).isSome

variable {g h k : Graph β} {gone gone' : Doomed → Prop}

theorem WellFormed.tight (hg : g.WellFormed) : g.Tight where
  linked := hg.linked
  listed := hg.listed
  queued x hx := by
    obtain ⟨n, hn, -⟩ := hg.queued x hx
    simp [hn]

/-! ## Graphs without some parts -/

theorem Without.congr (hw : Without gone g h) (same : ∀ d, gone d ↔ gone' d) : Without gone' g h := by
  obtain rfl : gone = gone' := funext fun d => propext (same d)
  exact hw

theorem Without.trans (hw : Without gone g h) (hw' : Without gone' h k) :
    Without (fun d => gone d ∨ gone' d) g k where
  node x := by
    rw [hw'.node, hw.node]
    by_cases hx : gone (.node x) <;> by_cases hx' : gone' (.node x) <;>
      simp [hx, hx', Function.comp_def, Node.sparing_sparing]
  scope s := by
    rw [hw'.scope, hw.scope]
    by_cases hs : gone (.scope s) <;> by_cases hs' : gone' (.scope s) <;>
      simp [hs, hs', Function.comp_def, ScopeRecord.sparing_sparing]
  pending := by rw [hw'.pending, hw.pending, sparing_sparing]

theorem Without.node_eq_some (hw : Without gone g h) {x : NodeId} {m : Node β} :
    h.node? x = some m ↔
      ¬gone (.node x) ∧ ∃ n, g.node? x = some n ∧ n.sparing (fun y => gone (.node y)) = m := by
  rw [hw.node]
  split <;> simp_all

theorem Without.scope_eq_some (hw : Without gone g h) {s : ScopeId} {r : ScopeRecord} :
    h.scope? s = some r ↔ ¬gone (.scope s) ∧ ∃ r₀, g.scope? s = some r₀ ∧
      r₀.sparing (fun y => gone (.node y)) (fun t => gone (.scope t)) = r := by
  rw [hw.scope]
  split <;> simp_all

theorem Without.owns (hw : Without gone g h) {s : ScopeId} {x : NodeId} :
    h.Owns s x ↔ g.Owns s x ∧ ¬gone (.node x) := by
  constructor
  · rintro ⟨m, hm, howner⟩
    obtain ⟨hx, n, hn, rfl⟩ := hw.node_eq_some.1 hm
    exact ⟨⟨n, hn, howner⟩, hx⟩
  · rintro ⟨⟨n, hn, howner⟩, hx⟩
    exact ⟨_, hw.node_eq_some.2 ⟨hx, n, hn, rfl⟩, howner⟩

theorem Without.above (hw : Without gone g h) {s t : ScopeId} :
    h.Above s t ↔ g.Above s t ∧ ¬gone (.scope t) := by
  constructor
  · rintro ⟨m, hm, hparent⟩
    obtain ⟨hx, n, hn, rfl⟩ := hw.scope_eq_some.1 hm
    exact ⟨⟨n, hn, hparent⟩, hx⟩
  · rintro ⟨⟨n, hn, hparent⟩, hx⟩
    exact ⟨_, hw.scope_eq_some.2 ⟨hx, n, hn, rfl⟩, hparent⟩

theorem Without.isSome_node (hw : Without gone g h) {x : NodeId} (hx : ¬gone (.node x)) :
    (h.node? x).isSome = (g.node? x).isSome := by
  rw [hw.node, if_neg hx, Option.isSome_map]

theorem Without.isSome_scope (hw : Without gone g h) {s : ScopeId} (hs : ¬gone (.scope s)) :
    (h.scope? s).isSome = (g.scope? s).isSome := by
  rw [hw.scope, if_neg hs, Option.isSome_map]

theorem Without.linked (hw : Without gone g h) (linked : g.Linked) : h.Linked where
  edge {a b n m} ha hb := by
    obtain ⟨hax, n₀, hn₀, rfl⟩ := hw.node_eq_some.1 ha
    obtain ⟨hbx, m₀, hm₀, rfl⟩ := hw.node_eq_some.1 hb
    simp [Node.sparing, mem_sparing, hax, hbx, linked.edge hn₀ hm₀]
  source_live {a b n} ha hb := by
    obtain ⟨-, n₀, hn₀, rfl⟩ := hw.node_eq_some.1 ha
    obtain ⟨hb, hbx⟩ := mem_sparing.1 hb
    rw [hw.isSome_node hbx]
    exact linked.source_live hn₀ hb
  subscriber_live {a b n} ha hb := by
    obtain ⟨-, n₀, hn₀, rfl⟩ := hw.node_eq_some.1 ha
    obtain ⟨hb, hbx⟩ := mem_sparing.1 hb
    rw [hw.isSome_node hbx]
    exact linked.subscriber_live hn₀ hb

theorem Without.listed (hw : Without gone g h) (listed : g.Listed) : h.Listed where
  nodes {s r} hr := by
    obtain ⟨-, r₀, hr₀, rfl⟩ := hw.scope_eq_some.1 hr
    obtain ⟨hnodup, hmem⟩ := listed.nodes hr₀
    exact ⟨hnodup.filter _, fun x => by rw [ScopeRecord.sparing, mem_sparing, hmem, hw.owns]⟩
  children {s r} hr := by
    obtain ⟨-, r₀, hr₀, rfl⟩ := hw.scope_eq_some.1 hr
    obtain ⟨hnodup, hmem⟩ := listed.children hr₀
    exact ⟨hnodup.filter _, fun t => by rw [ScopeRecord.sparing, mem_sparing, hmem, hw.above]⟩

theorem Without.tight (hw : Without gone g h) (tight : g.Tight) : h.Tight where
  linked := hw.linked tight.linked
  listed := hw.listed tight.listed
  queued x hx := by
    obtain ⟨hx, hgone⟩ := mem_sparing.1 (hw.pending ▸ hx)
    rw [hw.isSome_node hgone]
    exact tight.queued x hx

/-- What goes with a scope goes as a whole. -/
structure Downward (gone : Doomed → Prop) (g : Graph β) : Prop where
  child : ∀ {s t : ScopeId}, gone (.scope s) → g.Above s t → gone (.scope t)
  owned : ∀ {s : ScopeId} {x : NodeId}, gone (.scope s) → g.Owns s x → gone (.node x)

theorem WellFormed.without (hg : g.WellFormed) (hw : Without gone g h) (down : Downward gone g) :
    h.WellFormed where
  linked := hw.linked hg.linked
  signals {x m} hm hs := by
    obtain ⟨-, n, hn, rfl⟩ := hw.node_eq_some.1 hm
    simp [Node.sparing, hg.signals hn hs, sparing]
  effects {x m} hm hs := by
    obtain ⟨-, n, hn, rfl⟩ := hw.node_eq_some.1 hm
    simp [Node.sparing, hg.effects hn hs, sparing]
  queued x hx := by
    obtain ⟨hx, hgone⟩ := mem_sparing.1 (hw.pending ▸ hx)
    obtain ⟨n, hn, hs⟩ := hg.queued x hx
    exact ⟨_, hw.node_eq_some.2 ⟨hgone, n, hn, rfl⟩, hs⟩
  listed := hw.listed hg.listed
  owner_live {s x} hx := by
    obtain ⟨hx, hgone⟩ := hw.owns.1 hx
    rw [hw.isSome_scope fun hs => hgone (down.owned hs hx)]
    exact hg.owner_live hx
  parent_live {s t} ht := by
    obtain ⟨ht, hgone⟩ := hw.above.1 ht
    rw [hw.isSome_scope fun hs => hgone (down.child hs ht)]
    exact hg.parent_live ht
  forest := Subrelation.wf (fun ht => (hw.above.1 ht).1) hg.forest

/-! ## One step of a removal -/

theorem scopes_removeNode {id : NodeId} {n : Node β} (found : g.node? id = some n) :
    (g.removeNode id).scopes = match n.owner with
      | some owner => g.scopes.modify owner fun s => { s with nodes := s.nodes.filter (· ≠ id) }
      | none => g.scopes := by
  unfold removeNode
  simp only [found]
  cases n.owner <;> simp [modifyScope, scopes_foldl_modifyNode]

theorem scope?_removeNode (listed : g.Listed) (id : NodeId) (s : ScopeId) :
    (g.removeNode id).scope? s =
      (g.scope? s).map fun r => { r with nodes := r.nodes.filter (· ≠ id) } := by
  have hkept {r : ScopeRecord} (hr : g.scope? s = some r) (hx : ¬g.Owns s id) :
      r.nodes.filter (· ≠ id) = r.nodes :=
    List.filter_eq_self.2 fun y hy => decide_eq_true fun heq => hx (heq ▸ ((listed.nodes hr).2 y).1 hy)
  cases hn : g.node? id with
  | none =>
    have hsame : g.removeNode id = g := by simp [removeNode, hn]
    rw [hsame]
    cases hr : g.scope? s with
    | none => rfl
    | some r => rw [Option.map_some, hkept hr (by simp [Owns, hn])]
  | some n =>
    rw [scope?, scopes_removeNode hn]
    have hother (hne : n.owner ≠ some s) : g.scope? s =
        (g.scope? s).map fun r => { r with nodes := r.nodes.filter (· ≠ id) } := by
      cases hr : g.scope? s with
      | none => rfl
      | some r => rw [Option.map_some, hkept hr (by simp [Owns, hn, hne])]
    cases howner : n.owner with
    | none => exact hother (by simp [howner])
    | some owner =>
      dsimp only
      rw [Arena.get?_modify]
      split
      next hs => rfl
      next hs => exact hother (by simpa [howner] using Ne.symm hs)

theorem owner_removeNode {id x : NodeId} {n m : Node β} (hn : g.node? x = some n)
    (hm : (g.removeNode id).node? x = some m) : m.owner = n.owner := by
  rw [node?_removeNode, hn] at hm
  split at hm
  · cases hm
  · obtain rfl := Option.some.inj hm
    split
    · rfl
    · dsimp only
      split <;> split <;> rfl

theorem without_removeNode (tight : g.Tight) (id : NodeId) :
    Without (· = .node id) g (g.removeNode id) where
  node x := by
    have hsparing {n : Node β} : n.sparing (fun y => Doomed.node y = .node id) =
        { n with sources := n.sources.filter (· ≠ id), subscribers := n.subscribers.filter (· ≠ id) } := by
      simp only [Node.sparing, Doomed.node.injEq, sparing_eq_filter]
    by_cases hx : x = id
    · rw [if_pos (congrArg _ hx), node?_removeNode, if_pos hx]
    · rw [if_neg (by simpa using hx)]
      cases hm : (g.removeNode id).node? x with
      | none =>
        have hlive := isSome_removeNode (g := g) hx
        rw [hm] at hlive
        cases hn : g.node? x with
        | none => rfl
        | some n => simp [hn] at hlive
      | some m =>
        obtain ⟨-, n, hn, hkind, hfresh, hsources, hsubs⟩ := removeNode_of_ne tight.linked hm
        have howner := owner_removeNode hn hm
        obtain ⟨_, _, _, _, _⟩ := m
        rw [hn, Option.map_some, hsparing]
        exact congrArg some (by simp_all)
  scope s := by
    rw [if_neg (by simp), scope?_removeNode tight.listed]
    cases hr : g.scope? s with
    | none => rfl
    | some r => simp [ScopeRecord.sparing, sparing_eq_filter, sparing_eq_self]
  pending := by
    simp only [Doomed.node.injEq, sparing_eq_filter]
    rw [pending_removeNode]
    split
    · rfl
    next hdead =>
      have hother : ∀ y ∈ g.pending, y ≠ id := by
        rintro y hy rfl
        exact hdead (tight.queued y hy)
      exact (List.filter_eq_self.2 fun y hy => by simpa using hother y hy).symm

theorem children_spared (listed : g.Listed) {s : ScopeId} {r : ScopeRecord}
    (hr : g.scope? s = some r) {id : ScopeId} (far : ¬g.Above s id) :
    r.children.filter (· ≠ id) = r.children :=
  List.filter_eq_self.2 fun t ht => decide_eq_true fun heq =>
    far (heq ▸ ((listed.children hr).2 t).1 ht)

theorem scope?_detachScope (listed : g.Listed) {id : ScopeId} {record : ScopeRecord}
    (found : g.scope? id = some record) (s : ScopeId) :
    (g.detachScope id record).scope? s = if s = id then none else
      (g.scope? s).map fun r => { r with children := r.children.filter (· ≠ id) } := by
  have herase : ({ g with scopes := g.scopes.erase id } : Graph β).scope? s =
      if s = id then none else g.scope? s := Arena.get?_erase _ _ _
  have hother (hne : record.parent ≠ some s) : g.scope? s =
      (g.scope? s).map fun r => { r with children := r.children.filter (· ≠ id) } := by
    cases hr : g.scope? s with
    | none => rfl
    | some r => rw [Option.map_some, children_spared listed hr (by simp [Above, found, hne])]
  unfold detachScope
  cases hparent : record.parent with
  | none =>
    refine herase.trans ?_
    split
    · rfl
    · exact hother (by simp [hparent])
  | some parent =>
    refine (scope?_modifyScope _ _ _ _).trans ?_
    rw [herase]
    by_cases hid : s = id
    · simp [hid]
    · by_cases hs : s = parent
      · rw [if_pos hs, if_neg hid, if_neg hid]
      · rw [if_neg hs, if_neg hid, if_neg hid]
        exact hother (by simpa [hparent] using Ne.symm hs)

theorem without_detachScope (tight : g.Tight) {id : ScopeId} {record : ScopeRecord}
    (found : g.scope? id = some record) :
    Without (· = .scope id) g (g.detachScope id record) where
  node x := by
    rw [node?_detachScope, if_neg (by simp)]
    simp
  scope s := by
    rw [scope?_detachScope tight.listed found]
    by_cases hs : s = id <;> simp [hs, sparing_eq_filter]
  pending := by
    rw [pending_detachScope, sparing_eq_self]
    simp

/-- A scope that is gone already is missed nowhere. -/
theorem without_dead (tight : g.Tight) {id : ScopeId} (dead : g.scope? id = none) :
    Without (· = .scope id) g g where
  node x := by simp
  scope s := by
    by_cases hs : s = id
    · simp [hs, dead]
    · rw [if_neg (by simpa using hs)]
      cases hr : g.scope? s with
      | none => rfl
      | some r =>
        have hfar : ¬g.Above s id := by simp [Above, dead]
        simp only [Doomed.scope.injEq, reduceCtorEq, ScopeRecord.sparing_no_node, sparing_eq_filter,
          Option.map_some, children_spared tight.listed hr hfar]
  pending := by
    rw [sparing_eq_self]
    simp

/-! ## Whole removals -/

/-- What the removal of a list of scopes and nodes concerns. -/
inductive Condemned (g : Graph β) (work : List Doomed) : Doomed → Prop where
  | work {d : Doomed} (mem : d ∈ work) : Condemned g work d
  | child {s t : ScopeId} {r : ScopeRecord} (above : Condemned g work (.scope s))
      (found : g.scope? s = some r) (mem : t ∈ r.children) : Condemned g work (.scope t)
  | owned {s : ScopeId} {r : ScopeRecord} {x : NodeId} (owner : Condemned g work (.scope s))
      (found : g.scope? s = some r) (mem : x ∈ r.nodes) : Condemned g work (.node x)

theorem not_condemned_nil (d : Doomed) : ¬Condemned g [] d := by
  intro h
  induction h with
  | work mem => cases mem
  | child _ _ _ ih => exact ih
  | owned _ _ _ ih => exact ih

/-- Once the first of a list is gone, its members take its place. -/
theorem Without.condemned {first : Doomed} {work work' : List Doomed}
    (hw : Without (· = first) g h) (given : ∀ d ∈ work', Condemned g (first :: work) d)
    (rest : ∀ d ∈ work, d ∈ work')
    (members : ∀ s r, first = .scope s → g.scope? s = some r →
      (∀ t ∈ r.children, .scope t ∈ work') ∧ ∀ x ∈ r.nodes, .node x ∈ work') (d : Doomed) :
    d = first ∨ Condemned h work' d ↔ Condemned g (first :: work) d := by
  constructor
  · rintro (rfl | hd)
    · exact .work List.mem_cons_self
    · induction hd with
      | work mem => exact given _ mem
      | child _ found mem ih =>
        obtain ⟨-, r₀, hr₀, rfl⟩ := hw.scope_eq_some.1 found
        exact .child ih hr₀ (mem_sparing.1 mem).1
      | owned _ found mem ih =>
        obtain ⟨-, r₀, hr₀, rfl⟩ := hw.scope_eq_some.1 found
        exact .owned ih hr₀ (mem_sparing.1 mem).1
  · intro hd
    induction hd with
    | work mem => exact (List.mem_cons.1 mem).imp_right fun hmem => .work (rest _ hmem)
    | @child s t r _ found mem ih =>
      rcases ih with hs | hs
      · exact .inr (.work ((members s r hs.symm found).1 t mem))
      · by_cases hfirst : Doomed.scope s = first
        · exact .inr (.work ((members s r hfirst.symm found).1 t mem))
        by_cases ht : Doomed.scope t = first
        · exact .inl ht
        exact .inr (.child hs (hw.scope_eq_some.2 ⟨hfirst, r, found, rfl⟩) (mem_sparing.2 ⟨mem, ht⟩))
    | @owned s r x _ found mem ih =>
      rcases ih with hs | hs
      · exact .inr (.work ((members s r hs.symm found).2 x mem))
      · by_cases hfirst : Doomed.scope s = first
        · exact .inr (.work ((members s r hfirst.symm found).2 x mem))
        by_cases hx : Doomed.node x = first
        · exact .inl hx
        exact .inr (.owned hs (hw.scope_eq_some.2 ⟨hfirst, r, found, rfl⟩) (mem_sparing.2 ⟨mem, hx⟩))

/-- A removal removes exactly what is condemned. -/
theorem without_remove (tight : g.Tight) (work : List Doomed) :
    Without (Condemned g work) g (g.remove work) := by
  induction g, work using remove.induct with
  | case1 g =>
    rw [remove]
    exact ⟨fun x => by simp [not_condemned_nil],
      fun s => by simp [not_condemned_nil, sparing_eq_self],
      (sparing_eq_self fun x _ => not_condemned_nil _).symm⟩
  | case2 g id work ih =>
    rw [remove]
    have hfirst := without_removeNode tight id
    refine (hfirst.trans (ih (hfirst.tight tight))).congr (hfirst.condemned ?_ (fun _ hd => hd) ?_)
    · exact fun d hd => .work (List.mem_cons_of_mem _ hd)
    · rintro s r ⟨⟩
  | case3 g id work h ih =>
    rw [remove]
    split
    · have hfirst := without_dead tight h
      refine (hfirst.trans (ih tight)).congr (hfirst.condemned ?_ (fun _ hd => hd) ?_)
      · exact fun d hd => .work (List.mem_cons_of_mem _ hd)
      · rintro s r ⟨⟩ found
        exact absurd (h.symm.trans found) (by simp)
    next record h' => simp [h] at h'
  | case4 g id work record h ih =>
    rw [remove]
    split
    next h' => simp [h] at h'
    next record' h' =>
      obtain rfl := Option.some.inj (h.symm.trans h')
      have hfirst := without_detachScope tight h
      refine (hfirst.trans (ih (hfirst.tight tight))).congr (hfirst.condemned ?_ ?_ ?_)
      · intro d hd
        have hid : Condemned g (.scope id :: work) (.scope id) := .work List.mem_cons_self
        simp only [List.mem_append, List.mem_map] at hd
        rcases hd with (⟨t, ht, rfl⟩ | ⟨x, hx, rfl⟩) | hd
        · exact .child hid h ht
        · exact .owned hid h hx
        · exact .work (List.mem_cons_of_mem _ hd)
      · exact fun d hd => List.mem_append_right _ hd
      · rintro s r ⟨⟩ found
        obtain rfl := Option.some.inj (h.symm.trans found)
        exact ⟨fun t ht => by simp [ht], fun x hx => by simp [hx]⟩

/-- The second scope is the first one or below it. -/
def Within (g : Graph β) : ScopeId → ScopeId → Prop := Relation.ReflTransGen g.Above

/-- What goes with a scope. -/
def Takes (g : Graph β) (s : ScopeId) : Doomed → Prop
  | .scope t => g.Within s t
  | .node x => ∃ t, g.Within s t ∧ g.Owns t x

theorem WellFormed.condemned_iff (hg : g.WellFormed) (s : ScopeId) (d : Doomed) :
    Condemned g [.scope s] d ↔ g.Takes s d := by
  have hscope {t : ScopeId} (ht : g.Within s t) : Condemned g [.scope s] (.scope t) := by
    induction ht with
    | refl => exact .work (List.mem_singleton.2 rfl)
    | tail _ habove ih =>
      obtain ⟨r, hr⟩ := Option.isSome_iff_exists.1 (hg.parent_live habove)
      exact .child ih hr (((hg.listed.children hr).2 _).2 habove)
  constructor
  · intro hd
    induction hd with
    | work mem =>
      obtain rfl := List.mem_singleton.1 mem
      exact .refl
    | child _ found mem ih => exact ih.tail (((hg.listed.children found).2 _).1 mem)
    | owned _ found mem ih => exact ⟨_, ih, ((hg.listed.nodes found).2 _).1 mem⟩
  · cases d with
    | scope t => exact hscope
    | node x =>
      rintro ⟨t, ht, howns⟩
      obtain ⟨r, hr⟩ := Option.isSome_iff_exists.1 (hg.owner_live howns)
      exact .owned (hscope ht) hr (((hg.listed.nodes hr).2 _).2 howns)

/-- What is condemned includes what is within it. -/
theorem WellFormed.downward (hg : g.WellFormed) (work : List Doomed) :
    Downward (Condemned g work) g where
  child {s t} hs ht := by
    obtain ⟨r, hr⟩ := Option.isSome_iff_exists.1 (hg.parent_live ht)
    exact .child hs hr (((hg.listed.children hr).2 t).2 ht)
  owned {s x} hs hx := by
    obtain ⟨r, hr⟩ := Option.isSome_iff_exists.1 (hg.owner_live hx)
    exact .owned hs hr (((hg.listed.nodes hr).2 x).2 hx)

/-- The removal of a scope removes exactly what goes with it. -/
theorem WellFormed.without_removeScope (hg : g.WellFormed) (s : ScopeId) :
    Without (g.Takes s) g (g.removeScope s) :=
  (without_remove hg.tight _).congr (hg.condemned_iff s)

theorem WellFormed.remove (hg : g.WellFormed) (work : List Doomed) : (g.remove work).WellFormed :=
  hg.without (without_remove hg.tight work) (hg.downward work)

/-! ## What was removed stays away -/

theorem lasts_removeNode (tight : g.Tight) (id : NodeId) : g.Lasts (g.removeNode id) where
  spent hx := hx.removeNode id
  ended {s} hs := by
    cases hn : g.node? id with
    | none => simpa [removeNode, hn] using hs
    | some n =>
      rw [Ended, scopes_removeNode hn]
      split
      · exact Arena.Spent.modify hs _ _
      · exact hs
  node {x n} hn := by
    by_cases hx : x = id
    · subst hx
      exact .inl (spent_removeNode hn)
    · exact .inr ⟨_, (without_removeNode tight id).node_eq_some.2 ⟨by simpa using hx, n, hn, rfl⟩, rfl⟩
  scope hs := .inr (by rwa [(without_removeNode tight id).isSome_scope (by simp)])

theorem lasts_detachScope (g : Graph β) {id : ScopeId} {record : ScopeRecord}
    (found : g.scope? id = some record) : g.Lasts (g.detachScope id record) := by
  have herase : g.Lasts { g with scopes := g.scopes.erase id } := by
    refine ⟨fun hx => hx, fun hs => Arena.Spent.erase hs id, fun hn => .inr ⟨_, hn, rfl⟩, fun {s} hs => ?_⟩
    by_cases hid : s = id
    · subst hid
      exact .inl (Arena.spent_erase found)
    · refine .inr ?_
      rw [scope?, Arena.get?_erase, if_neg hid]
      exact hs
  unfold detachScope
  dsimp only
  split
  · exact herase.trans (lasts_modifyScope _ _ _)
  · exact herase

theorem lasts_remove (tight : g.Tight) (work : List Doomed) : g.Lasts (g.remove work) :=
  (remove_induct (motive := fun h => h.Tight ∧ g.Lasts h) g work ⟨tight, .refl g⟩
    (fun id ⟨tight, hl⟩ =>
      ⟨(without_removeNode tight id).tight tight, hl.trans (lasts_removeNode tight id)⟩)
    fun found ⟨tight, hl⟩ =>
      ⟨(without_detachScope tight found).tight tight, hl.trans (lasts_detachScope _ found)⟩).2

end Graph

end LiveTemplate.Reactive
