import LiveTemplate.Proofs.Reactive.Effects
import LiveTemplate.Proofs.Reactive.Writing

/-!
# Graphs with other contents

The graph moves bodies, values and outcomes about and looks into none of them, except that it asks
whether two outcomes are equal. So if each of them is replaced by another one, and equal outcomes are
replaced by equal ones (`Recasting`), then every change of the graph can be made before or after the
replacement.
-/
namespace LiveTemplate.Reactive

variable {β γ σ τ : Type}

/-- What takes the place of the contents of a graph. -/
structure Recasting (β γ : Type) where
  value : Value → Value
  outcome : Outcome → Outcome
  formula : β → γ
  watcher : β → γ
  equals : ∀ o o', (outcome o).equals (outcome o') = o.equals o'

variable (R : Recasting β γ)

theorem Recasting.differs (last : Option Outcome) (outcome : Outcome) :
    Outcome.differs (last.map R.outcome) (R.outcome outcome) = Outcome.differs last outcome := by
  cases last with
  | none => rfl
  | some old => simp [Outcome.differs, R.equals]

def NodeKind.recast : NodeKind β → NodeKind γ
  | .signal value => .signal (R.value value)
  | .computed body running last => .computed (R.formula body) running (last.map R.outcome)
  | .effect body running => .effect (R.watcher body) running

def Node.recast (n : Node β) : Node γ :=
  ⟨n.kind.recast R, n.freshness, n.sources, n.subscribers, n.owner⟩

namespace Node

@[simp] theorem kind_recast (n : Node β) : (n.recast R).kind = n.kind.recast R := rfl

@[simp] theorem freshness_recast (n : Node β) : (n.recast R).freshness = n.freshness := rfl

@[simp] theorem sources_recast (n : Node β) : (n.recast R).sources = n.sources := rfl

@[simp] theorem subscribers_recast (n : Node β) : (n.recast R).subscribers = n.subscribers := rfl

@[simp] theorem isEffect_recast (n : Node β) : (n.recast R).isEffect = n.isEffect := by
  simp only [isEffect, kind_recast]
  cases n.kind <;> rfl

@[simp] theorem isIdleComputed_recast (n : Node β) :
    (n.recast R).isIdleComputed = n.isIdleComputed := by
  simp only [isIdleComputed, kind_recast]
  cases n.kind <;> rfl

end Node

namespace Graph

def recast (g : Graph β) : Graph γ :=
  ⟨g.nodes.map (Node.recast R), g.scopes, g.pending⟩

variable (g : Graph β)

@[simp] theorem pending_recast : (g.recast R).pending = g.pending := rfl

@[simp] theorem node?_recast (id : NodeId) :
    (g.recast R).node? id = (g.node? id).map (Node.recast R) :=
  Arena.get?_map _ _ _

@[simp] theorem freshness?_recast (id : NodeId) : (g.recast R).freshness? id = g.freshness? id := by
  cases h : g.node? id <;> simp [freshness?, h]

@[simp] theorem anyIdleComputed_recast (id : NodeId) :
    ((g.recast R).node? id).any Node.isIdleComputed = (g.node? id).any Node.isIdleComputed := by
  rw [node?_recast]
  cases g.node? id with
  | none => rfl
  | some n => exact Node.isIdleComputed_recast R n

theorem shown_recast {id : NodeId} {n : Node β} (found : g.node? id = some n) :
    (g.recast R).shown id = (n.kind.recast R).shown := by
  have found' : (g.recast R).node? id = some (n.recast R) := by simp [found]
  exact shown_eq found'

/-! ## Changes -/

theorem modifyNode_recast (id : NodeId) {f : Node β → Node β} {h : Node γ → Node γ}
    (commute : ∀ n, h (n.recast R) = (f n).recast R) :
    (g.recast R).modifyNode id h = (g.modifyNode id f).recast R := by
  simp only [modifyNode, recast, Arena.modify_map _ _ _ commute]

theorem foldl_modifyNode_recast (ids : List NodeId) {f : Node β → Node β} {h : Node γ → Node γ}
    (commute : ∀ n, h (n.recast R) = (f n).recast R) :
    ids.foldl (fun g id => g.modifyNode id h) (g.recast R) =
      (ids.foldl (fun g id => g.modifyNode id f) g).recast R := by
  induction ids generalizing g with
  | nil => rfl
  | cons id ids ih =>
    rw [List.foldl_cons, List.foldl_cons, modifyNode_recast R g id commute, ih]

@[simp] theorem setFreshness_recast (id : NodeId) (f : Freshness) :
    (g.recast R).setFreshness id f = (g.setFreshness id f).recast R :=
  modifyNode_recast R g id fun _ => rfl

theorem delay_recast (id : NodeId) (f : Freshness) (effect : Bool) :
    (g.recast R).delay id f effect = (g.delay id f effect).recast R := by
  unfold delay
  rw [setFreshness_recast]
  split <;> rfl

theorem markStale_recast (work : List NodeId) :
    (g.recast R).markStale work = (g.markStale work).recast R := by
  induction g, work using markStale_induction with
  | nil g => rw [markStale, markStale]
  | mark g id n work found clean ih =>
    have found' : (g.recast R).node? id = some (n.recast R) := by simp [found]
    rw [markStale_cons_clean found clean, markStale_cons_clean found' clean, Node.isEffect_recast,
      Node.subscribers_recast, delay_recast, ih]
  | skip g id work skip ih =>
    rw [markStale_cons_skip skip, markStale_cons_skip, ih]
    intro m hm
    obtain ⟨n, hn, rfl⟩ : ∃ n, g.node? id = some n ∧ n.recast R = m := by simpa using hm
    exact skip n hn

theorem markDirty_recast (id : NodeId) :
    (g.recast R).markDirty id = (g.markDirty id).recast R := by
  simp only [markDirty, node?_recast]
  cases g.node? id with
  | none => rfl
  | some n =>
    simp only [Option.map_some, Node.freshness_recast, Node.isEffect_recast, Node.subscribers_recast,
      setFreshness_recast, markStale_recast]
    split
    · rfl
    · split <;> rfl

theorem foldl_markDirty_recast (ids : List NodeId) :
    ids.foldl markDirty (g.recast R) = (ids.foldl markDirty g).recast R := by
  induction ids generalizing g with
  | nil => rfl
  | cons id ids ih => rw [List.foldl_cons, List.foldl_cons, markDirty_recast, ih]

theorem relink_recast (id : NodeId) (sources : List NodeId) :
    (g.recast R).relink id sources = (g.relink id sources).recast R := by
  simp only [relink, node?_recast]
  cases g.node? id with
  | none => rfl
  | some n =>
    have hdrop := foldl_modifyNode_recast R g (n.sources.filter (· ∉ sources))
      (f := Node.dropSubscriber id) (h := Node.dropSubscriber id) fun _ => rfl
    simp only [Option.map_some, Node.sources_recast, hdrop]
    generalize List.foldl _ g _ = g₁
    have hlive : (fun source => (g₁.recast R).nodes.contains source) =
        fun source => g₁.nodes.contains source :=
      funext fun source => Arena.contains_map _ _ _
    rw [hlive, foldl_modifyNode_recast R g₁ _ (f := Node.addSubscriber id) (fun _ => rfl),
      modifyNode_recast R _ id (f := fun n =>
        { n with sources := sources.filter fun source => g₁.nodes.contains source }) fun _ => rfl]

/-! ## Runs -/

theorem begun_recast (id : NodeId) (kind : NodeKind β) :
    (g.recast R).begun id (kind.recast R) = (g.begun id kind).recast R :=
  modifyNode_recast R g id fun _ => rfl

theorem stored_recast (id : NodeId) (outcome : Outcome) :
    (g.recast R).stored id (R.outcome outcome) = (g.stored id outcome).recast R := by
  simp only [stored, node?_recast]
  rcases g.node? id with _ | ⟨kind, freshness, sources, subscribers, owner⟩
  · rfl
  cases kind with
  | signal => rfl
  | effect => rfl
  | computed body running last =>
    simp only [Option.map_some, Node.recast, NodeKind.recast, R.differs]
    rw [modifyNode_recast R g id (f := fun n =>
      { n with kind := .computed body false (some outcome) }) fun _ => rfl]
    split
    · refine foldl_modifyNode_recast R _ subscribers fun n => ?_
      unfold Node.wake
      rw [Node.freshness_recast]
      split <;> rfl
    · rfl

theorem finished_recast (id : NodeId) (sources : List NodeId) (outcome : Outcome) :
    (g.recast R).finished id sources (R.outcome outcome) =
      (g.finished id sources outcome).recast R := by
  rw [finished, relink_recast, stored_recast, finished]

theorem effectFinished_recast (id : NodeId) (sources : List NodeId) :
    (g.recast R).effectFinished id sources = (g.effectFinished id sources).recast R := by
  simp only [effectFinished, relink_recast]
  refine modifyNode_recast R _ id fun n => ?_
  obtain ⟨kind, _, _, _, _⟩ := n
  cases kind <;> rfl

/-! ## New nodes -/

theorem insertNode_recast (kind : NodeKind β) (freshness : Freshness) (owner : Option ScopeId) :
    (g.recast R).insertNode (kind.recast R) freshness owner =
      ((g.insertNode kind freshness owner).1, (g.insertNode kind freshness owner).2.recast R) := by
  have h := Arena.insert_map (Node.recast R) g.nodes ⟨kind, freshness, [], [], owner⟩
  simp only [insertNode, recast]
  rw [show (⟨kind.recast R, freshness, [], [], owner⟩ : Node γ) =
    Node.recast R ⟨kind, freshness, [], [], owner⟩ from rfl, h]

end Graph

/-- The same write of corresponding values. -/
theorem Graph.written_recast (R : Recasting (Program σ) (Program τ)) (g : Graph (Program σ))
    (id : NodeId) (value : Value) (subscribers : List NodeId) :
    (g.recast R).written id (R.value value) subscribers =
      (g.written id value subscribers).recast R := by
  have hvalue : (g.recast R).revalued id (R.value value) = (g.revalued id value).recast R :=
    modifyNode_recast R g id fun _ => rfl
  rw [written, hvalue, foldl_markDirty_recast, written]

end LiveTemplate.Reactive
