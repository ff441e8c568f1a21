import LiveTemplate.Error
import LiveTemplate.Value

/-!
# The reactive graph

Signals, computeds and effects are nodes; an edge leads from a source to each of its subscribers and
is recorded at both ends. Scopes form a forest and own nodes, which end with them.

A write makes the direct subscribers of a signal dirty and everything behind them stale; effects met
on the way are queued. Marking stops at nodes that are stale already, and this makes it end on any
graph. The graph does not know what a body is: bodies are a parameter.
-/
namespace LiveTemplate.Reactive

/-- How far a node is behind its sources. -/
inductive Freshness where
  | clean
  /-- Something behind the sources changed; they have to be asked. -/
  | stale
  /-- A source changed; the node has to run. -/
  | dirty
  deriving DecidableEq, Repr

/-- The result of running a body. -/
abbrev Outcome := Except Fault Value

inductive NodeKind (β : Type) where
  | signal (value : Value)
  /-- A body that is running is not to be run, and its last result stands meanwhile. -/
  | computed (body : β) (running : Bool) (result : Option Outcome)
  | effect (body : β) (running : Bool)

structure Node (β : Type) where
  kind : NodeKind β
  freshness : Freshness
  sources : List NodeId
  subscribers : List NodeId
  owner : Option ScopeId

structure ScopeRecord where
  parent : Option ScopeId
  children : List ScopeId
  nodes : List NodeId

structure Graph (β : Type) where
  nodes : Arena .node (Node β)
  scopes : Arena .scope ScopeRecord
  /-- The queued effects, the next one first. -/
  pending : List NodeId

variable {β : Type}

/-- Adds to the end of a list what it does not hold yet. -/
def enlist {α : Type} [DecidableEq α] (x : α) (xs : List α) : List α :=
  if x ∈ xs then xs else xs ++ [x]

theorem mem_enlist {α : Type} [DecidableEq α] {x y : α} {xs : List α} :
    y ∈ enlist x xs ↔ y = x ∨ y ∈ xs := by
  unfold enlist
  split
  next h => exact ⟨Or.inr, fun | .inl e => e ▸ h | .inr m => m⟩
  next => simp [or_comm]

theorem nodup_enlist {α : Type} [DecidableEq α] {x : α} {xs : List α} (h : xs.Nodup) :
    (enlist x xs).Nodup := by
  unfold enlist
  split
  next => exact h
  next hx =>
    refine List.nodup_append.2 ⟨h, by simp, fun a ha b hb => ?_⟩
    rintro rfl
    simp only [List.mem_cons, List.not_mem_nil, or_false] at hb
    exact hx (hb ▸ ha)

namespace Node

def isEffect (n : Node β) : Bool :=
  match n.kind with
  | .effect _ _ => true
  | _ => false

def isClean (n : Node β) : Bool :=
  n.freshness == .clean

/-- Whether a node is a computed that is not in the middle of a run. -/
def isIdleComputed (n : Node β) : Bool :=
  match n.kind with
  | .computed _ running _ => !running
  | _ => false

def withFreshness (f : Freshness) (n : Node β) : Node β :=
  { n with freshness := f }

def addSubscriber (id : NodeId) (n : Node β) : Node β :=
  { n with subscribers := enlist id n.subscribers }

def dropSubscriber (id : NodeId) (n : Node β) : Node β :=
  { n with subscribers := n.subscribers.filter (· ≠ id) }

def dropSource (id : NodeId) (n : Node β) : Node β :=
  { n with sources := n.sources.filter (· ≠ id) }

end Node

namespace Graph

def empty : Graph β := ⟨.empty, .empty, []⟩

instance : Inhabited (Graph β) := ⟨empty⟩

def node? (g : Graph β) (id : NodeId) : Option (Node β) :=
  g.nodes.get? id

def scope? (g : Graph β) (id : ScopeId) : Option ScopeRecord :=
  g.scopes.get? id

def freshness? (g : Graph β) (id : NodeId) : Option Freshness :=
  (g.node? id).map (·.freshness)

def modifyNode (g : Graph β) (id : NodeId) (f : Node β → Node β) : Graph β :=
  { g with nodes := g.nodes.modify id f }

def modifyScope (g : Graph β) (id : ScopeId) (f : ScopeRecord → ScopeRecord) : Graph β :=
  { g with scopes := g.scopes.modify id f }

def setFreshness (g : Graph β) (id : NodeId) (f : Freshness) : Graph β :=
  g.modifyNode id (Node.withFreshness f)

def enqueue (g : Graph β) (id : NodeId) : Graph β :=
  { g with pending := enlist id g.pending }

/-- Adds a node without edges. -/
def insertNode (g : Graph β) (kind : NodeKind β) (freshness : Freshness) (owner : Option ScopeId) :
    NodeId × Graph β :=
  let (id, nodes) := g.nodes.insert ⟨kind, freshness, [], [], owner⟩
  (id, { g with nodes := nodes })

/-- Adds a node that a scope owns, if the scope is live. -/
def insertOwned (g : Graph β) (kind : NodeKind β) (owner : ScopeId) : Option (NodeId × Graph β) :=
  if g.scopes.contains owner then
    let (id, g) := g.insertNode kind .dirty (some owner)
    some (id, g.modifyScope owner fun s => { s with nodes := s.nodes ++ [id] })
  else none

def insertScope (g : Graph β) : ScopeId × Graph β :=
  let (id, scopes) := g.scopes.insert ⟨none, [], []⟩
  (id, { g with scopes := scopes })

/-- Adds a scope below another, if that one is live. -/
def insertChildScope (g : Graph β) (parent : ScopeId) : Option (ScopeId × Graph β) :=
  if g.scopes.contains parent then
    let (id, scopes) := g.scopes.insert ⟨some parent, [], []⟩
    some (id, { g with scopes := scopes }.modifyScope parent fun s =>
      { s with children := s.children ++ [id] })
  else none

/-- Makes the clean nodes of a worklist stale, and all that depends on them. The subscribers of a
node come before the rest of the list, so effects are queued in depth-first order. -/
def markStale (g : Graph β) : List NodeId → Graph β
  | [] => g
  | id :: work =>
    match h : g.nodes.get? id with
    | none => g.markStale work
    | some node =>
      if hc : node.isClean then
        have : ((g.setFreshness id .stale).nodes.count Node.isClean) < g.nodes.count Node.isClean :=
          Arena.count_modify_lt _ _ h hc rfl
        if node.isEffect then ((g.setFreshness id .stale).enqueue id).markStale work
        else (g.setFreshness id .stale).markStale (node.subscribers ++ work)
      else g.markStale work
termination_by work => (g.nodes.count Node.isClean, work.length)

/-- Makes a node dirty, and all that depends on it stale. -/
def markDirty (g : Graph β) (id : NodeId) : Graph β :=
  match g.node? id with
  | none => g
  | some node =>
    if node.freshness = .dirty then g
    else
      let g := g.setFreshness id .dirty
      if node.isEffect then g.enqueue id else g.markStale node.subscribers

/-- Records the sources of a node, and the node at its new sources only; sources that are gone are
left out. -/
def relink (g : Graph β) (id : NodeId) (sources : List NodeId) : Graph β :=
  match g.node? id with
  | none => g
  | some node =>
    let left := node.sources.filter (· ∉ sources)
    let g := left.foldl (fun g source => g.modifyNode source (Node.dropSubscriber id)) g
    let live := sources.filter fun source => g.nodes.contains source
    let g := live.foldl (fun g source => g.modifyNode source (Node.addSubscriber id)) g
    g.modifyNode id fun n => { n with sources := live }

/-- Removes a node with its edges, its place in its scope and its place in the queue. -/
def removeNode (g : Graph β) (id : NodeId) : Graph β :=
  match g.node? id with
  | none => g
  | some node =>
    let g := { g with nodes := g.nodes.erase id }
    let g := node.sources.foldl (fun g source => g.modifyNode source (Node.dropSubscriber id)) g
    let g := node.subscribers.foldl (fun g sub => g.modifyNode sub (Node.dropSource id)) g
    let g := match node.owner with
      | some owner => g.modifyScope owner fun s => { s with nodes := s.nodes.filter (· ≠ id) }
      | none => g
    { g with pending := g.pending.filter (· ≠ id) }

/-- Removes a scope from the forest, but nothing below it. -/
def detachScope (g : Graph β) (id : ScopeId) (record : ScopeRecord) : Graph β :=
  let g := { g with scopes := g.scopes.erase id }
  match record.parent with
  | some parent => g.modifyScope parent fun s => { s with children := s.children.filter (· ≠ id) }
  | none => g

/-- What is still to be removed. -/
inductive Doomed where
  | scope (id : ScopeId)
  | node (id : NodeId)

theorem size_modifyScope (g : Graph β) (id : ScopeId) (f : ScopeRecord → ScopeRecord) :
    (g.modifyScope id f).scopes.size = g.scopes.size :=
  Arena.size_modify _ _ _

theorem scopes_foldl_modifyNode (g : Graph β) (ids : List NodeId) (f : Node β → Node β) :
    (ids.foldl (fun g id => g.modifyNode id f) g).scopes = g.scopes := by
  induction ids generalizing g with
  | nil => rfl
  | cons id ids ih => exact ih _

theorem size_removeNode (g : Graph β) (id : NodeId) :
    (g.removeNode id).scopes.size = g.scopes.size := by
  unfold removeNode
  split
  next => rfl
  next node h =>
    dsimp only
    split
    next => simp [size_modifyScope, scopes_foldl_modifyNode]
    next => simp [scopes_foldl_modifyNode]

theorem size_detachScope {g : Graph β} {id : ScopeId} {record : ScopeRecord}
    (h : g.scopes.get? id = some record) :
    (g.detachScope id record).scopes.size < g.scopes.size := by
  unfold detachScope
  dsimp only
  split
  next => simpa [size_modifyScope] using Arena.size_erase_lt h
  next => exact Arena.size_erase_lt h

/-- Removes a list of scopes and nodes: a scope first, then the scopes below it, then its nodes. -/
def remove (g : Graph β) : List Doomed → Graph β
  | [] => g
  | .node id :: work => (g.removeNode id).remove work
  | .scope id :: work =>
    match h : g.scopes.get? id with
    | none => g.remove work
    | some record =>
      (g.detachScope id record).remove
        (record.children.map .scope ++ record.nodes.map .node ++ work)
termination_by work => (g.scopes.size, work.length)
decreasing_by
  · rw [size_removeNode]
    exact Prod.Lex.right _ (Nat.lt_succ_self _)
  · exact Prod.Lex.right _ (Nat.lt_succ_self _)
  · exact Prod.Lex.left _ _ (size_detachScope ‹_›)

/-- Removes a scope and all that it owns. -/
def removeScope (g : Graph β) (id : ScopeId) : Graph β :=
  g.remove [.scope id]

end Graph

end LiveTemplate.Reactive
