import LiveTemplate.Reactive.Graph
import LiveTemplate.Reactive.Settings

/-!
# Programs over the graph

What a body does is a tree of requests to the engine, each with what to do next for every answer.
The same trees run as bodies of computeds and effects and as operations from outside. A host state
of any type stands beside the graph; only programs touch it.
-/
namespace LiveTemplate.Reactive

/-- What can be seen of a node from outside. -/
structure NodeView where
  subscribers : Nat
  sources : Nat

/-- What can be seen of the graph from outside. -/
structure GraphView where
  node? : NodeId → Option NodeView
  /-- The number of nodes that a live scope owns. -/
  scope? : ScopeId → Option Nat
  nodes : Nat
  scopes : Nat
  pending : Nat
  settings : Settings

def GraphView.describe (v : GraphView) : String :=
  "Runtime \x7b nodes: " ++ toString v.nodes ++ ", scopes: " ++ toString v.scopes ++
    ", pending: " ++ toString v.pending ++ ", config: " ++ v.settings.describe ++ " \x7d"

inductive Program (σ : Type) where
  | done (outcome : Outcome)
  /-- Reads a signal or a computed, as a dependency of the running body or not. -/
  | read (cell : Cell) (tracked : Bool) (next : Outcome → Program σ)
  /-- Follows cells, by tracked reads, to a value that is none. -/
  | unwrap (value : Value) (next : Outcome → Program σ)
  | write (signal : NodeId) (value : Value) (next : Except Fault Unit → Program σ)
  | newSignal (value : Value) (next : NodeId → Program σ)
  | newComputed (owner : Option ScopeId) (body : Program σ) (next : Except Fault NodeId → Program σ)
  | newEffect (owner : ScopeId) (body : Program σ) (next : Except Fault NodeId → Program σ)
  | newScope (parent : Option ScopeId) (next : Except Fault ScopeId → Program σ)
  | disposeNode (id : NodeId) (next : Program σ)
  | disposeScope (id : ScopeId) (next : Program σ)
  /-- Holds effects back until the body is over. -/
  | batch (body : Program σ) (next : Outcome → Program σ)
  /-- Keeps the reads of the body from being dependencies. -/
  | untrack (body : Program σ) (next : Outcome → Program σ)
  /-- An identity for a new array or object. -/
  | fresh (next : Nat → Program σ)
  | inspect (next : GraphView → Program σ)
  | consult (next : σ → Program σ)
  | adjust (change : σ → σ) (next : Program σ)

namespace Program

variable {σ : Type}

instance : Inhabited (Program σ) := ⟨done (.ok .undefined)⟩

def pure (value : Value) : Program σ := done (.ok value)

def fail (fault : Fault) : Program σ := done (.error fault)

/-- Goes on after a program, whatever its outcome. -/
def handle : Program σ → (Outcome → Program σ) → Program σ
  | done outcome, k => k outcome
  | read cell tracked next, k => read cell tracked fun r => (next r).handle k
  | unwrap value next, k => unwrap value fun r => (next r).handle k
  | write signal value next, k => write signal value fun r => (next r).handle k
  | newSignal value next, k => newSignal value fun r => (next r).handle k
  | newComputed owner body next, k => newComputed owner body fun r => (next r).handle k
  | newEffect owner body next, k => newEffect owner body fun r => (next r).handle k
  | newScope parent next, k => newScope parent fun r => (next r).handle k
  | disposeNode id next, k => disposeNode id (next.handle k)
  | disposeScope id next, k => disposeScope id (next.handle k)
  | batch body next, k => batch body fun r => (next r).handle k
  | untrack body next, k => untrack body fun r => (next r).handle k
  | fresh next, k => fresh fun i => (next i).handle k
  | inspect next, k => inspect fun v => (next v).handle k
  | consult next, k => consult fun s => (next s).handle k
  | adjust change next, k => adjust change (next.handle k)

/-- Goes on with the value of a program; a failure ends both. -/
def bind (p : Program σ) (k : Value → Program σ) : Program σ :=
  p.handle fun
    | .ok value => k value
    | .error fault => fail fault

/-- A tracked read. -/
def get (cell : Cell) : Program σ :=
  read cell true done

/-- A read that is no dependency. -/
def peek (cell : Cell) : Program σ :=
  read cell false done

/-- Follows cells to a value that is none. -/
def settle (value : Value) : Program σ :=
  unwrap value done

/-- Writes a signal; the undefined value says that it went well. -/
def set (signal : NodeId) (value : Value) : Program σ :=
  write signal value fun
    | .ok () => pure .undefined
    | .error fault => fail fault

/-- Writes a signal according to its present value. -/
def update (signal : NodeId) (change : Value → Value) : Program σ :=
  (peek ⟨.signal, signal⟩).bind fun current => set signal (change current)

/-- An array of a new identity. -/
def newArray (items : List Value) : Program σ :=
  fresh fun i => pure (.array i items)

/-- An object of a new identity. -/
def newObject (fields : Fields) : Program σ :=
  fresh fun i => pure (.object i fields)

end Program

end LiveTemplate.Reactive
