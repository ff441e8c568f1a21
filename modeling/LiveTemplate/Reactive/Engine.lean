import LiveTemplate.Reactive.Program

/-!
# The engine

Runs programs on a graph. A computed runs when it is read and behind its sources; a stale node first
asks its sources, and runs only if one of them changed. A write marks what depends on it and then
runs the queued effects, unless a batch is open or effects are being run already.

Running a body can run others. Each level of nesting uses up one unit of depth, and without depth
there is no answer; an answer does not depend on the depth beyond that.
-/
namespace LiveTemplate.Reactive

structure Engine (σ : Type) where
  graph : Graph (Program σ)
  /-- The cells that each running body has read, the innermost body first; an untracked region
  collects none. -/
  tracking : List (Option (List NodeId))
  batchDepth : Nat
  flushing : Bool
  settings : Settings
  /-- The number of identities given out. -/
  identities : Nat
  host : σ

/-- Equality of outcomes by content. -/
def Outcome.equals : Outcome → Outcome → Bool
  | .ok v, .ok w => v.equals w
  | .error f, .error g => f == g
  | _, _ => false

namespace Engine

variable {σ : Type}

def start (settings : Settings) (host : σ) : Engine σ :=
  ⟨.empty, [], 0, false, settings, 0, host⟩

def view (e : Engine σ) : GraphView where
  node? id := (e.graph.node? id).map fun n => ⟨n.subscribers.length, n.sources.length⟩
  scope? id := (e.graph.scope? id).map (·.nodes.length)
  nodes := e.graph.nodes.size
  scopes := e.graph.scopes.size
  pending := e.graph.pending.length
  settings := e.settings

/-- Records a read in the innermost body. -/
def track (e : Engine σ) (id : NodeId) : Engine σ :=
  match e.tracking with
  | some sources :: rest => { e with tracking := some (enlist id sources) :: rest }
  | _ => e

def trackIf (tracked : Bool) (e : Engine σ) (id : NodeId) : Engine σ :=
  if tracked then e.track id else e

/-- Starts to collect reads, or to ignore them. -/
def pushFrame (e : Engine σ) (frame : Option (List NodeId)) : Engine σ :=
  { e with tracking := frame :: e.tracking }

/-- The reads collected since the last start. -/
def collected (e : Engine σ) : List NodeId :=
  match e.tracking with
  | some sources :: _ => sources
  | _ => []

def popFrame (e : Engine σ) : Engine σ :=
  { e with tracking := e.tracking.drop 1 }

/-- Stops the work on the queue: its effects count as fresh, and the queue is empty. -/
def dropQueue (e : Engine σ) : Engine σ :=
  let graph := e.graph.pending.foldl (fun g id => g.setFreshness id .clean) e.graph
  { e with graph := { graph with pending := [] } }

/-- The next queued effect, taken off the queue. -/
def dequeue (e : Engine σ) : Option (NodeId × Engine σ) :=
  match e.graph.pending with
  | [] => none
  | id :: rest => some (id, { e with graph := { e.graph with pending := rest } })

/-- Marks the start of a run: the node counts as fresh from here on. -/
def beginRun (e : Engine σ) (id : NodeId) (kind : NodeKind (Program σ)) : Engine σ :=
  { e with
    graph := e.graph.modifyNode id fun n => { n with kind := kind, freshness := .clean } }.pushFrame
      (some [])

/-- Records the reads of a run that is over. -/
def closeRun (e : Engine σ) (id : NodeId) : Engine σ :=
  { e with graph := e.graph.relink id e.collected }.popFrame

/-- Stores the outcome of a computed; if it differs from the last one, stale subscribers have to
run. -/
def storeOutcome (e : Engine σ) (id : NodeId) (outcome : Outcome) : Engine σ :=
  match e.graph.node? id with
  | some ⟨.computed body _ last, _, _, subscribers, _⟩ =>
    let graph := e.graph.modifyNode id fun n =>
      { n with kind := .computed body false (some outcome) }
    let changed := match last with
      | some old => !old.equals outcome
      | none => true
    { e with
      graph := if changed then
          subscribers.foldl (fun g sub => g.modifyNode sub fun n =>
            if n.freshness = .stale then { n with freshness := .dirty } else n) graph
        else graph }
  | _ => e

/-- Puts the body of an effect back after its run. -/
def restEffect (e : Engine σ) (id : NodeId) : Engine σ :=
  { e with
    graph := e.graph.modifyNode id fun n =>
      match n.kind with
      | .effect body _ => { n with kind := .effect body false }
      | _ => n }

section Nested

/- How to bring a node up to date, one level of nesting further down. -/
variable (refresh : NodeId → Engine σ → Option (Engine σ))

/-- What a computed shows when it is up to date. -/
def shownOutcome (e : Engine σ) (id : NodeId) : Outcome :=
  match e.graph.node? id with
  | some ⟨.computed _ _ (some outcome), _, _, _, _⟩ => outcome
  | some ⟨.computed _ _ none, _, _, _, _⟩ => .ok .undefined
  | _ => .error (.reactive (.disposed .computed))

def readCell (cell : Cell) (tracked : Bool) (e : Engine σ) : Option (Outcome × Engine σ) :=
  match cell.kind with
  | .signal =>
    match e.graph.node? cell.node with
    | some ⟨.signal value, _, _, _, _⟩ => some (.ok value, e.trackIf tracked cell.node)
    | _ => some (.error (.reactive (.disposed .signal)), e)
  | .computed =>
    match e.graph.node? cell.node with
    | some ⟨.computed _ true _, _, _, _, _⟩ => some (.error (.reactive .cyclic), e)
    | some ⟨.computed _ false _, _, _, _, _⟩ =>
      (refresh cell.node e).map fun e =>
        (e.shownOutcome cell.node, e.trackIf tracked cell.node)
    | _ => some (.error (.reactive (.disposed .computed)), e)

/-- Follows cells by tracked reads; a node met twice is a cycle. -/
def follow : Nat → List NodeId → Value → Engine σ → Option (Outcome × Engine σ)
  | steps, visited, .cell cell, e =>
    if cell.node ∈ visited then some (.error (.reactive .cyclic), e)
    else
      match steps with
      | 0 => none
      | steps + 1 =>
        match readCell refresh cell true e with
        | none => none
        | some (.error fault, e) => some (.error fault, e)
        | some (.ok value, e) => follow steps (cell.node :: visited) value e
  | _, _, value, e => some (.ok value, e)

/-- Runs queued effects, so many at most. One more drops the queue. -/
def drain : Nat → Engine σ → Option (Bool × Engine σ)
  | runs, e =>
    match e.dequeue with
    | none => some (true, e)
    | some (id, rest) =>
      match runs with
      | 0 => some (false, e.dropQueue)
      | runs + 1 => (refresh id rest).bind (drain runs)

/-- Runs the queued effects, unless they are held back or being run. -/
def flush (e : Engine σ) : Option (Except Fault Unit × Engine σ) :=
  if e.batchDepth > 0 || e.flushing then some (.ok (), e)
  else
    (drain refresh e.settings.maxRuns { e with flushing := true }).map fun (settled, e') =>
      (if settled then .ok () else .error (.reactive (.unsettled e.settings.maxRuns)),
        { e' with flushing := false })

def writeSignal (id : NodeId) (value : Value) (e : Engine σ) :
    Option (Except Fault Unit × Engine σ) :=
  match e.graph.node? id with
  | some ⟨.signal old, _, _, subscribers, _⟩ =>
    if e.settings.writeEquality = .skipEqual && old.equals value then some (.ok (), e)
    else
      let graph := e.graph.modifyNode id fun n => { n with kind := .signal value }
      flush refresh { e with graph := subscribers.foldl Graph.markDirty graph }
  | _ => some (.error (.reactive (.disposed .signal)), e)

/-- Asks the sources of a stale node, until one has made it dirty. -/
def askSources (id : NodeId) : List NodeId → Engine σ → Option (Engine σ)
  | [], e => some e
  | source :: rest, e =>
    let idle := (e.graph.node? source).any Node.isIdleComputed
    (if idle then refresh source e else some e).bind fun e =>
      if e.graph.freshness? id = some .dirty then some e else askSources id rest e

end Nested

section Following

variable {refresh : NodeId → Engine σ → Option (Engine σ)} {e e' : Engine σ} {cell : Cell}
  {visited : List NodeId} {steps : Nat}

theorem follow_plain {value : Value} (plain : value.isReactive = false) :
    e.follow refresh steps visited value = some (.ok value, e) := by
  fun_cases follow refresh steps visited value e with
  | case6 => rfl
  | _ => cases plain

theorem follow_cell : e.follow refresh steps visited (.cell cell) =
    if cell.node ∈ visited then some (.error (.reactive .cyclic), e)
    else match steps with
      | 0 => none
      | steps + 1 => (e.readCell refresh cell true).bind fun
        | (.error fault, e') => some (.error fault, e')
        | (.ok value, e') => e'.follow refresh steps (cell.node :: visited) value := by
  cases steps with
  | zero => rw [follow]
  | succ steps =>
    rw [follow]
    split
    · rfl
    · rcases e.readCell refresh cell true with _ | ⟨_ | _, _⟩ <;> rfl

theorem follow_read {outcome : Outcome} (unmet : cell.node ∉ visited)
    (ran : e.readCell refresh cell true = some (outcome, e')) :
    e.follow refresh (steps + 1) visited (.cell cell) = match outcome with
      | .error fault => some (.error fault, e')
      | .ok value => e'.follow refresh steps (cell.node :: visited) value := by
  rw [follow_cell, if_neg unmet]
  simp only [ran, Option.bind_some]
  cases outcome <;> rfl

end Following

theorem dequeue_eq_none {e : Engine σ} : e.dequeue = none ↔ e.graph.pending = [] := by
  unfold dequeue
  split <;> simp_all

theorem dequeue_eq_some {e e' : Engine σ} {id : NodeId} (h : e.dequeue = some (id, e')) :
    ∃ rest, e.graph.pending = id :: rest ∧ e' = { e with graph := { e.graph with pending := rest } } := by
  unfold dequeue at h
  split at h
  · cases h
  next rest hpending =>
    obtain ⟨rfl, rfl⟩ := Prod.mk.inj (Option.some.inj h)
    exact ⟨rest, hpending, rfl⟩

/-- Induction on the turns of a drain. The recursive call is handed on as a function, so the one that
Lean derives from the definition has no hypothesis about it. -/
theorem drain_turns {refresh : NodeId → Engine σ → Option (Engine σ)}
    {motive : Nat → Engine σ → Option (Bool × Engine σ) → Prop}
    (empty : ∀ {runs : Nat} {e : Engine σ}, e.dequeue = none → motive runs e (some (true, e)))
    (dropped : ∀ {e rest : Engine σ} {id : NodeId}, e.dequeue = some (id, rest) →
      motive 0 e (some (false, e.dropQueue)))
    (turn : ∀ {runs : Nat} {e rest : Engine σ} {id : NodeId}, e.dequeue = some (id, rest) →
      (∀ e', motive runs e' (drain refresh runs e')) →
        motive (runs + 1) e ((refresh id rest).bind (drain refresh runs)))
    (runs : Nat) (e : Engine σ) : motive runs e (drain refresh runs e) := by
  induction runs generalizing e with
  | zero =>
    rw [drain]
    split
    next hnone => exact empty hnone
    next hsome => exact dropped hsome
  | succ runs ih =>
    rw [drain]
    split
    next hnone => exact empty hnone
    next hsome => exact turn hsome ih

end Engine

namespace Program

variable {σ : Type}

/-- Runs a program, with so much depth and a way to bring nodes up to date below. -/
def exec (depth : Nat) (refresh : NodeId → Engine σ → Option (Engine σ)) :
    Program σ → Engine σ → Option (Outcome × Engine σ)
  | done outcome, e => some (outcome, e)
  | read cell tracked next, e =>
    (e.readCell refresh cell tracked).bind fun (r, e) => (next r).exec depth refresh e
  | unwrap value next, e =>
    (e.follow refresh depth [] value).bind fun (r, e) => (next r).exec depth refresh e
  | write signal value next, e =>
    (e.writeSignal refresh signal value).bind fun (r, e) => (next r).exec depth refresh e
  | newSignal value next, e =>
    let (id, graph) := e.graph.insertNode (.signal value) .clean none
    (next id).exec depth refresh { e with graph := graph }
  | newComputed none body next, e =>
    let (id, graph) := e.graph.insertNode (.computed body false none) .dirty none
    (next (.ok id)).exec depth refresh { e with graph := graph }
  | newComputed (some owner) body next, e =>
    match e.graph.insertOwned (.computed body false none) owner with
    | none => (next (.error (.reactive (.disposed .scope)))).exec depth refresh e
    | some (id, graph) => (next (.ok id)).exec depth refresh { e with graph := graph }
  | newEffect owner body next, e =>
    match e.graph.insertOwned (.effect body false) owner with
    | none => (next (.error (.reactive (.disposed .scope)))).exec depth refresh e
    | some (id, graph) =>
      (refresh id { e with graph := graph }).bind fun e => (next (.ok id)).exec depth refresh e
  | newScope none next, e =>
    let (id, graph) := e.graph.insertScope
    (next (.ok id)).exec depth refresh { e with graph := graph }
  | newScope (some parent) next, e =>
    match e.graph.insertChildScope parent with
    | none => (next (.error (.reactive (.disposed .scope)))).exec depth refresh e
    | some (id, graph) => (next (.ok id)).exec depth refresh { e with graph := graph }
  | disposeNode id next, e =>
    next.exec depth refresh { e with graph := e.graph.removeNode id }
  | disposeScope id next, e =>
    next.exec depth refresh { e with graph := e.graph.removeScope id }
  | batch body next, e =>
    (body.exec depth refresh { e with batchDepth := e.batchDepth + 1 }).bind fun (r, e) =>
      (Engine.flush refresh { e with batchDepth := e.batchDepth - 1 }).bind fun (f, e) =>
        (next (f.bind fun () => r)).exec depth refresh e
  | untrack body next, e =>
    (body.exec depth refresh (e.pushFrame none)).bind fun (r, e) =>
      (next r).exec depth refresh e.popFrame
  | fresh next, e =>
    (next e.identities).exec depth refresh { e with identities := e.identities + 1 }
  | inspect next, e => (next e.view).exec depth refresh e
  | consult next, e => (next e.host).exec depth refresh e
  | adjust change next, e => next.exec depth refresh { e with host := change e.host }

theorem exec_handle (depth : Nat) (refresh : NodeId → Engine σ → Option (Engine σ)) (p : Program σ)
    (next : Outcome → Program σ) (e : Engine σ) : (p.handle next).exec depth refresh e =
      (p.exec depth refresh e).bind fun (o, e) => (next o).exec depth refresh e := by
  induction p generalizing e with
  | done => rfl
  | read cell tracked _ ih =>
    simp only [handle, exec, ih]
    cases e.readCell refresh cell tracked <;> rfl
  | unwrap value _ ih =>
    simp only [handle, exec, ih]
    cases e.follow refresh depth [] value <;> rfl
  | write signal value _ ih =>
    simp only [handle, exec, ih]
    cases e.writeSignal refresh signal value <;> rfl
  | newComputed owner body _ _ ih =>
    cases owner with
    | none => simp only [handle, exec, ih]
    | some owner =>
      simp only [handle, exec, ih]
      split <;> rfl
  | newEffect owner body _ _ ih =>
    simp only [handle, exec, ih]
    split
    · rfl
    next id graph _ => cases refresh id { e with graph := graph } <;> rfl
  | newScope parent _ ih =>
    cases parent with
    | none => simp only [handle, exec, ih]
    | some parent =>
      simp only [handle, exec, ih]
      split <;> rfl
  | batch body _ _ ih =>
    simp only [handle, exec, ih, Option.bind_assoc]
  | untrack body _ _ ih =>
    simp only [handle, exec, ih, Option.bind_assoc]
  | newSignal _ _ ih | disposeNode _ _ ih | disposeScope _ _ ih | fresh _ ih | inspect _ ih
  | consult _ ih | adjust _ _ ih => simp only [handle, exec, ih]

theorem exec_bind (depth : Nat) (refresh : NodeId → Engine σ → Option (Engine σ)) (p : Program σ)
    (next : Value → Program σ) (e : Engine σ) : (p.bind next).exec depth refresh e =
      (p.exec depth refresh e).bind fun
        | (.ok v, e) => (next v).exec depth refresh e
        | (.error fault, e) => some (.error fault, e) := by
  rw [bind, exec_handle]
  congr 1
  funext ⟨o, e⟩
  cases o <;> rfl

/-- Only what follows the state and the value that a program ends with matters after it. -/
theorem exec_bind_congr {depth : Nat} {refresh : NodeId → Engine σ → Option (Engine σ)} {p : Program σ}
    {e : Engine σ} {next next' : Value → Program σ}
    (same : ∀ {v e'}, p.exec depth refresh e = some (.ok v, e') →
      (next v).exec depth refresh e' = (next' v).exec depth refresh e') :
    (p.bind next).exec depth refresh e = (p.bind next').exec depth refresh e := by
  rw [exec_bind, exec_bind]
  rcases hp : p.exec depth refresh e with _ | ⟨fault | v, e'⟩
  · rfl
  · rfl
  · exact same hp

end Program

namespace Engine

variable {σ : Type}

/-- Runs the body of a node that is not running. -/
def runNode (depth : Nat) (refresh : NodeId → Engine σ → Option (Engine σ)) (id : NodeId)
    (e : Engine σ) : Option (Engine σ) :=
  match e.graph.node? id with
  | some ⟨.computed body false last, _, _, _, _⟩ =>
    (body.exec depth refresh (e.beginRun id (.computed body true last))).map fun (outcome, e) =>
      (e.closeRun id).storeOutcome id outcome
  | some ⟨.effect body false, _, _, _, _⟩ =>
    (body.exec depth refresh (e.beginRun id (.effect body true))).map fun (_, e) =>
      (e.closeRun id).restEffect id
  | _ => some e

/-- One level of bringing a node up to date. -/
def refreshOver (depth : Nat) (refresh : NodeId → Engine σ → Option (Engine σ)) (id : NodeId)
    (e : Engine σ) : Option (Engine σ) :=
  let asked : Option (Engine σ) := match e.graph.node? id with
    | some n => if n.freshness = .stale then askSources refresh id n.sources e else some e
    | none => some e
  asked.bind fun e =>
    match e.graph.freshness? id with
    | some .dirty => runNode depth refresh id e
    | some .stale => some { e with graph := e.graph.setFreshness id .clean }
    | _ => some e

/-- Brings a node up to date with so much depth. -/
def refreshWithin : Nat → NodeId → Engine σ → Option (Engine σ)
  | 0 => fun _ _ => none
  | depth + 1 => refreshOver depth (refreshWithin depth)

/-- Runs a program with so much depth. -/
def run (depth : Nat) (p : Program σ) (e : Engine σ) : Option (Outcome × Engine σ) :=
  p.exec depth (refreshWithin depth) e

end Engine

end LiveTemplate.Reactive
