import LiveTemplate.Feed
import LiveTemplate.Session.Shown
import LiveTemplate.Template.Cache

/-!
# The workspace of a session

What a session keeps beside the graph: names, the cache of templates, the recordings of its sinks,
its feeds, and the events of the current step.
-/
namespace LiveTemplate.Session

open Reactive

/-- What a name can stand for. -/
inductive Thing where
  | plain (value : Value)
  | signal (id : NodeId)
  | computed (id : NodeId)
  | effect (id : NodeId)
  | scope (id : ScopeId)
  /-- The effect that feeds a sink. -/
  | attachment (id : NodeId)

/-- The value that a thing is in a context, if it is one. -/
def Thing.value? : Thing → Option Value
  | plain value => some value
  | signal id => some (.signal id)
  | computed id => some (.computed id)
  | effect _ | scope _ | attachment _ => none

/-- The cell that a thing is, if it is one. -/
def Thing.cell? : Thing → Option Cell
  | signal id => some ⟨.signal, id⟩
  | computed id => some ⟨.computed, id⟩
  | _ => none

/-- What happened in the course of a step. -/
inductive Event where
  | log (value : Shown)
  /-- The body of a computed or of an effect starts. -/
  | run (name : String)
  /-- The body of an effect failed, or that of a computed in a way that is not its result. -/
  | fail (name : String) (fault : Fault)
  | caught (fault : Fault)
  /-- A sink received a value. -/
  | apply (name : String) (value : Shown)

/-- A step reports at most so many events, and the number of the others. -/
def maxEvents : Nat := 200

structure Workspace where
  names : Table Thing
  cache : Template.Cache
  /-- The recordings, by the order of their creation; a name stands for its latest one. -/
  recordings : Array (List Value)
  sinkNames : Table Nat
  /-- The feeds, likewise. -/
  feeds : Array Feed
  feedNames : Table Nat
  /-- The first events of the step, the latest first. -/
  events : List Event
  eventCount : Nat

namespace Workspace

def empty : Workspace :=
  ⟨[], default, #[], [], #[], [], [], 0⟩

instance : Inhabited Workspace := ⟨empty⟩

def define (name : String) (thing : Thing) (w : Workspace) : Workspace :=
  { w with names := w.names.set name thing }

/-- The first name that stands for a cell. -/
def nameOf (w : Workspace) (cell : Cell) : Option String :=
  (w.names.find? fun entry => entry.2.cell? == some cell).map (·.1)

def display (w : Workspace) (value : Value) : Shown :=
  value.shown w.nameOf

/-- The values that the context holds, by name. -/
def contextFields (w : Workspace) : Fields :=
  w.names.filterMap fun (name, thing) => thing.value?.map (name, ·)

def record (event : Event) (w : Workspace) : Workspace :=
  if w.eventCount < maxEvents then
    { w with events := event :: w.events, eventCount := w.eventCount + 1 }
  else { w with eventCount := w.eventCount + 1 }

/-- Records an event about a value, which is shown with the names of the moment. -/
def recordValue (event : Shown → Event) (value : Value) (w : Workspace) : Workspace :=
  w.record (event (w.display value))

def clearEvents (w : Workspace) : Workspace :=
  { w with events := [], eventCount := 0 }

/-- Opens an empty recording under a name. -/
def openRecording (name : String) (w : Workspace) : Workspace :=
  { w with
    recordings := w.recordings.push []
    sinkNames := w.sinkNames.set name w.recordings.size }

/-- Adds a value to a recording. -/
def recordAt (index : Nat) (value : Value) (w : Workspace) : Workspace :=
  { w with recordings := w.recordings.modify index (· ++ [value]) }

def clearRecording (index : Nat) (w : Workspace) : Workspace :=
  { w with recordings := w.recordings.modify index fun _ => [] }

def openFeed (name : String) (feed : Feed) (w : Workspace) : Workspace :=
  { w with feeds := w.feeds.push feed, feedNames := w.feedNames.set name w.feeds.size }

def modifyFeed (index : Nat) (f : Feed → Feed) (w : Workspace) : Workspace :=
  { w with feeds := w.feeds.modify index f }

end Workspace

end LiveTemplate.Session
