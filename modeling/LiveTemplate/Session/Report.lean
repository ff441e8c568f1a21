import LiveTemplate.Reactive.Engine
import LiveTemplate.Session.Script

/-!
# Running sessions

A session runs its actions one after the other against one engine and reports on each: the value or
failure, the number of live nodes, and the events.
-/
namespace LiveTemplate.Session

open Reactive

structure Report where
  result : Except Fault Shown
  nodes : Nat
  /-- The first events, in order. -/
  events : List Event
  /-- The number of further events. -/
  more : Nat

/-- The nesting of bodies that a session may reach. -/
def maxDepth : Nat := 1000000

def start (settings : Settings) : Engine Workspace :=
  Engine.start settings .empty

/-- What there is to say after a script. -/
def reportOf (outcome : Outcome) (e : Engine Workspace) : Report where
  result := outcome.map e.host.display
  nodes := e.graph.nodes.size
  events := e.host.events.reverse
  more := e.host.eventCount - maxEvents

/-- Runs one script and clears the events after reporting them. -/
def step (script : Script) (e : Engine Workspace) : Option (Report × Engine Workspace) :=
  (e.run maxDepth script).map fun (outcome, e) =>
    (reportOf outcome e, { e with host := e.host.clearEvents })

/-- Runs actions in order; a failure does not end the session. -/
def runFrom (e : Engine Workspace) : List Action → Option (List Report)
  | [] => some []
  | action :: rest =>
    (step (Script.ofAction action) e).bind fun (report, e) =>
      (runFrom e rest).map (report :: ·)

/-- Runs a whole session. -/
def run (settings : Settings) (actions : List Action) : Option (List Report) :=
  runFrom (start settings) actions

/-- The value or failure of one script in a new session. -/
def evaluateOnce (script : Script) : Option Outcome :=
  ((start default).run maxDepth script).map (·.1)

/-- Builds terms in one new session. -/
def valuesOf (terms : List Term) : Option Outcome :=
  evaluateOnce (Script.ofTerm (.array terms))

end LiveTemplate.Session
