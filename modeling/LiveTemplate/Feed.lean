import LiveTemplate.Reactive.Program

/-!
# Feeds

A feed passes the values of a channel on to a signal, in order, as long as a scope lives. It ends
when the channel is closed and empty, when the scope was disposed before the next value, or when a
write fails.
-/
namespace LiveTemplate.Feed

open Reactive

/-- Where passing on a list of values stops. -/
inductive Progress where
  /-- All values are written, so many altogether. -/
  | written (count : Nat)
  /-- The scope was gone before the next value. -/
  | disowned (count : Nat)
  | failed (fault : Fault)

variable {σ : Type}

/-- Writes values in order, each only if the scope is live at that moment. -/
def pipe (owner : ScopeId) (signal : NodeId) (count : Nat) (values : List Value)
    (next : Progress → Program σ) : Program σ :=
  match values with
  | [] => next (.written count)
  | value :: rest =>
    .inspect fun view =>
      match view.scope? owner with
      | none => next (.disowned count)
      | some _ =>
        .write signal value fun
          | .ok () => pipe owner signal (count + 1) rest next
          | .error fault => next (.failed fault)

/-- How far a feed has come. -/
inductive Stage where
  /-- It waits for values after having written so many. -/
  | waiting (count : Nat)
  /-- It is passing values on at this moment. -/
  | passing
  | finished
  deriving DecidableEq, Repr

end LiveTemplate.Feed

namespace LiveTemplate

/-- A channel with its feed. -/
structure Feed where
  signal : NodeId
  owner : ScopeId
  queue : List Value
  /-- Whether values can still be sent. -/
  isOpen : Bool
  stage : Feed.Stage

/-- A feed takes values until it is finished or its sender is closed. -/
def Feed.accepts (f : Feed) : Bool :=
  f.isOpen && f.stage != .finished

def Feed.send (value : Value) (f : Feed) : Feed :=
  if f.accepts then { f with queue := f.queue ++ [value] } else f

def Feed.close (f : Feed) : Feed :=
  { f with isOpen := false }

/-- Nothing is kept of the values that are left over. -/
def Feed.finish (f : Feed) : Feed :=
  { f with queue := [], stage := .finished }

end LiveTemplate
