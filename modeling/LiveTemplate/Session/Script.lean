import LiveTemplate.Session.Action
import LiveTemplate.Session.Workspace

/-!
# What actions do

Each action is a program over the graph and the workspace. A name is bound only after what it names
has been made, so the first run of an effect does not see the effect's own name.
-/
namespace LiveTemplate.Session

open Reactive

abbrev Script := Program Workspace

namespace Script

/-- The thing of a name. -/
def withThing (name : String) (next : Thing → Script) : Script :=
  .consult fun w =>
    match w.names.get? name with
    | some thing => next thing
    | none => .fail (.unknownName name)

def withCell (name : String) (next : Cell → Script) : Script :=
  withThing name fun thing =>
    match thing.cell? with
    | some cell => next cell
    | none => .fail (.unknownName name)

def withSignal (name : String) (next : NodeId → Script) : Script :=
  withThing name fun
    | .signal id => next id
    | _ => .fail (.unknownName name)

def withComputed (name : String) (next : NodeId → Script) : Script :=
  withThing name fun
    | .computed id => next id
    | _ => .fail (.unknownName name)

def withScope (name : String) (next : ScopeId → Script) : Script :=
  withThing name fun
    | .scope id => next id
    | _ => .fail (.unknownName name)

def withScope? (name : Option String) (next : Option ScopeId → Script) : Script :=
  match name with
  | some name => withScope name fun id => next (some id)
  | none => next none

/-- The index of a feed or of a sink. -/
def withIndex (table : Workspace → Table Nat) (name : String) (next : Nat → Script) : Script :=
  .consult fun w =>
    match (table w).get? name with
    | some index => next index
    | none => .fail (.unknownName name)

def nothing : Script := .pure .undefined

def record (event : Event) (next : Script) : Script :=
  .adjust (Workspace.record event) next

/-- Binds a name to what was made and yields a value, or passes a failure on. -/
def defineMade {α : Type} (name : String) (thing : α → Thing) (value : α → Script) :
    Except Fault α → Script
  | .ok made => .adjust (Workspace.define name (thing made)) (value made)
  | .error fault => .fail fault

mutual

/-- Builds the value of a term, inner values first. -/
def ofTerm : Term → Script
  | .undefined => .pure .undefined
  | .null => .pure .null
  | .bool b => .pure (.bool b)
  | .number n => .pure (.number n)
  | .text s => .pure (.text s)
  | .array items => ofItems items [] Program.newArray
  | .object fields => ofFields fields [] Program.newObject
  | .cell content =>
    (ofTerm content).bind fun v => .newSignal v fun id => .pure (.signal id)
  | .ref name =>
    withThing name fun thing =>
      match thing.value? with
      | some value => .pure value
      | none => .fail (.unknownName name)

def ofItems (items : List Term) (known : List Value) (next : List Value → Script) : Script :=
  match items with
  | [] => next known
  | t :: rest => (ofTerm t).bind fun v => ofItems rest (known ++ [v]) next

def ofFields (fields : List (String × Term)) (known : Fields) (next : Fields → Script) : Script :=
  match fields with
  | [] => next known
  | (key, t) :: rest => (ofTerm t).bind fun v => ofFields rest (known.set key v) next

end

/-- The context of an action: its own, or an object of all named values. -/
def withContext (context : Option Term) (next : Value → Script) : Script :=
  match context with
  | some term => (ofTerm term).bind next
  | none => .consult fun w => (Program.newObject w.contextFields).bind next

/-- The template of a source, through the cache. -/
def withTemplate (source : String) (next : Template → Script) : Script :=
  .consult fun w =>
    .adjust (fun w => { w with cache := (w.cache.get source).2 })
      (match (w.cache.get source).1 with
        | .ok made => next made.template
        | .error e => .fail (.template e))

/-- The body of a named computed: it reports its runs; a malformed template is reported too, and is
not its result. -/
def computedBody (name : String) (body : Script) : Script :=
  record (.run name) <| body.handle fun
    | .error (.template e) => record (.fail name (.template e)) nothing
    | outcome => .done outcome

/-- The body of a named effect: it reports its runs and its failures. -/
def effectBody (name : String) (body : Script) : Script :=
  record (.run name) <| body.handle fun
    | .ok _ => nothing
    | .error fault => record (.fail name fault) nothing

/-- The sink of a recording. -/
def recorder (name : String) (index : Nat) (value : Value) : Script :=
  .adjust (fun w => (w.recordAt index value).recordValue (.apply name) value) nothing

/-- Opens a recording and goes on with its sink. -/
def withRecorder (name : String) (next : (Value → Script) → Script) : Script :=
  .consult fun w =>
    .adjust (Workspace.openRecording name) (next (recorder name w.recordings.size))

/-- The number of nodes that a scope owns. -/
def ownedCount (owner : ScopeId) : Script :=
  .inspect fun view => .pure (.number (Float.ofNat ((view.scope? owner).getD 0)))

def number (n : Nat) : Value := .number (Float.ofNat n)

/-- What a recording holds. -/
def reportRecording (values : List Value) : Script :=
  (Program.newArray values).bind fun all =>
    (Program.newArray (values.map fun v => .text v.toText)).bind fun texts =>
      Program.newObject
        [("values", all), ("strings", texts), ("last", values.getLast?.getD .undefined),
          ("len", number values.length), ("empty", .bool values.isEmpty)]

/-- One poll takes what is queued, then what was queued meanwhile, for at most so many turns. -/
def maxTurns : Nat := 1000000

/-- Passes the queue of a feed on, again and again until it is empty. -/
def pollTurns (index : Nat) (signal : NodeId) (owner : ScopeId) (count : Nat) : Nat → Script
  | 0 => .adjust (Workspace.modifyFeed index fun f => { f with stage := .waiting count })
      (.pure (.text "pending"))
  | turns + 1 =>
    .consult fun w =>
      match w.feeds[index]? with
      | none => nothing
      | some feed =>
        if feed.queue.isEmpty then
          if feed.isOpen then
            .adjust (Workspace.modifyFeed index fun f => { f with stage := .waiting count })
              (.pure (.text "pending"))
          else .adjust (Workspace.modifyFeed index Feed.finish) (.pure (number count))
        else
          .adjust (Workspace.modifyFeed index fun f => { f with queue := [] }) <|
            Feed.pipe owner signal count feed.queue fun
              | .written count => pollTurns index signal owner count turns
              | .disowned count =>
                .adjust (Workspace.modifyFeed index Feed.finish) (.pure (number count))
              | .failed fault => .adjust (Workspace.modifyFeed index Feed.finish) (.fail fault)

def poll (index : Nat) : Script :=
  .consult fun w =>
    match w.feeds[index]? with
    | some ⟨signal, owner, _, _, .waiting count⟩ =>
      .adjust (Workspace.modifyFeed index fun f => { f with stage := .passing })
        (pollTurns index signal owner count maxTurns)
    | _ => .pure (.text "finished")

def subscriberCount (view : GraphView) (id : NodeId) : String × Value :=
  ("subs", number (((view.node? id).map (·.subscribers)).getD 0))

def sourceCount (view : GraphView) (id : NodeId) : String × Value :=
  ("sources", number (((view.node? id).map (·.sources)).getD 0))

def isDisposed (view : GraphView) (id : NodeId) : Bool :=
  (view.node? id).isNone

/-- What can be said about a thing. -/
def infoFields (view : GraphView) : Thing → Fields
  | .plain value => [("type", .text value.typeName)]
  | .signal id => [subscriberCount view id]
  | .computed id =>
    [subscriberCount view id, sourceCount view id, ("disposed", .bool (isDisposed view id))]
  | .effect id => [sourceCount view id, ("disposed", .bool (isDisposed view id))]
  | .scope id =>
    [("nodes", number ((view.scope? id).getD 0)), ("disposed", .bool (view.scope? id).isNone)]
  | .attachment id => [("attached", .bool !isDisposed view id)]

/-- The text of a key: slots count from one, and a generation takes two numbers. -/
def keyText {realm : Realm} (key : Key realm) : String :=
  toString (key.slot + 1) ++ "v" ++ toString (2 * key.generation + 1)

/-- The form of a node handle. -/
def nodeText (type : String) (id : NodeId) : String :=
  type ++ " \x7b id: NodeId(" ++ keyText id ++ ") \x7d"

def thingText : Thing → Option String
  | .plain _ => none
  | .signal id => some (nodeText "Signal" id)
  | .computed id => some (nodeText "Computed" id)
  | .effect id => some (nodeText "Effect" id)
  | .scope id => some ("Scope \x7b id: ScopeId(" ++ keyText id ++ ") \x7d")
  | .attachment id => some ("Attachment \x7b effect: " ++ nodeText "Effect" id ++ " \x7d")

mutual

def ofAction : Action → Script
  | .value term => ofTerm term
  | .variable name => ofTerm (.ref name)
  | .get name => withCell name Program.get
  | .peek name => withCell name Program.peek
  | .unwrap operand => (ofAction operand).bind Program.settle
  | .eval source context =>
    match Expr.parse source with
    | .ok e => withContext context fun c => e.evaluate c
    | .error e => .fail (.template e)
  | .resolve path context => withContext context (Path.resolveText path)
  | .render source context => withContext context (Template.renderOnce source)
  | .evaluate source context => withContext context (Template.evaluateOnce source)
  | .binary op left right =>
    (ofAction left).bind fun l => (ofAction right).bind fun r => .pure (Value.binary op l r)
  | .log operand =>
    (ofAction operand).bind fun v => .adjust (Workspace.recordValue .log v) (.pure v)
  | .choose condition whenTrue whenFalse =>
    (ofAction condition).bind fun c => if c.isTruthy then ofBody whenTrue else ofBody whenFalse
  | .attempt body rescue =>
    (ofBody body).handle fun
      | .ok v => .pure v
      | .error fault => record (.caught fault) (ofBody rescue)
  | .fail error => .fail (.reactive error)
  | .untrack body => .untrack (ofBody body) .done
  | .batch body => .batch (ofBody body) .done
  | .define name operand =>
    (ofAction operand).bind fun v => .adjust (Workspace.define name (.plain v)) (.pure v)
  | .signal name operand =>
    (ofAction operand).bind fun v => .newSignal v fun id =>
      .adjust (Workspace.define name (.signal id)) (.pure (.signal id))
  | .foreign name slot =>
    .adjust (Workspace.define name (.signal ⟨slot, 0⟩)) (.pure (.signal ⟨slot, 0⟩))
  | .computed name body owner =>
    withScope? owner fun owner =>
      .newComputed owner (computedBody name (ofBody body)) <|
        defineMade name .computed fun id => .pure (.computed id)
  | .effect name owner body =>
    withScope owner fun owner =>
      .newEffect owner (effectBody name (ofBody body)) (defineMade name .effect fun _ => nothing)
  | .scope name parent =>
    withScope? parent fun parent => .newScope parent (defineMade name .scope fun _ => nothing)
  | .set name operand =>
    (ofAction operand).bind fun v => withSignal name fun id => Program.set id v
  | .update name op operand =>
    (ofAction operand).bind fun v => withSignal name fun id =>
      Program.update id fun current => Value.binary op current v
  | .dispose name =>
    withThing name fun
      | .computed id | .effect id | .attachment id => .disposeNode id nothing
      | .scope id => .disposeScope id nothing
      | .plain _ | .signal _ => .fail (.unknownName name)
  | .bind name binding owner =>
    withTemplate binding.source fun template =>
      withContext binding.context fun context =>
        withScope? owner fun owner =>
          Binding.bind binding.kind template context owner <|
            defineMade name .computed fun id => .pure (.computed id)
  | .attach name computed owner =>
    withComputed computed fun computed =>
      withScope owner fun owner =>
        withRecorder name fun sink =>
          Binding.attach computed owner sink <|
            defineMade name .attachment fun _ => ownedCount owner
  | .bindTo name binding owner =>
    withTemplate binding.source fun template =>
      withContext binding.context fun context =>
        withScope owner fun owner =>
          withRecorder name fun sink =>
            Binding.bindTo binding.kind template context owner sink <|
              defineMade name .attachment fun _ => ownedCount owner
  | .sink name clear =>
    withIndex Workspace.sinkNames name fun index =>
      .adjust (if clear then Workspace.clearRecording index else id) <|
        .consult fun w => reportRecording (w.recordings[index]?.getD [])
  | .feed name signal owner =>
    withSignal signal fun signal =>
      withScope owner fun owner =>
        .adjust (Workspace.openFeed name ⟨signal, owner, [], true, .waiting 0⟩) nothing
  | .send name operand =>
    (ofAction operand).bind fun v =>
      withIndex Workspace.feedNames name fun index =>
        .consult fun w =>
          .adjust (Workspace.modifyFeed index (Feed.send v))
            (.pure (.bool (w.feeds[index]?.any Feed.accepts)))
  | .close name =>
    withIndex Workspace.feedNames name fun index =>
      .adjust (Workspace.modifyFeed index Feed.close) nothing
  | .poll name => withIndex Workspace.feedNames name poll
  | .info name =>
    withThing name fun thing => .inspect fun view => Program.newObject (infoFields view thing)
  | .debug none => .inspect fun view => .pure (.text view.describe)
  | .debug (some name) =>
    withThing name fun thing =>
      match thingText thing with
      | some text => .pure (.text text)
      | none => .fail (.unknownName name)

/-- A body yields the value of its last action and stops at the first failure. -/
def ofBody : List Action → Script
  | [] => nothing
  | [action] => ofAction action
  | action :: next :: rest => (ofAction action).bind fun _ => ofBody (next :: rest)

end

end Script

end LiveTemplate.Session
