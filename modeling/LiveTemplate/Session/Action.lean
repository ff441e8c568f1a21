import LiveTemplate.Binding
import LiveTemplate.Operator

/-!
# Actions

The language of sessions: what one step asks for. Bodies of computeds and effects are lists of
actions as well.
-/
namespace LiveTemplate.Session

/-- A value to be built; a cell is a new signal, and a reference takes what a name stands for. -/
inductive Term where
  | undefined
  | null
  | bool (value : Bool)
  | number (value : Float)
  | text (value : String)
  | array (items : List Term)
  | object (fields : List (String × Term))
  | cell (content : Term)
  | ref (name : String)

/-- A template, how it is bound, and the context if it is not the session's. -/
structure BindingSpec where
  kind : BindingKind
  source : String
  context : Option Term

inductive Action where
  | value (term : Term)
  | variable (name : String)
  | get (name : String)
  | peek (name : String)
  | unwrap (operand : Action)
  | eval (source : String) (context : Option Term)
  | resolve (path : String) (context : Option Term)
  | render (source : String) (context : Option Term)
  | evaluate (source : String) (context : Option Term)
  | binary (op : BinaryOperator) (left right : Action)
  | log (operand : Action)
  | choose (condition : Action) (whenTrue whenFalse : List Action)
  | attempt (body rescue : List Action)
  | fail (error : ReactiveError)
  | untrack (body : List Action)
  | batch (body : List Action)
  | define (name : String) (operand : Action)
  | signal (name : String) (operand : Action)
  /-- A signal handle of another graph: that of its first tenant of a slot. -/
  | foreign (name : String) (slot : Nat)
  | computed (name : String) (body : List Action) (owner : Option String)
  | effect (name : String) (owner : String) (body : List Action)
  | scope (name : String) (parent : Option String)
  | set (name : String) (operand : Action)
  | update (name : String) (op : BinaryOperator) (operand : Action)
  | dispose (name : String)
  | bind (name : String) (binding : BindingSpec) (owner : Option String)
  | attach (name : String) (computed : String) (owner : String)
  | bindTo (name : String) (binding : BindingSpec) (owner : String)
  | sink (name : String) (clear : Bool)
  | feed (name : String) (signal : String) (owner : String)
  | send (name : String) (operand : Action)
  | close (name : String)
  | poll (name : String)
  | info (name : String)
  /-- The form of a thing that names its key, or of the whole graph. -/
  | debug (name : Option String)

end LiveTemplate.Session
