import LiveTemplate.Evaluation

/-!
# Bindings

A binding is a computed that shows a template against a context; an attachment is an effect that
hands every new value of a binding to a sink. Failed values are not handed on.
-/
namespace LiveTemplate

open Reactive

/-- Where the value of a template goes. Only a property keeps the type of a single region. -/
inductive BindingKind where
  | text
  | attribute
  | property
  deriving DecidableEq, Repr

namespace Binding

variable {σ : Type}

/-- What the computed of a binding does. -/
def body (kind : BindingKind) (template : Template) (context : Value) : Program σ :=
  match template.constant? with
  | some text => .pure (.text text)
  | none =>
    match kind with
    | .text | .attribute => template.render context
    | .property => template.evaluate context

/-- Creates the computed of a binding, in a scope or on its own. -/
def bind (kind : BindingKind) (template : Template) (context : Value) (owner : Option ScopeId)
    (next : Except Fault NodeId → Program σ) : Program σ :=
  .newComputed owner (body kind template context) next

/-- What the effect of an attachment does: the sink is a change of the host for each value. -/
def delivery (computed : NodeId) (sink : Value → Program σ) : Program σ :=
  .read ⟨.computed, computed⟩ true fun
    | .ok value => sink value
    | .error _ => .pure .undefined

/-- Creates the effect of an attachment. -/
def attach (computed : NodeId) (owner : ScopeId) (sink : Value → Program σ)
    (next : Except Fault NodeId → Program σ) : Program σ :=
  .newEffect owner (delivery computed sink) next

/-- Binds a template in a scope and attaches the binding there. -/
def bindTo (kind : BindingKind) (template : Template) (context : Value) (owner : ScopeId)
    (sink : Value → Program σ) (next : Except Fault NodeId → Program σ) : Program σ :=
  bind kind template context (some owner) fun
    | .ok computed => attach computed owner sink next
    | .error fault => next (.error fault)

end Binding

end LiveTemplate
