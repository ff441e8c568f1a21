import LiveTemplate.Resolution
import LiveTemplate.Template
import LiveTemplate.Value.Operation

/-!
# Evaluation

Expressions are evaluated against a context, operands from left to right. The logical operators and
the conditional evaluate only the operands that decide their value. A template renders to the texts
of its parts joined; one that is a single region can also keep the value of its expression.
-/
namespace LiveTemplate

open Reactive

namespace Expr

variable {σ : Type}

mutual

def evaluate (context : Value) : Expr → Program σ
  | literal value => .pure value
  | path p => p.resolve context
  | array items => evaluateItems context items [] Program.newArray
  | object fields => evaluateFields context fields [] Program.newObject
  | unary op operand => (evaluate context operand).bind fun v => .pure (Value.unary op v)
  | binary .and left right =>
    (evaluate context left).bind fun l => if l.isTruthy then evaluate context right else .pure l
  | binary .or left right =>
    (evaluate context left).bind fun l => if l.isTruthy then .pure l else evaluate context right
  | binary op left right =>
    (evaluate context left).bind fun l =>
      (evaluate context right).bind fun r => .pure (Value.binary op l r)
  | conditional condition whenTrue whenFalse =>
    (evaluate context condition).bind fun c =>
      if c.isTruthy then evaluate context whenTrue else evaluate context whenFalse

/-- Evaluates items in order, after those that are known, and goes on with all of them. -/
def evaluateItems (context : Value) (items : List Expr) (known : List Value)
    (next : List Value → Program σ) : Program σ :=
  match items with
  | [] => next known
  | e :: rest =>
    (evaluate context e).bind fun v => evaluateItems context rest (known ++ [v]) next

/-- Evaluates fields in order; a repeated key keeps its first place and its last value. -/
def evaluateFields (context : Value) (fields : List (String × Expr)) (known : Fields)
    (next : Fields → Program σ) : Program σ :=
  match fields with
  | [] => next known
  | (key, e) :: rest =>
    (evaluate context e).bind fun v => evaluateFields context rest (known.set key v) next

end

/-- An operator that is not logical evaluates both operands. -/
theorem evaluate_eager {op : BinaryOperator} (eager : op ≠ .and ∧ op ≠ .or) (l r : Expr)
    (context : Value) : evaluate (σ := σ) context (binary op l r) = (l.evaluate context).bind fun v =>
      (r.evaluate context).bind fun w => .pure (Value.binary op v w) := by
  cases op with
  | and => exact absurd rfl eager.1
  | or => exact absurd rfl eager.2
  | _ => rw [evaluate] <;> nofun

end Expr

namespace Template

variable {σ : Type}

/-- Renders parts after a text. -/
def renderParts (context : Value) (text : String) : List Part → Program σ
  | [] => .pure (.text text)
  | .text s :: rest => renderParts context (text ++ s) rest
  | .expression _ e :: rest =>
    (e.evaluate context).bind fun v => renderParts context (text ++ v.toText) rest

/-- The text of a template. -/
def render (t : Template) (context : Value) : Program σ :=
  match t.constant? with
  | some text => .pure (.text text)
  | none => renderParts context "" t.parts

/-- The value of a template: that of its only region, else its text. -/
def evaluate (t : Template) (context : Value) : Program σ :=
  match t.pure? with
  | some e => e.evaluate context
  | none => t.render context

/-- Parses and renders a template, outside every body's dependencies. -/
def renderOnce (source : String) (context : Value) : Program σ :=
  match parse source with
  | .ok t => .untrack (t.render context) .done
  | .error e => .fail (.template e)

/-- Parses and evaluates a template, outside every body's dependencies. -/
def evaluateOnce (source : String) (context : Value) : Program σ :=
  match parse source with
  | .ok t => .untrack (t.evaluate context) .done
  | .error e => .fail (.template e)

end Template

end LiveTemplate
