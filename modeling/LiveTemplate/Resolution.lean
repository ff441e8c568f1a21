import LiveTemplate.Number.Numeral
import LiveTemplate.Path.Parser
import LiveTemplate.Reactive.Program

/-!
# Resolving paths

A path is walked from a context one segment at a time. Cells met on the way are followed, at the
start and after every step, so the result is never a cell. A member that does not exist is the
undefined value, and so is anything below a nullish value.
-/
namespace LiveTemplate

open Reactive

/-- The member of a value that a segment names, with no cell followed. -/
def Value.member (value : Value) (segment : Segment) : Value :=
  match value, segment with
  | .object _ fields, .key name => (Table.get? name fields).getD .undefined
  | .object _ fields, .index i => (Table.get? (toString i) fields).getD .undefined
  | .array _ items, .index i => items[i]?.getD .undefined
  | .array _ items, .key name =>
    if name = "length" then .number (Float.ofNat items.length)
    else
      match readIndex name.toList with
      | some i => items[i]?.getD .undefined
      | none => .undefined
  | .text s, .key name =>
    if name = "length" then .number (Float.ofNat s.toList.length) else .undefined
  | .text s, .index i =>
    match s.toList[i]? with
    | some c => .text (String.singleton c)
    | none => .undefined
  | _, _ => .undefined

namespace Path

variable {σ : Type}

/-- Walks a path from a value that is no cell. -/
def walk (current : Value) : Path → Program σ
  | [] => .pure current
  | segment :: rest =>
    if current.isNullish then .pure .undefined
    else (Program.settle (current.member segment)).bind fun value => walk value rest

/-- The value at the end of a path from a context. -/
def resolve (path : Path) (context : Value) : Program σ :=
  (Program.settle context).bind fun value => walk value path

/-- Reads a path and resolves it. -/
def resolveText (source : String) (context : Value) : Program σ :=
  match parse source with
  | .ok path => resolve path context
  | .error e => .fail (.template e)

end Path

end LiveTemplate
