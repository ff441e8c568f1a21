import LiveTemplate.Feed
import LiveTemplate.Proofs.Reactive.Operations

/-!
# What a feed passes on

A feed writes the values that it receives in their order, and leaves none out, until it stops for good:
after the last one, before a value that finds the scope gone, or at a write that fails
(`Feed.through_stops`). What it writes runs effects, which may do anything; and while it waits for a
value, everything else may happen. So the scope is looked at before each value.
-/
namespace LiveTemplate.Feed

open Reactive

variable {σ : Type}

/-- What comes next while a feed is there: a value for it, or something else that is done meanwhile. -/
inductive Turn (σ : Type) where
  | value (v : Value)
  | elsewhere (p : Program σ)

def Turn.value? : Turn σ → Option Value
  | value v => some v
  | elsewhere _ => none

section Through

variable (owner : ScopeId) (signal : NodeId)

/-- A feed whose values come one by one. -/
def through (count : Nat) : List (Turn σ) → (Progress → Program σ) → Program σ
  | [], next => next (.written count)
  | .elsewhere p :: turns, next => p.handle fun _ => through count turns next
  | .value v :: turns, next => pipe owner signal count [v] fun
    | .written count => through count turns next
    | stopped => next stopped

variable (depth : Nat) (refresh : NodeId → Engine σ → Option (Engine σ))

/-- Each value has been written, and right before the scope was live. -/
inductive Passed : Engine σ → List (Turn σ) → Engine σ → Prop where
  | nil (e : Engine σ) : Passed e [] e
  | elsewhere {e e₁ e₂ : Engine σ} {p : Program σ} {o : Outcome} {turns : List (Turn σ)}
      (ran : p.exec depth refresh e = some (o, e₁)) (rest : Passed e₁ turns e₂) :
      Passed e (.elsewhere p :: turns) e₂
  | value {e e₁ e₂ : Engine σ} {v : Value} {turns : List (Turn σ)}
      (live : e.graph.scope? owner ≠ none)
      (written : e.writeSignal refresh signal v = some (.ok (), e₁)) (rest : Passed e₁ turns e₂) :
      Passed e (.value v :: turns) e₂

/-- After so many values the feed stops here, having come to this. -/
inductive Stops : Engine σ → List (Turn σ) → Nat → Option (Progress × Engine σ) → Prop where
  | over (e : Engine σ) (count : Nat) : Stops e [] count (some (.written count, e))
  | disowned {e : Engine σ} {v : Value} {later : List (Turn σ)} {count : Nat}
      (dead : e.graph.scope? owner = none) :
      Stops e (.value v :: later) count (some (.disowned count, e))
  | failed {e e₁ : Engine σ} {v : Value} {later : List (Turn σ)} {count : Nat} {fault : Fault}
      (live : e.graph.scope? owner ≠ none)
      (failed : e.writeSignal refresh signal v = some (.error fault, e₁)) :
      Stops e (.value v :: later) count (some (.failed fault, e₁))
  /-- What the write sets off has no end, within this depth. -/
  | stuck {e : Engine σ} {v : Value} {later : List (Turn σ)} {count : Nat}
      (live : e.graph.scope? owner ≠ none) (stuck : e.writeSignal refresh signal v = none) :
      Stops e (.value v :: later) count none
  | stuckElsewhere {e : Engine σ} {p : Program σ} {later : List (Turn σ)} {count : Nat}
      (stuck : p.exec depth refresh e = none) : Stops e (.elsewhere p :: later) count none

end Through

variable {owner : ScopeId} {signal : NodeId} {count : Nat} {turns : List (Turn σ)} {v : Value}
  {values : List Value} {next : Progress → Program σ} {depth : Nat}
  {refresh : NodeId → Engine σ → Option (Engine σ)} {e : Engine σ}

/-- Values that come without a pause are passed on in one go. -/
theorem through_values : through owner signal count (values.map .value) next =
    pipe owner signal count values next := by
  induction values generalizing count with
  | nil => rfl
  | cons v values ih => simp only [List.map_cons, through, pipe, ih]

theorem exec_through_value :
    (through owner signal count (.value v :: turns) next).exec depth refresh e =
      if e.graph.scope? owner = none then (next (.disowned count)).exec depth refresh e
      else (e.writeSignal refresh signal v).bind fun
        | (.ok (), e₁) => (through owner signal (count + 1) turns next).exec depth refresh e₁
        | (.error fault, e₁) => (next (.failed fault)).exec depth refresh e₁ := by
  rw [through, pipe, Program.exec]
  cases hscope : e.graph.scope? owner with
  | none => simp [Engine.view, hscope]
  | some record =>
    simp only [Engine.view, hscope, Option.map_some, Program.exec, if_neg, reduceCtorEq,
      not_false_eq_true]
    congr 1
    funext written
    obtain ⟨_ | _, e₁⟩ := written <;> rfl

theorem exec_through (owner : ScopeId) (signal : NodeId) (count : Nat) (turns : List (Turn σ))
    (next : Progress → Program σ) (depth : Nat) (refresh : NodeId → Engine σ → Option (Engine σ))
    (e : Engine σ) : ∃ done rest e₁ answer, turns = done ++ rest ∧
      Passed owner signal depth refresh e done e₁ ∧
      Stops owner signal depth refresh e₁ rest (count + (done.filterMap Turn.value?).length) answer ∧
      (through owner signal count turns next).exec depth refresh e =
        answer.bind fun (progress, e₂) => (next progress).exec depth refresh e₂ := by
  induction turns generalizing count e with
  | nil => exact ⟨[], [], e, _, rfl, .nil e, .over e count, rfl⟩
  | cons turn turns ih =>
    cases turn with
    | elsewhere p =>
      cases hran : p.exec depth refresh e with
      | none =>
        refine ⟨[], _, e, _, rfl, .nil e, .stuckElsewhere hran, ?_⟩
        rw [through, Program.exec_handle, hran]
        rfl
      | some ran =>
        obtain ⟨done, rest, e₁, answer, rfl, passed, stops, heq⟩ := ih count ran.2
        refine ⟨_, rest, e₁, answer, rfl, .elsewhere hran passed, stops, ?_⟩
        rw [through, Program.exec_handle, hran]
        exact heq
    | value v =>
      rw [exec_through_value]
      split
      next dead => exact ⟨[], _, e, _, rfl, .nil e, .disowned dead, rfl⟩
      next live =>
        rcases hwritten : e.writeSignal refresh signal v with _ | ⟨⟨fault⟩ | ⟨⟩, e'⟩
        · exact ⟨[], _, e, _, rfl, .nil e, .stuck live hwritten, rfl⟩
        · exact ⟨[], _, e, _, rfl, .nil e, .failed live hwritten, rfl⟩
        · obtain ⟨done, rest, e₁, answer, rfl, passed, stops, heq⟩ := ih (count + 1) e'
          refine ⟨_, rest, e₁, answer, rfl, .value live hwritten passed, ?_, heq⟩
          rw [Nat.add_right_comm, Nat.add_assoc] at stops
          exact stops

/-- A feed writes a first part of what it receives, in order, and then stops for one of the reasons
there are. Nothing more is written. -/
theorem through_stops (owner : ScopeId) (signal : NodeId) (count : Nat) (turns : List (Turn σ))
    (next : Progress → Program σ) (depth : Nat) (refresh : NodeId → Engine σ → Option (Engine σ))
    (e : Engine σ) :
    (∀ values : List Value, turns = values.map .value →
      through owner signal count turns next = pipe owner signal count values next) ∧
    ∃ done rest e₁ answer, turns = done ++ rest ∧
      Passed owner signal depth refresh e done e₁ ∧
      Stops owner signal depth refresh e₁ rest (count + (done.filterMap Turn.value?).length) answer ∧
      (through owner signal count turns next).exec depth refresh e =
        answer.bind fun (progress, e₂) => (next progress).exec depth refresh e₂ :=
  ⟨fun _ heq => heq ▸ through_values, exec_through ..⟩

end LiveTemplate.Feed
