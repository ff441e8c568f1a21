import LiveTemplate.Proofs.Binding.Displaying
import LiveTemplate.Proofs.Reactive.Attribution
import LiveTemplate.Proofs.Reactive.WritingBack

/-!
# Refused calls

A call is refused if its handle is dead: the signal to be written to, or the scope that is to own what is
created. All calls look at their handle before they touch anything, so a refused call leaves the engine as
it was, and has run nothing of what it was given (`Binding.Access.refused_iff`).

Two calls look twice, and the second look finds what the first one found. A binding that is attached at
once needs its scope for two nodes, and the first one does not end it. An update needs its signal again
when its function has run, and whatever the function does, signals stay.
-/
namespace LiveTemplate

open Reactive Reactive.Graph

variable {σ : Type}

/-! ## What fails, and how -/

namespace Reactive.Engine

variable {refresh : NodeId → Engine σ → Option (Engine σ)} {e e' : Engine σ} {f : Fault}

theorem flush_error (flushed : e.flush refresh = some (.error f, e')) :
    f = .reactive (.unsettled e.settings.maxRuns) := by
  unfold flush at flushed
  split at flushed
  · cases flushed
  · obtain ⟨⟨settled, e₁⟩, -, heq⟩ := Option.map_eq_some_iff.1 flushed
    cases settled <;> cases heq
    rfl

/-- A write fails if there is no such signal, and has done nothing then; or the flush gives up. -/
theorem writeSignal_error {id : NodeId} {value : Value}
    (written : e.writeSignal refresh id value = some (.error f, e')) :
    (e.graph.sheet.value? id = none ∧ f = .reactive (.disposed .signal) ∧ e' = e) ∨
      e.graph.sheet.value? id ≠ none ∧ f = .reactive (.unsettled e.settings.maxRuns) := by
  cases hvalue : e.graph.sheet.value? id with
  | none =>
    rw [writeSignal_unset hvalue] at written
    cases written
    exact .inl ⟨rfl, rfl, rfl⟩
  | some old =>
    obtain ⟨n, hn, hkind⟩ := value?_eq_some.1 hvalue
    rw [writeSignal_found hn hkind] at written
    split at written
    · cases written
    · exact .inr ⟨nofun, (flush_error written :)⟩

end Reactive.Engine

namespace Reactive.Graph

variable {g : Graph (Program σ)} {owner : ScopeId}

theorem insertOwned_eq_none {kind : NodeKind (Program σ)} :
    g.insertOwned kind owner = none ↔ g.scope? owner = none := by
  rw [insertOwned, Arena.contains, scope?]
  cases g.scopes.get? owner <;> simp

theorem insertChildScope_eq_none : g.insertChildScope owner = none ↔ g.scope? owner = none := by
  rw [insertChildScope, Arena.contains, scope?]
  cases g.scopes.get? owner <;> simp

end Reactive.Graph

namespace Binding

open Reactive.Engine Moment

/-- What a call looks for before it does anything. -/
inductive Handle where
  | signal (id : NodeId)
  | scope (id : ScopeId)

namespace Handle

/-- What the handle names is gone, or is of another kind. -/
def Dead (e : Engine σ) : Handle → Prop
  | signal id => ∀ n value, e.graph.node? id = some n → n.kind ≠ .signal value
  | scope id => e.graph.scope? id = none

def subject : Handle → Subject
  | signal _ => .signal
  | scope _ => .scope

end Handle

/-- A call that is refused if its handle is dead, with the closures that are handed over. -/
inductive Access (σ : Type) where
  | set (signal : NodeId) (value : Value)
  | update (signal : NodeId) (change : Value → Program σ)
  | newComputed (owner : ScopeId) (body : Program σ)
  | newEffect (owner : ScopeId) (body : Program σ)
  | newChild (parent : ScopeId)
  | bind (kind : BindingKind) (template : Template) (context : Value) (owner : ScopeId)
  | attach (computed : NodeId) (owner : ScopeId) (sink : Value → Program σ)
  | bindTo (kind : BindingKind) (template : Template) (context : Value) (owner : ScopeId)
      (sink : Value → Program σ)

/-- The value that the function of an update ends with. -/
def given : Outcome → Value
  | .ok value => value
  | .error _ => .undefined

/-- Whether something was created. -/
def reply {α : Type} : Except Fault α → Program σ
  | .ok _ => .pure .undefined
  | .error fault => .fail fault

namespace Access

def handle : Access σ → Handle
  | set signal _ | update signal _ => .signal signal
  | newComputed owner _ | newEffect owner _ | newChild owner => .scope owner
  | bind _ _ _ owner | attach _ owner _ | bindTo _ _ _ owner _ => .scope owner

/-- The call, up to its answer. -/
def program : Access σ → Program σ
  | set signal value => .set signal value
  | update signal change => (Program.peek ⟨.signal, signal⟩).bind fun current =>
      (change current).handle fun o => .set signal (given o)
  | newComputed owner body => .newComputed (some owner) body reply
  | newEffect owner body => .newEffect owner body reply
  | newChild parent => .newScope (some parent) reply
  | bind kind template context owner => Binding.bind kind template context (some owner) reply
  | attach computed owner sink => Binding.attach computed owner sink reply
  | bindTo kind template context owner sink =>
    Binding.bindTo kind template context owner sink reply

variable {depth : Nat} {refresh : NodeId → Engine σ → Option (Engine σ)} {e e' : Engine σ}
  {access : Access σ}

theorem dead_signal_iff {id : NodeId} :
    (Handle.signal id).Dead e ↔ e.graph.sheet.value? id = none := by
  rw [Option.eq_none_iff_forall_ne_some]
  simp only [Handle.Dead, ne_eq, value?_eq_some, not_exists, not_and]
  exact forall_comm

/-- The function of an update may use the engine, but need not. -/
theorem program_update {id : NodeId} {change : Value → Value} :
    program (.update id fun v => .pure (change v) : Access σ) = .update id change :=
  rfl

/-- The answer of a call whose handle is dead. -/
def refusal (access : Access σ) : Outcome :=
  .error (.reactive (.disposed access.handle.subject))

theorem exec_of_dead (dead : access.handle.Dead e) :
    access.program.exec depth refresh e = some (access.refusal, e) := by
  cases access with
  | set id value =>
    simp only [program, Program.set, Program.exec, writeSignal_unset (dead_signal_iff.1 dead)]
    rfl
  | update id change =>
    rw [program, Program.exec_bind]
    simp only [Program.peek, Program.exec, readCell_unset (dead_signal_iff.1 dead)]
    rfl
  | newChild =>
    simp only [program, Program.exec, insertChildScope_eq_none.2 dead]
    rfl
  | newComputed | newEffect | bind | attach | bindTo =>
    simp only [program, Binding.bind, Binding.attach, Binding.bindTo, Program.exec,
      insertOwned_eq_none.2 dead]
    rfl

/-- On the way to a refusal nothing is at work but the call itself, and an update's look at the signal. -/
theorem path_of_dead (dead : access.handle.Dead e) (next : Outcome → Program σ)
    (k : List (Caller σ)) : ∃ ms,
      Moment.Path Moment.Step ⟨.work (access.program.handle next), k, e⟩ ms
        ⟨.work (next access.refusal), k, e⟩ ∧
      ∀ m ∈ ms, m.engine = e ∧ m.callers = k ∧ (m.task = .work (access.program.handle next) ∨
        ∃ id reader, access.handle = .signal id ∧ m.task = .read ⟨.signal, id⟩ false reader) := by
  cases access with
  | set id value => exact ⟨_, .cons (.writeGone dead) (.nil _), by simp⟩
  | update id change =>
    refine ⟨_, .cons .read (.cons (.readNoSignal rfl dead) (.nil _)), ?_⟩
    simp [handle, program, Program.bind, Program.peek, Program.handle]
  | newChild => exact ⟨_, .cons (.scopeRefused (insertChildScope_eq_none.2 dead)) (.nil _), by simp⟩
  | newComputed | bind | bindTo =>
    exact ⟨_, .cons (.computedRefused (insertOwned_eq_none.2 dead)) (.nil _), by simp⟩
  | newEffect | attach =>
    exact ⟨_, .cons (.effectRefused (insertOwned_eq_none.2 dead)) (.nil _), by simp⟩

theorem exec_set_ne {id : NodeId} {value : Value} {subject : Subject}
    (live : e.graph.sheet.value? id ≠ none) : (Program.set id value).exec depth refresh e ≠
      some (.error (.reactive (.disposed subject)), e') := by
  intro h
  obtain ⟨⟨r, e₁⟩, written, h⟩ := Option.bind_eq_some_iff.1 h
  cases r with
  | ok => cases h
  | error f =>
    rcases writeSignal_error written with ⟨hnone, -⟩ | ⟨-, rfl⟩
    · exact live hnone
    · cases h

theorem exec_newEffect_ne {owner : ScopeId} {body : Program σ} {subject : Subject}
    (live : e.graph.scope? owner ≠ none) :
    (Program.newEffect owner body reply).exec depth refresh e ≠
      some (.error (.reactive (.disposed subject)), e') := by
  intro h
  rw [Program.exec] at h
  split at h
  next hnone => exact live (insertOwned_eq_none.1 hnone)
  next =>
    obtain ⟨e₁, -, h⟩ := Option.bind_eq_some_iff.1 h
    cases h

/-- Nodes are disposed of as computeds and effects: for a signal there is no such call. -/
def Lawful (e : Engine σ) : Access σ → Prop
  | update _ change => ∀ current m id,
      Steps ⟨.work (change current), [], e⟩ m → m.Disposes id → ¬m.engine.graph.HasSignal id
  | _ => True

/-- What the function of an update does leaves the signal there. -/
theorem exec_update_ne {m : Moment σ} (reached : m.Reached) {id : NodeId}
    {change : Value → Program σ} (lawful : (update id change).Lawful m.engine)
    (live : m.engine.graph.sheet.value? id ≠ none) {subject : Subject} :
    Engine.run depth (update id change).program m.engine ≠
      some (.error (.reactive (.disposed subject)), e') := by
  obtain ⟨current, hcurrent⟩ := Option.ne_none_iff_exists'.1 live
  rw [Engine.run, program, Program.exec_bind, Program.peek, Program.exec,
    Program.readCell_signal hcurrent]
  simp only [Option.bind_some, Program.exec, Program.exec_handle]
  intro h
  obtain ⟨⟨o, e₁⟩, ran, h⟩ := Option.bind_eq_some_iff.1 h
  have sound : Sound ⟨.work (change current), [], m.engine⟩ :=
    ⟨reached.sound.graph, reached.sound.tracked, fun _ mem => absurd mem List.not_mem_nil⟩
  have stays := sound.signal_stays reached.unowned (Engine.run_steps ran []) (lawful current)
    (hasSignal_iff.2 ⟨current, hcurrent⟩)
  exact exec_set_ne (Option.ne_none_iff_exists'.2 (hasSignal_iff.1 stays)) h

/-- A call is not refused for any other reason than its handle. -/
theorem run_ne_of_live {m : Moment σ} (reached : m.Reached) (lawful : access.Lawful m.engine)
    (live : ¬access.handle.Dead m.engine) {subject : Subject} :
    Engine.run depth access.program m.engine ≠
      some (.error (.reactive (.disposed subject)), e') := by
  cases access with
  | set id value => exact exec_set_ne fun hnone => live (dead_signal_iff.2 hnone)
  | update id change =>
    exact exec_update_ne reached lawful fun hnone => live (dead_signal_iff.2 hnone)
  | newChild parent =>
    intro h
    rw [Engine.run, program, Program.exec] at h
    split at h
    next hnone => exact live (insertChildScope_eq_none.1 hnone)
    next => cases h
  | newComputed owner body | bind _ _ _ owner =>
    intro h
    simp only [Engine.run, program, Binding.bind, Program.exec] at h
    split at h
    next hnone => exact live (insertOwned_eq_none.1 hnone)
    next => cases h
  | newEffect owner body | attach _ owner => exact exec_newEffect_ne live
  | bindTo kind template context owner sink =>
    intro h
    rw [Engine.run, program, Binding.bindTo, Binding.bind, Program.exec] at h
    split at h
    next hnone => exact live (insertOwned_eq_none.1 hnone)
    next id g inserted =>
      -- the new computed does not end its scope
      have alive : m.engine.graph.scope? owner ≠ none := live
      refine exec_newEffect_ne (e := { m.engine with graph := g }) ?_ h
      rw [(scope?_insertOwned inserted).2, if_pos rfl]
      simpa using alive

/-- A call is refused if its handle is dead, and for no other reason. Then the engine is as it was, and
nothing has been at work but the call. -/
theorem refused_iff {m : Moment σ} (reached : m.Reached) (access : Access σ)
    (lawful : access.Lawful m.engine) :
    (∀ depth subject e', Engine.run depth access.program m.engine =
        some (.error (.reactive (.disposed subject)), e') ↔
      access.handle.Dead m.engine ∧ subject = access.handle.subject ∧ e' = m.engine) ∧
    (access.handle.Dead m.engine → ∀ (next : Outcome → Program σ) k, ∃ ms,
      Moment.Path Moment.Step ⟨.work (access.program.handle next), k, m.engine⟩ ms
        ⟨.work (next access.refusal), k, m.engine⟩ ∧
      ∀ m' ∈ ms, m'.engine = m.engine ∧ m'.callers = k ∧
        (m'.task = .work (access.program.handle next) ∨ ∃ id reader,
          access.handle = .signal id ∧ m'.task = .read ⟨.signal, id⟩ false reader)) := by
  refine ⟨fun depth subject e' => ⟨fun h => ?_, ?_⟩, path_of_dead⟩
  · have dead := Classical.not_not.1 fun live => run_ne_of_live reached lawful live h
    have refused := (exec_of_dead dead).symm.trans h
    cases refused
    exact ⟨dead, rfl, rfl⟩
  · rintro ⟨dead, rfl, rfl⟩
    exact exec_of_dead dead

open Farewell in
/-- An effect is running, and its key does not serve as that of a signal. -/
theorem refused_leaving :
    leaving.Reached ∧
      (update effect fun _ => .disposeScope scope rest : Access Unit).Lawful leaving.engine ∧
      Engine.run 1 (update effect fun _ => .disposeScope scope rest : Access Unit).program
        leaving.engine = some (.error (.reactive (.disposed .signal)), leaving.engine) := by
  have found : leaving.engine.graph.node? effect =
      some ⟨.effect Farewell.body true, .clean, [], [], some scope⟩ := by
    cbv
  have lawful : (update effect fun _ => .disposeScope scope rest : Access Unit).Lawful
      leaving.engine := by
    intro current m id steps disposes
    rcases steps.cases_head with rfl | ⟨m₁, step, steps⟩
    · obtain ⟨next, h⟩ := disposes
      cases h
    · cases step
      rcases steps.cases_head with rfl | ⟨m₂, step, -⟩
      · obtain ⟨next, h⟩ := disposes
        cases h
      · cases step
  refine ⟨reached_leaving, lawful, ((refused_iff reached_leaving _ lawful).1 _ _ _).2 ⟨?_, rfl, rfl⟩⟩
  intro n value hn heq
  rw [found] at hn
  cases hn
  cases heq

end Access

end Binding

end LiveTemplate
