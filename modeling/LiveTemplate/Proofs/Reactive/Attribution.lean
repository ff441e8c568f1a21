import Mathlib
import LiveTemplate.Proofs.Reactive.Frames
import LiveTemplate.Proofs.Reactive.Invariance

/-!
# Whose reads they are

All runs share one stack of frames, and what a run reads is what its frame has collected when it ends.
In between, other nodes are brought up to date, effects are flushed and untracked regions entered and
left. The frame holds the right reads nevertheless (`Moment.Runs.recorded`): those of the moments at
which the body itself asks for a cell that is there, with no other run and no untracked region in
between.

The frames above that of the run match the runs and regions on top of it, one to one (`Collecting`). A
computed that the body reads is recorded when it is up to date, so for a while the frame lags behind by
this one read (`awaited`).
-/
namespace LiveTemplate.Reactive

variable {σ : Type}

/-- Whether the reads in there are not those of what is outside. -/
def Caller.encloses : Caller σ → Bool
  | .computing _ | .performing _ | .untracking _ => true
  | _ => false

/-- A read of the cell finds a live signal, or a live computed that is not running. -/
def Engine.finds (e : Engine σ) (cell : Cell) : Bool :=
  match cell.kind with
  | .signal => (e.graph.node? cell.node).any fun n => n.sort = .signal
  | .computed => (e.graph.node? cell.node).any Node.isIdleComputed

namespace Moment

/-- One moment after the other, with the moments before each of them. -/
inductive Path (R : Moment σ → Moment σ → Prop) : Moment σ → List (Moment σ) → Moment σ → Prop where
  | nil (m : Moment σ) : Path R m [] m
  | cons {m m₁ m' : Moment σ} {ms : List (Moment σ)} (step : R m m₁) (rest : Path R m₁ ms m') :
      Path R m (m :: ms) m'

/-- The cell that is read at this moment, by a tracked read that finds it, if nothing on top of the
first so many callers encloses the read. -/
def reads? (depth : Nat) (m : Moment σ) : Option Cell :=
  match m.task with
  | .read cell true _ =>
    if (m.callers.take (m.callers.length - depth)).any Caller.encloses then none
    else if m.engine.finds cell then some cell else none
  | _ => none

/-- The body of a node is run: these are the moments from its beginning until it has an outcome. Up to
then it stays on the stack. -/
inductive Runs (id : NodeId) : Moment σ → List (Moment σ) → Moment σ → Prop where
  | run {k : List (Caller σ)} {c : Caller σ} {e e₀ e₁ : Engine σ} {body : Program σ} {o : Outcome}
      {ms : List (Moment σ)} {m' : Moment σ}
      (begins : Step ⟨.settle id, k, e⟩ ⟨.work body, c :: k, e₀⟩)
      (path : Path Step ⟨.work body, c :: k, e₀⟩ ms ⟨.work (.done o), c :: k, e₁⟩)
      (inside : ∀ m ∈ ms, c :: k <:+ m.callers)
      (ends : Step ⟨.work (.done o), c :: k, e₁⟩ m') : Runs id ⟨.settle id, k, e⟩ ms m'

end Moment

theorem record_append (seen : List NodeId) (cells cells' : List Cell) :
    record seen (cells ++ cells') = record (record seen cells) cells' :=
  List.foldl_append

namespace Engine

variable {e : Engine σ} {cell : Cell} {n : Node (Program σ)}

theorem finds_signal (signal : cell.kind = .signal) :
    e.finds cell = true ↔ ∃ n value, e.graph.node? cell.node = some n ∧ n.kind = .signal value := by
  simp [finds, signal, Option.any_eq_true, Node.sort_eq_signal]

theorem finds_computed (computed : cell.kind = .computed) :
    e.finds cell = true ↔
      ∃ n body last, e.graph.node? cell.node = some n ∧ n.kind = .computed body false last := by
  simp only [finds, computed, Option.any_eq_true]
  refine exists_congr fun n => ?_
  unfold Node.isIdleComputed
  split <;> simp_all

end Engine

/-! ## What stands on what -/

inductive Level where
  | work
  | node
  | queue

def Task.level : Task σ → Level
  | .work _ | .read _ _ _ | .follow _ _ _ => .work
  | .refresh _ | .ask _ _ | .asked _ _ | .settle _ | .refreshed => .node
  | .flush | .drain _ _ | .flushed _ => .queue

namespace Caller

/-- The level of what it waits for. -/
def awaits : Caller σ → Level
  | .computing _ | .performing _ | .batching _ | .untracking _ => .work
  | .reading _ _ _ | .asking _ _ | .creating _ _ | .draining _ _ => .node
  | .closing _ _ | .writing _ => .queue

def level : Caller σ → Level
  | .reading _ _ _ | .creating _ _ | .batching _ | .closing _ _ | .untracking _ | .writing _ => .work
  | .asking _ _ | .computing _ | .performing _ => .node
  | .draining _ _ => .queue

end Caller

/-- Every caller stands on one that waits for its level, the last one on the program of a body. -/
def Stacked : Level → List (Caller σ) → Prop
  | l, [] => l = .work
  | l, c :: k => c.awaits = l ∧ Stacked c.level k

/-- The reads that are waiting for a computed, as far as nothing encloses them. -/
def awaited : List (Caller σ) → List Cell
  | [] => []
  | .reading cell true _ :: k => if k.any Caller.encloses then awaited k else awaited k ++ [cell]
  | _ :: k => awaited k

section Awaited

variable {c : Caller σ} {above : List (Caller σ)}

theorem awaited_cons_of_open (c : Caller σ) (open' : above.any Caller.encloses = true) :
    awaited (c :: above) = awaited above := by
  cases c with
  | reading cell tracked reader => cases tracked <;> simp [awaited, open']
  | _ => rfl

theorem awaited_cons_of_eager (eager : ∀ cell reader, c ≠ .reading cell true reader)
    (above : List (Caller σ)) : awaited (c :: above) = awaited above := by
  cases c with
  | reading cell tracked reader =>
    cases tracked with
    | false => rfl
    | true => exact absurd rfl (eager cell reader)
  | _ => rfl

/-- Nothing is being waited for where a program goes on. -/
theorem awaited_work (stacked : Stacked .work above) (closed : above.any Caller.encloses = false) :
    awaited above = [] := by
  induction above with
  | nil => rfl
  | cons c above ih =>
    obtain ⟨hawaits, hstacked⟩ := stacked
    rw [List.any_cons, Bool.or_eq_false_iff] at closed
    cases c with
    | batching => exact ih hstacked closed.2
    | computing | performing | untracking => cases closed.1
    | _ => cases hawaits

end Awaited

/-- What a read of a cell that is there adds to the reads of the run. -/
def counted (above : List (Caller σ)) (tracked : Bool) (cell : Cell) : List Cell :=
  if tracked = true ∧ above.any Caller.encloses = false then [cell] else []

/-- The stack of frames, when these callers stand on a run that has read the cells so far. -/
def Collecting (above : List (Caller σ)) (rest : Engine.Stack) (cells : List Cell)
    (tracking : Engine.Stack) : Prop :=
  ∃ frames reads, tracking = frames ++ some reads :: rest ∧
    frames.length = above.countP Caller.encloses ∧ record [] cells = record reads (awaited above)

namespace Collecting

variable {above : List (Caller σ)} {rest : Engine.Stack} {cells : List Cell} {e : Engine σ}
  {c : Caller σ}

/-- A caller that encloses comes with a frame. -/
theorem push (h : Collecting above rest cells e.tracking) (encloses : c.encloses = true)
    (frame : Option (List NodeId)) : Collecting (c :: above) rest cells (frame :: e.tracking) := by
  obtain ⟨frames, reads, htracking, hlength, hrecord⟩ := h
  refine ⟨frame :: frames, reads, by simp [htracking], by simp [hlength, encloses], ?_⟩
  cases c <;> simp_all [Caller.encloses, awaited]

theorem push_open (h : Collecting above rest cells e.tracking) (open' : c.encloses = false)
    (eager : ∀ cell reader, c ≠ .reading cell true reader) :
    Collecting (c :: above) rest cells e.tracking := by
  obtain ⟨frames, reads, htracking, hlength, hrecord⟩ := h
  exact ⟨frames, reads, htracking, by simp [hlength, open'],
    by rw [awaited_cons_of_eager eager, hrecord]⟩

theorem pop_open (h : Collecting (c :: above) rest cells e.tracking) (open' : c.encloses = false)
    (eager : ∀ cell reader, c ≠ .reading cell true reader) :
    Collecting above rest cells e.tracking := by
  obtain ⟨frames, reads, htracking, hlength, hrecord⟩ := h
  exact ⟨frames, reads, htracking, by simp [hlength, open'],
    by rw [hrecord, awaited_cons_of_eager eager]⟩

/-- And goes with it. -/
theorem pop (h : Collecting (c :: above) rest cells e.tracking) (encloses : c.encloses = true) :
    Collecting above rest cells (e.tracking.drop 1) := by
  obtain ⟨frames, reads, htracking, hlength, hrecord⟩ := h
  cases frames with
  | nil => simp [encloses] at hlength
  | cons frame frames =>
    refine ⟨frames, reads, by simp [htracking], by simpa [encloses] using hlength, ?_⟩
    cases c <;> simp_all [Caller.encloses, awaited]

/-- A read in there is not one of the run. -/
theorem track_enclosed (h : Collecting above rest cells e.tracking)
    (open' : above.any Caller.encloses = true) (tracked : Bool) (id : NodeId) :
    Collecting above rest cells (e.trackIf tracked id).tracking := by
  obtain ⟨frames, reads, htracking, hlength, hrecord⟩ := h
  have framed := Engine.framed_trackIf e tracked id
  cases frames with
  | nil =>
    obtain ⟨c, hc, hencloses⟩ := List.any_eq_true.1 open'
    exact absurd hencloses (List.countP_eq_zero.1 hlength.symm c hc)
  | cons frame frames =>
    obtain ⟨hlen, hbelow⟩ := framed
    cases htracking' : (e.trackIf tracked id).tracking with
    | nil => simp [htracking, htracking'] at hlen
    | cons frame' frames' =>
      refine ⟨frame' :: frames, reads, ?_, hlength, hrecord⟩
      simpa [htracking, htracking'] using hbelow

/-- A read of the run itself. -/
theorem track (h : Collecting above rest cells e.tracking) (closed : above.any Caller.encloses = false)
    (id : NodeId) : ∃ reads, (e.trackIf true id).tracking = some (enlist id reads) :: rest ∧
      record [] cells = record reads (awaited above) := by
  obtain ⟨frames, reads, htracking, hlength, hrecord⟩ := h
  have hcount : above.countP Caller.encloses = 0 := by
    rw [List.countP_eq_zero]
    simpa using closed
  obtain rfl : frames = [] := List.length_eq_zero_iff.1 (hlength.trans hcount)
  exact ⟨reads, by simp [Engine.trackIf, Engine.track, htracking], hrecord⟩

theorem of_closed {reads : List NodeId} {tracking : Engine.Stack}
    (htracking : tracking = some reads :: rest) (closed : above.any Caller.encloses = false)
    (hrecord : record [] cells = record reads (awaited above)) :
    Collecting above rest cells tracking := by
  refine ⟨[], reads, htracking, ?_, hrecord⟩
  rw [List.length_nil, eq_comm, List.countP_eq_zero]
  simpa using closed

/-- A signal is recorded when it is read. -/
theorem saw (h : Collecting above rest cells e.tracking) (stacked : Stacked .work above) (cell : Cell)
    (tracked : Bool) : Collecting above rest
      (cells ++ counted above tracked cell)
      (e.trackIf tracked cell.node).tracking := by
  cases tracked with
  | false => simpa [counted, Engine.trackIf] using h
  | true =>
    cases henclosed : above.any Caller.encloses with
    | true => simpa [counted, henclosed] using h.track_enclosed henclosed true cell.node
    | false =>
      obtain ⟨reads, htracking, hrecord⟩ := h.track henclosed cell.node
      rw [awaited_work stacked henclosed, record_nil] at hrecord
      refine of_closed htracking henclosed ?_
      simp [counted, henclosed, record_append, hrecord, awaited_work stacked henclosed]

/-- The record of a computed has to wait. -/
theorem ask (h : Collecting above rest cells e.tracking) (cell : Cell) (tracked : Bool)
    (reader : Reader σ) : Collecting (.reading cell tracked reader :: above) rest
      (cells ++ counted above tracked cell)
      e.tracking := by
  obtain ⟨frames, reads, htracking, hlength, hrecord⟩ := h
  refine ⟨frames, reads, htracking, by simp [hlength, Caller.encloses], ?_⟩
  cases tracked with
  | false => simpa [awaited, counted] using hrecord
  | true =>
    cases henclosed : above.any Caller.encloses <;>
      simp [awaited, counted, henclosed, record_append, hrecord]

/-- Then it is recorded. -/
theorem answer {cell : Cell} {tracked : Bool} {reader : Reader σ}
    (h : Collecting (.reading cell tracked reader :: above) rest cells e.tracking)
    (stacked : Stacked .work above) :
    Collecting above rest cells (e.trackIf tracked cell.node).tracking := by
  cases tracked with
  | false => exact h.pop_open rfl nofun
  | true =>
    cases henclosed : above.any Caller.encloses with
    | true =>
      obtain ⟨frames, reads, htracking, hlength, hrecord⟩ := h
      rw [awaited_cons_of_open _ henclosed] at hrecord
      have h : Collecting above rest cells e.tracking := ⟨frames, reads, htracking, hlength, hrecord⟩
      exact h.track_enclosed henclosed true cell.node
    | false =>
      obtain ⟨reads, htracking, hrecord⟩ := h.track (by simpa [Caller.encloses] using henclosed) cell.node
      refine of_closed htracking henclosed ?_
      rw [hrecord, awaited, henclosed, awaited_work stacked henclosed]
      rfl

end Collecting

namespace Moment

variable {m m' : Moment σ} {k : List (Caller σ)} {rest : Engine.Stack} {cells : List Cell}

/-- The run at the bottom has read these cells so far. -/
def Collected (k : List (Caller σ)) (rest : Engine.Stack) (cells : List Cell) (m : Moment σ) : Prop :=
  ∃ above, m.callers = above ++ k ∧ Stacked m.task.level above ∧
    Collecting above rest cells m.engine.tracking

theorem reads?_of_finds {cell : Cell} {e : Engine σ} (finds : e.finds cell = true) (tracked : Bool)
    (reader : Reader σ) (above k : List (Caller σ)) :
    (reads? k.length ⟨.read cell tracked reader, above ++ k, e⟩).toList = counted above tracked cell := by
  cases tracked with
  | false => rfl
  | true => cases henclosed : above.any Caller.encloses <;> simp_all [reads?, counted]

theorem reads?_of_not_finds {cell : Cell} {e : Engine σ} (finds : e.finds cell ≠ true)
    (tracked : Bool) (reader : Reader σ) (callers : List (Caller σ)) (depth : Nat) :
    reads? depth ⟨.read cell tracked reader, callers, e⟩ = none := by
  cases tracked <;> simp [reads?, finds]

namespace Collected

/-- The stack of callers and that of frames are as before. -/
theorem still (h : Collected k rest cells m) (callers : m'.callers = m.callers)
    (level : m'.task.level = m.task.level) (tracking : m'.engine.tracking = m.engine.tracking) :
    Collected k rest cells m' := by
  obtain ⟨above, hcallers, hstacked, hcollecting⟩ := h
  exact ⟨above, callers.trans hcallers, level ▸ hstacked, tracking ▸ hcollecting⟩

/-- There is one more caller, which waits for something else than a read. -/
theorem push {c : Caller σ} (h : Collected k rest cells m) (callers : m'.callers = c :: m.callers)
    (level : c.level = m.task.level) (awaits : c.awaits = m'.task.level)
    (open' : c.encloses = false) (eager : ∀ cell reader, c ≠ .reading cell true reader)
    (tracking : m'.engine.tracking = m.engine.tracking) : Collected k rest cells m' := by
  obtain ⟨above, hcallers, hstacked, hcollecting⟩ := h
  refine ⟨c :: above, by rw [callers, hcallers, List.cons_append], ⟨awaits, level ▸ hstacked⟩, ?_⟩
  rw [tracking]
  exact hcollecting.push_open open' eager

theorem enter {c : Caller σ} (h : Collected k rest cells m) (callers : m'.callers = c :: m.callers)
    (level : c.level = m.task.level) (awaits : c.awaits = m'.task.level)
    (encloses : c.encloses = true) {frame : Option (List NodeId)}
    (tracking : m'.engine.tracking = frame :: m.engine.tracking) : Collected k rest cells m' := by
  obtain ⟨above, hcallers, hstacked, hcollecting⟩ := h
  refine ⟨c :: above, by rw [callers, hcallers, List.cons_append], ⟨awaits, level ▸ hstacked⟩, ?_⟩
  rw [tracking]
  exact hcollecting.push encloses frame

/-- The innermost caller is on top of the run, if the run goes on after it. -/
theorem split {c : Caller σ} (h : Collected k rest cells m) (callers : m.callers = c :: m'.callers)
    (inside : k <:+ m'.callers) :
    ∃ above, m'.callers = above ++ k ∧ c.awaits = m.task.level ∧ Stacked c.level above ∧
      Collecting (c :: above) rest cells m.engine.tracking := by
  obtain ⟨above, hcallers, hstacked, hcollecting⟩ := h
  rw [callers] at hcallers
  cases above with
  | nil =>
    have hlength := inside.length_le
    rw [List.nil_append] at hcallers
    rw [← hcallers, List.length_cons] at hlength
    omega
  | cons c' above =>
    rw [List.cons_append] at hcallers
    obtain ⟨rfl, hrest⟩ := List.cons.inj hcallers
    exact ⟨above, hrest, hstacked.1, hstacked.2, hcollecting⟩

theorem pop {c : Caller σ} (h : Collected k rest cells m) (callers : m.callers = c :: m'.callers)
    (inside : k <:+ m'.callers) (level : m'.task.level = c.level) (open' : c.encloses = false)
    (eager : ∀ cell reader, c ≠ .reading cell true reader)
    (tracking : m'.engine.tracking = m.engine.tracking) : Collected k rest cells m' := by
  obtain ⟨above, hcallers, -, hstacked, hcollecting⟩ := h.split callers inside
  refine ⟨above, hcallers, level ▸ hstacked, ?_⟩
  rw [tracking]
  exact hcollecting.pop_open open' eager

theorem leave {c : Caller σ} (h : Collected k rest cells m) (callers : m.callers = c :: m'.callers)
    (inside : k <:+ m'.callers) (level : m'.task.level = c.level) (encloses : c.encloses = true)
    (tracking : m'.engine.tracking = m.engine.tracking.drop 1) : Collected k rest cells m' := by
  obtain ⟨above, hcallers, -, hstacked, hcollecting⟩ := h.split callers inside
  refine ⟨above, hcallers, level ▸ hstacked, ?_⟩
  rw [tracking]
  exact hcollecting.pop encloses

end Collected

theorem level_resume (reader : Reader σ) (o : Outcome) (cell : Cell) :
    (reader.resume o cell).level = .work := by
  cases reader with
  | program => rfl
  | chain => cases o <;> rfl

/-- A read that does not find its cell counts for nothing. -/
theorem Collected.refused {cell : Cell} {tracked : Bool} {reader : Reader σ}
    {callers : List (Caller σ)} {e : Engine σ}
    (h : Collected k rest cells ⟨.read cell tracked reader, callers, e⟩)
    (finds : e.finds cell ≠ true) (o : Outcome) :
    Collected k rest (cells ++ (reads? k.length ⟨.read cell tracked reader, callers, e⟩).toList)
      ⟨reader.resume o cell, callers, e⟩ := by
  rw [reads?_of_not_finds finds]
  exact (List.append_nil cells).symm ▸ h.still rfl (level_resume reader o cell) rfl

theorem Step.collected (step : Step m m') (h : Collected k rest cells m) (inside : k <:+ m'.callers) :
    Collected k rest (cells ++ (m.reads? k.length).toList) m' := by
  have silent (none : m.reads? k.length = none) (h' : Collected k rest cells m') :
      Collected k rest (cells ++ (m.reads? k.length).toList) m' := by
    rw [none]
    exact (List.append_nil cells).symm ▸ h'
  cases step with
  | read | unwrap | writeGone | writeSame | newSignal | newComputed | newOwnedComputed | computedRefused
  | effectRefused | newScope | newChildScope | scopeRefused | disposeNode | disposeScope | number
  | inspect | consult | adjust | reached | circle | follow | stale | known | allAsked | skip | changed
  | unchanged | upToDate | cleaned | busy | held | flush | drained | gaveUp =>
    exact silent rfl (h.still rfl rfl rfl)
  | write | newEffect | batch | ask => exact silent rfl (h.push rfl rfl rfl rfl nofun rfl)
  | dequeue waiting =>
    exact silent rfl (h.push rfl rfl rfl rfl nofun (Engine.tracking_dequeue waiting))
  | untrack | compute | perform => exact silent rfl (h.enter rfl rfl rfl rfl rfl)
  | told | created | turn | written | closed =>
    exact silent rfl (h.pop rfl inside rfl rfl nofun rfl)
  | computed =>
    exact silent rfl (h.leave rfl inside rfl rfl (by rw [Engine.storeOutcome_closeRun]))
  | performed | tracked => exact silent rfl (h.leave rfl inside rfl rfl rfl)
  | close =>
    obtain ⟨above, hcallers, hstacked, hcollecting⟩ := h
    cases above with
    | nil =>
      obtain rfl := hcallers
      cases inside.eq_of_length rfl
    | cons c above =>
      obtain ⟨rfl, hrest⟩ := List.cons.inj hcallers
      refine silent rfl ⟨.closing _ _ :: above, congrArg _ hrest, ⟨rfl, hstacked.2⟩, ?_⟩
      exact (hcollecting.pop_open rfl nofun).push_open rfl nofun
  | @readSignal cell tracked reader _ _ _ _ signal found kind =>
    obtain ⟨above, rfl, hstacked, hcollecting⟩ := h
    have finds := (Engine.finds_signal signal).2 ⟨_, _, found, kind⟩
    refine ⟨above, rfl, (level_resume _ _ _).symm ▸ hstacked, ?_⟩
    rw [reads?_of_finds finds]
    exact hcollecting.saw hstacked cell tracked
  | @readComputed cell tracked reader _ _ _ _ _ computed found kind =>
    obtain ⟨above, rfl, hstacked, hcollecting⟩ := h
    have finds := (Engine.finds_computed computed).2 ⟨_, _, _, found, kind⟩
    refine ⟨.reading cell tracked reader :: above, rfl, ⟨rfl, hstacked⟩, ?_⟩
    rw [reads?_of_finds finds]
    exact hcollecting.ask cell tracked reader
  | readNoSignal signal gone =>
    refine h.refused (fun finds => ?_) _
    obtain ⟨n, value, found, kind⟩ := (Engine.finds_signal signal).1 finds
    exact gone n value found kind
  | readRunning computed found kind =>
    refine h.refused (fun finds => ?_) _
    obtain ⟨n, body, last, hn, hkind⟩ := (Engine.finds_computed computed).1 finds
    simp_all
  | readNoComputed computed gone =>
    refine h.refused (fun finds => ?_) _
    obtain ⟨n, body, last, found, kind⟩ := (Engine.finds_computed computed).1 finds
    exact gone n body false last found kind
  | answered =>
    obtain ⟨above, hcallers, -, hstacked, hcollecting⟩ := h.split rfl inside
    exact silent rfl ⟨above, hcallers, (level_resume _ _ _).symm ▸ hstacked, hcollecting.answer hstacked⟩

/-- What the run has read by then. -/
theorem Path.collected {ms : List (Moment σ)} (path : Path Step m ms m') (h : Collected k rest cells m)
    (inside : ∀ m ∈ ms, k <:+ m.callers) (last : k <:+ m'.callers) :
    Collected k rest (cells ++ ms.filterMap (reads? k.length)) m' := by
  induction path generalizing cells with
  | nil => simpa using h
  | @cons m m₁ m' ms step path ih =>
    have hnext : k <:+ m₁.callers := by
      cases path with
      | nil => exact last
      | cons => exact inside _ (by simp)
    have hrest := ih (step.collected h hnext) (fun m hm => inside m (List.mem_cons_of_mem _ hm)) last
    rw [List.filterMap_cons]
    cases hread : m.reads? k.length <;> simpa [hread] using hrest

theorem later_of_path {ms : List (Moment σ)} (path : Path Step m ms m') : Later m m' := by
  induction path with
  | nil => exact .refl
  | cons step _ ih => exact .head (.inl step) ih

/-! ## The end of the run -/

theorem nodup_record {seen : List NodeId} (nodup : seen.Nodup) (cells : List Cell) :
    (record seen cells).Nodup := by
  induction cells generalizing seen with
  | nil => exact nodup
  | cons cell cells ih => exact ih (nodup_enlist nodup)

/-- At the end the frame of the run is the innermost one, and holds what the run has read. -/
theorem Collected.collected {e : Engine σ} {o : Outcome}
    (h : Collected k rest cells ⟨.work (.done o), k, e⟩) : e.collected = record [] cells := by
  obtain ⟨above, hcallers, -, frames, reads, htracking, hlength, hrecord⟩ := h
  obtain rfl : above = [] := List.self_eq_append_left.1 hcallers
  obtain rfl : frames = [] := List.length_eq_zero_iff.1 hlength
  simp only [List.nil_append] at htracking
  simpa [Engine.collected, htracking, awaited] using hrecord.symm

/-- The graph after a run is the one in which the reads are recorded, but for kinds and freshness. -/
theorem Step.alters {e e' : Engine σ} {o : Outcome} {id : NodeId} {c : Caller σ} {task : Task σ}
    {k' : List (Caller σ)} (hc : c = .computing id ∨ c = .performing id)
    (ends : Step ⟨.work (.done o), c :: k, e⟩ ⟨task, k', e'⟩) :
    (e.graph.relink id e.collected).Alters e'.graph := by
  rcases hc with rfl | rfl
  · cases ends
    rw [Engine.storeOutcome_closeRun]
    exact Graph.alters_stored _ _ _
  · cases ends
    rw [Engine.restEffect_closeRun]
    exact Graph.alters_effectFinished _ _ _

theorem Runs.sources {id : NodeId} {ms : List (Moment σ)} (runs : Runs id m ms m')
    {n : Node (Program σ)} (live : m'.engine.graph.node? id = some n) :
    n.sources = (record [] (ms.filterMap (reads? (m.callers.length + 1)))).filter fun s =>
      (m'.engine.graph.node? s).isSome := by
  obtain @⟨k, c, e, e₀, e₁, body, o, ms, m', begins, path, inside, ends⟩ := runs
  obtain ⟨rest, hstart, hc⟩ : ∃ rest, e₀.tracking = some [] :: rest ∧
      (c = .computing id ∨ c = .performing id) := by
    cases begins with
    | compute => exact ⟨_, rfl, .inl rfl⟩
    | perform => exact ⟨_, rfl, .inr rfl⟩
  have hfirst : Collected (c :: k) rest [] ⟨.work body, c :: k, e₀⟩ :=
    ⟨[], rfl, rfl, [], [], hstart, rfl, rfl⟩
  have hcollected := (path.collected hfirst inside (List.suffix_refl _)).collected
  have halters := ends.alters hc
  obtain ⟨n', hn', hshape⟩ := halters.origin live
  have hgone : ∃ l, e₁.graph.node? id = some l := by
    cases hl : e₁.graph.node? id with
    | none => simp [Graph.relink, hl] at hn'
    | some l => exact ⟨l, rfl⟩
  obtain ⟨l, hl⟩ := hgone
  have hlive (x : NodeId) : (m'.engine.graph.node? x).isSome = (e₁.graph.node? x).isSome := by
    rw [← Graph.isSome_relink hl, ← Option.isSome_map (f := Node.shape), halters.shape, Option.isSome_map]
  rw [Graph.node?_relink hl, hl, Option.map_some] at hn'
  obtain rfl := Option.some.inj hn'
  have hsources : n.sources = _ := congrArg (fun shape => shape.2.1.1) hshape
  rw [hsources]
  simp [Node.shape, Graph.ends, Graph.relinked, hcollected, hlive]

theorem Runs.later {id : NodeId} {ms : List (Moment σ)} (runs : Runs id m ms m') : Later m m' := by
  obtain ⟨begins, path, -, ends⟩ := runs
  exact .head (.inl begins) ((later_of_path path).tail (.inl ends))

/-- What its sources are to the node after a run: they know of it, and no other node does. -/
theorem Runs.recorded {id : NodeId} {ms : List (Moment σ)} (reached : m.Reached)
    (runs : Runs id m ms m') {n : Node (Program σ)} (live : m'.engine.graph.node? id = some n) :
    n.sources.Nodup ∧ ∀ {x : NodeId} {l : Node (Program σ)}, m'.engine.graph.node? x = some l →
      (id ∈ l.subscribers ↔ x ∈ n.sources) := by
  refine ⟨runs.sources live ▸ (nodup_record List.nodup_nil _).filter _, fun found => ?_⟩
  obtain ⟨settings, host, p, later⟩ := reached
  have later : Later _ m' := later.trans runs.later
  exact ((later.onward (sound_start settings host p)).sound.graph.linked.edge live found).symm

end Moment

/-- Programs whose reads are no dependencies. -/
inductive Program.Aside : Program σ → Prop where
  | untrack (body : Program σ) : Aside (.untrack body .done)
  | peek (cell : Cell) : Aside (.peek cell)
  | render (source : String) (context : Value) : Aside (Template.renderOnce source context)
  | evaluate (source : String) (context : Value) : Aside (Template.evaluateOnce source context)

theorem Engine.run_aside {depth : Nat} {p : Program σ} {e e' : Engine σ} {o : Outcome}
    (aside : p.Aside) (ran : run depth p e = some (o, e')) : e'.tracking = e.tracking := by
  cases aside with
  | untrack => exact run_untrack ran
  | peek => exact run_peek ran
  | render => exact run_renderOnce ran
  | evaluate => exact run_evaluateOnce ran

namespace Moment

/-- If a node is still there after a run, its sources are what the run itself read, in the order of the
first reads, as far as that is still there; and the node is a subscriber of these only. Reads aside
leave no trace on the stack. -/
theorem reads_recorded :
    (∀ {id : NodeId} {m m' : Moment σ} {ms : List (Moment σ)} {n : Node (Program σ)}, m.Reached →
      Runs id m ms m' → m'.engine.graph.node? id = some n →
        n.sources = ((record [] (ms.filterMap (reads? (m.callers.length + 1)))).filter fun s =>
          (m'.engine.graph.node? s).isSome) ∧
        n.sources.Nodup ∧
        ∀ {x : NodeId} {l : Node (Program σ)}, m'.engine.graph.node? x = some l →
          (id ∈ l.subscribers ↔ x ∈ n.sources)) ∧
    ∀ {depth : Nat} {p : Program σ} {e e' : Engine σ} {o : Outcome}, p.Aside →
      Engine.run depth p e = some (o, e') → e'.tracking = e.tracking :=
  ⟨fun reached runs live => ⟨runs.sources live, runs.recorded reached live⟩, Engine.run_aside⟩

namespace Glance

def first : NodeId := ⟨0, 0⟩

def second : NodeId := ⟨1, 0⟩

def sum : NodeId := ⟨2, 0⟩

/-- Reads one signal twice, and another one in between, in an untracked region. -/
def body : Program Unit :=
  .read ⟨.signal, first⟩ true fun _ => .untrack (.get ⟨.signal, second⟩) fun _ => .get ⟨.signal, first⟩

def session : Program Unit :=
  .newSignal .undefined fun _ => .newSignal .undefined fun _ => .newComputed none body fun _ =>
    .get ⟨.computed, sum⟩

def founded : Engine Unit :=
  let e : Engine Unit := .start .default ()
  let g := (e.graph.insertNode (.signal .undefined) .clean none).2
  let g := (g.insertNode (.signal .undefined) .clean none).2
  { e with graph := (g.insertNode (.computed body false none) .dirty none).2 }

def before : Moment Unit :=
  ⟨.settle sum, [.reading ⟨.computed, sum⟩ true (.program .done)], founded⟩

theorem reached_before : before.Reached := by
  refine ⟨.default, (), session, later_of_steps ?_⟩
  have hfounded : Steps ⟨.work session, [], .start .default ()⟩
      ⟨.work (.get ⟨.computed, sum⟩), [], founded⟩ :=
    .head .newSignal (.head .newSignal (.single .newComputed))
  have hdirty : founded.graph.freshness? sum = some .dirty := by cbv
  exact hfounded.trans (.head .read
    (.head (.readComputed (n := ⟨.computed body false none, .dirty, [], [], none⟩) rfl (by cbv) rfl)
      (.single (.known (by simp [hdirty])))))

theorem runs_body : ∃ ms m', Runs sum before ms m' ∧
    ms.filterMap (reads? 2) = [⟨.signal, first⟩, ⟨.signal, first⟩] ∧
    m'.engine.graph.node? sum =
      some ⟨.computed body false (some (.ok .undefined)), .clean, [first], [], none⟩ := by
  refine ⟨_, _, .run (.compute (n := ⟨.computed body false none, .dirty, [], [], none⟩) (by cbv) rfl rfl)
    (.cons .read (.cons (.readSignal (n := ⟨.signal .undefined, .clean, [], [], none⟩) rfl (by cbv) rfl)
      (.cons .untrack (.cons .read
        (.cons (.readSignal (n := ⟨.signal .undefined, .clean, [], [], none⟩) rfl (by cbv) rfl)
          (.cons .tracked (.cons .read
            (.cons (.readSignal (n := ⟨.signal .undefined, .clean, [], [], none⟩) rfl (by cbv) rfl)
              (.nil _))))))))) ?_ .computed, ?_, ?_⟩
  · simp [Reader.resume]
  · cbv
  · cbv

end Glance

open Glance in
/-- The signal that is read in the untracked region is no source. -/
theorem reads_recorded_sum : ∃ ms m', before.Reached ∧ Runs sum before ms m' ∧
    ∃ n, m'.engine.graph.node? sum = some n ∧
      n.sources = ((record [] (ms.filterMap (reads? 2))).filter fun s =>
        (m'.engine.graph.node? s).isSome) ∧ n.sources = [first] := by
  obtain ⟨ms, m', runs, -, live⟩ := runs_body
  exact ⟨ms, m', reached_before, runs, _, live, (reads_recorded.1 reached_before runs live).1, rfl⟩

end Moment

end LiveTemplate.Reactive
