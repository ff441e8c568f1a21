import LiveTemplate.Proofs.Reactive.Disposal
import LiveTemplate.Proofs.Reactive.Thrift

/-!
# Turns

A flush takes effects off the queue, and each of them has its turn: its sources are asked, and then its
body is run if one of them has changed. What the settings limit is the number of turns
(`Moment.flush_turns`). So the number of runs is limited too, but a flush can give up although it has
not run a single body, when the effects that had their turn turn out to be up to date
(`Moment.gives_up_idle`).

No flush begins while another one is at work, so at each moment there is one turn at most
(`Moment.Sheltered`), and in each turn the effect is settled once (`Moment.InTurn`). Out of turn, only
effects that have just been created run (`Moment.Reached.isTurn_or_creating`).
-/
namespace LiveTemplate.Reactive

variable {σ : Type}

/-- Waits for the turn of an effect to be over. -/
def Caller.drains : Caller σ → Bool
  | .draining _ _ => true
  | _ => false

def Task.drains : Task σ → Bool
  | .drain _ _ => true
  | _ => false

@[simp] theorem Task.drains_resume (reader : Reader σ) (o : Outcome) (cell : Cell) :
    (reader.resume o cell).drains = false := by
  cases reader with
  | program => rfl
  | chain => cases o <;> rfl

/-- The node that is brought up to date. -/
def Task.node? : Task σ → Option NodeId
  | .refresh id | .ask id _ | .asked id _ | .settle id => some id
  | _ => none

@[simp] theorem Task.node?_resume (reader : Reader σ) (o : Outcome) (cell : Cell) :
    (reader.resume o cell).node? = none := by
  cases reader with
  | program => rfl
  | chain => cases o <;> rfl

/-- The node that is brought up to date, and waits. -/
def Caller.node? : Caller σ → Option NodeId
  | .asking id _ | .computing id | .performing id => some id
  | _ => none

namespace Graph

variable {g h : Graph (Program σ)} {x : NodeId} {k : List (Caller σ)}

/-- These callers wait for the node to be up to date. Only one that creates it or takes it from the queue
waits for an effect. -/
def Requested (g : Graph (Program σ)) (x : NodeId) : List (Caller σ) → Prop
  | .reading .. :: _ | .asking .. :: _ => g.OfSort (· ≠ .effect) x
  | .creating id _ :: _ => x = id
  | .draining .. :: _ => True
  | _ => False

def AllRequested (g : Graph (Program σ)) : List (Caller σ) → Prop
  | [] => True
  | c :: k => (∀ x ∈ c.node?, g.Requested x k) ∧ g.AllRequested k

theorem Requested.lasts (requested : g.Requested x k) (lasts : g.Lasts h) : h.Requested x k := by
  unfold Requested at requested ⊢
  split at requested <;> first | exact lasts.ofSort requested | exact requested

theorem AllRequested.lasts (requested : g.AllRequested k) (lasts : g.Lasts h) : h.AllRequested k := by
  induction k with
  | nil => trivial
  | cons c k ih => exact ⟨fun x hx => (requested.1 x hx).lasts lasts, ih requested.2⟩

theorem ofSort_of_isIdleComputed (idle : (g.node? x).any Node.isIdleComputed = true) :
    g.OfSort (· ≠ .effect) x := by
  obtain ⟨n, body, last, hn, hkind⟩ := node_of_isIdleComputed idle
  exact .inr ⟨n, hn, by simp [Node.sort_eq_computed.2 ⟨_, _, _, hkind⟩]⟩

end Graph

@[simp] theorem Engine.flushing_trackIf (e : Engine σ) (tracked : Bool) (id : NodeId) :
    (e.trackIf tracked id).flushing = e.flushing := by
  obtain ⟨frames, h⟩ := e.trackIf_eq tracked id
  rw [h]

namespace Moment

variable {m m' : Moment σ}

/-- An effect from the queue has its turn. Its sources have been asked, and it runs now if it has to. -/
def isTurn (m : Moment σ) : Bool :=
  match m.task with
  | .settle _ => m.callers.head?.any Caller.drains
  | _ => false

/-- The step from this moment begins to run the body of an effect. -/
def performs (m : Moment σ) : Bool :=
  match m.task with
  | .settle id =>
    (m.engine.graph.node? id).any fun n => n.freshness = .dirty && n.isEffect && !n.isRunning
  | _ => false

theorem effect_of_performs (h : m.performs = true) :
    ∃ id n body, m.task = .settle id ∧ m.engine.graph.node? id = some n ∧ n.freshness = .dirty ∧
      n.kind = .effect body false := by
  obtain ⟨task, k, e⟩ := m
  cases task with
  | settle id =>
    obtain ⟨n, hn, h⟩ : ∃ n, e.graph.node? id = some n ∧
        (n.freshness = .dirty && n.isEffect && !n.isRunning) = true := by
      simpa [performs, Option.any_eq_true] using h
    simp only [Bool.and_eq_true, decide_eq_true_eq, Bool.not_eq_true'] at h
    obtain ⟨⟨hdirty, heffect⟩, hidle⟩ := h
    obtain ⟨body, running, hkind⟩ := Node.kind_of_isEffect heffect
    obtain rfl : running = false := by simpa [Node.isRunning, hkind] using hidle
    exact ⟨id, n, body, rfl, hn, hdirty, hkind⟩
  | _ => cases h

theorem performs_iff :
    m.performs = true ↔ ∃ id m', Step m m' ∧ m'.callers = .performing id :: m.callers := by
  constructor
  · intro h
    obtain ⟨id, n, body, htask, hn, hdirty, hkind⟩ := effect_of_performs h
    obtain ⟨task, k, e⟩ := m
    subst htask
    exact ⟨id, _, .perform hn hdirty hkind, rfl⟩
  · rintro ⟨id, m', step, hcallers⟩
    have hlength := congrArg List.length hcallers
    cases step with
    | perform found dirty kind =>
      simp [performs, found, dirty, Node.isEffect, Node.isRunning, kind]
    | _ => grind

/-! ## Callers come and go -/

theorem Step.flushing (step : Step m m') (flushing : m.engine.flushing = true)
    (task : m.task.drains = false) : m'.engine.flushing = true := by
  cases step with
  | flush => rfl
  | drained | gaveUp => cases task
  | readSignal | answered => exact (Engine.flushing_trackIf _ _ _).trans flushing
  | computed =>
    rw [Engine.storeOutcome_closeRun]
    exact flushing
  | dequeue => cases task
  | _ => exact flushing

/-- During a flush no other one begins to work on the queue. -/
theorem Step.moves (step : Step m m') (flushing : m.engine.flushing = true)
    (task : m.task.drains = false) :
    ∃ pushed : List (Caller σ), (∀ c ∈ pushed, c.drains = false) ∧
      (m'.callers = pushed ++ m.callers ∧ m'.task.drains = false ∨
        ∃ c k, m.callers = c :: k ∧ m'.callers = pushed ++ k ∧
          (c.drains = false → m'.task.drains = false)) := by
  have nothing : ∀ c ∈ ([] : List (Caller σ)), c.drains = false := List.forall_mem_nil _
  cases step with
  | flush free =>
    rw [Bool.or_eq_false_iff] at free
    exact absurd flushing (Bool.eq_false_iff.1 free.2)
  | drained | gaveUp | dequeue => cases task
  | write | newEffect | batch | untrack | readComputed | ask | compute | perform =>
    exact ⟨[_], by simp [Caller.drains], .inl ⟨rfl, rfl⟩⟩
  -- the body of a batch has ended, and the flush behind it is waited for instead
  | close => exact ⟨[_], by simp [Caller.drains], .inr ⟨_, _, rfl, rfl, fun _ => rfl⟩⟩
  | turn => exact ⟨[], nothing, .inr ⟨_, _, rfl, rfl, nofun⟩⟩
  | answered => exact ⟨[], nothing, .inr ⟨_, _, rfl, rfl, fun _ => Task.drains_resume _ _ _⟩⟩
  | told | computed | performed | created | written | closed | tracked =>
    exact ⟨[], nothing, .inr ⟨_, _, rfl, rfl, fun _ => rfl⟩⟩
  | readSignal | readNoSignal | readRunning | readNoComputed =>
    exact ⟨[], nothing, .inl ⟨rfl, by simp⟩⟩
  | _ => exact ⟨[], nothing, .inl ⟨rfl, rfl⟩⟩

variable {base k : List (Caller σ)} {late : Bool}

/-- Callers are added and taken away at the top, one at a time. -/
theorem Step.suffix_or_eq (step : Step m m') (inside : k <:+ m.callers) :
    k <:+ m'.callers ∨ m.callers = k := by
  have popped {c : Caller σ} {above : List (Caller σ)} (inside : k <:+ c :: above) :
      k <:+ above ∨ c :: above = k := (List.suffix_cons_iff.1 inside).symm.imp_right Eq.symm
  cases step with
  | answered | told | computed | performed | created | turn | written | closed | tracked =>
    exact popped inside
  | close => exact (popped inside).imp_left (·.trans (List.suffix_cons _ _))
  | write | newEffect | batch | untrack | readComputed | ask | compute | perform | dequeue =>
    exact .inl (inside.trans (List.suffix_cons _ _))
  | _ => exact .inl inside

/-- A node that asked goes on when it has been told. -/
theorem Step.told_of_asking {id : NodeId} {rest : List NodeId} (step : Step m m')
    (above : .asking id rest :: k <:+ m.callers) :
    .asking id rest :: k <:+ m'.callers ∨ m' = ⟨.asked id rest, k, m'.engine⟩ := by
  rcases step.suffix_or_eq above with above' | hcallers
  · exact .inl above'
  obtain ⟨_, _, e⟩ := m
  subst hcallers
  cases step with
  | told => exact .inr rfl
  | _ => exact .inl (by first | exact List.suffix_refl _ | exact List.suffix_cons _ _)

theorem Step.ended_of_runs {c : Caller σ} {id : NodeId} (runs : c.runs? = some id) (step : Step m m')
    (above : c :: k <:+ m.callers) :
    c :: k <:+ m'.callers ∨ m' = ⟨.refreshed, k, m'.engine⟩ := by
  rcases step.suffix_or_eq above with above' | hcallers
  · exact .inl above'
  obtain ⟨_, _, e⟩ := m
  subst hcallers
  cases step with
  | computed | performed => exact .inr rfl
  | answered | told | created | turn | written | close | closed | tracked => cases runs
  | _ => exact .inl (by first | exact List.suffix_refl _ | exact List.suffix_cons _ _)

/-! ## One turn -/

/-- Nothing on top of these callers works on the queue. -/
structure Sheltered (base : List (Caller σ)) (m : Moment σ) : Prop where
  callers : ∃ above, m.callers = above ++ base ∧ ∀ c ∈ above, c.drains = false
  task : m.task.drains = false
  flushing : m.engine.flushing = true

theorem Sheltered.step {c : Caller σ} (sheltered : Sheltered (c :: k) m) (step : Step m m')
    (inside : c :: k <:+ m'.callers) : Sheltered (c :: k) m' := by
  obtain ⟨⟨above, hcallers, habove⟩, htask, hflushing⟩ := sheltered
  obtain ⟨pushed, hpushed, hmoves⟩ := step.moves hflushing htask
  have hflushing' := step.flushing hflushing htask
  rcases hmoves with ⟨hcallers', htask'⟩ | ⟨c₁, k₁, htop, hcallers', htask'⟩
  · refine ⟨⟨pushed ++ above, by simp [hcallers', hcallers], ?_⟩, htask', hflushing'⟩
    simpa [or_imp, forall_and] using ⟨hpushed, habove⟩
  rw [hcallers] at htop
  cases above with
  | cons c' above =>
    obtain ⟨rfl, rfl⟩ := List.cons.inj htop
    rw [List.forall_mem_cons] at habove
    refine ⟨⟨pushed ++ above, by simp [hcallers'], ?_⟩, htask' habove.1, hflushing'⟩
    simpa [or_imp, forall_and] using ⟨hpushed, habove.2⟩
  | nil =>
    -- the caller is replaced by one of its own kind
    obtain ⟨rfl, rfl⟩ := List.cons.inj htop
    obtain ⟨l, hl⟩ := inside
    obtain rfl : l ++ [c] = pushed := List.append_cancel_right (by simpa [hcallers'] using hl)
    simp only [List.mem_append, List.mem_singleton, or_imp, forall_and, forall_eq] at hpushed
    exact ⟨⟨l, hl.symm, hpushed.1⟩, htask' hpushed.2, hflushing'⟩

theorem Sheltered.callers_eq (sheltered : Sheltered base m) (turn : m.isTurn = true) :
    m.callers = base := by
  obtain ⟨⟨above, hcallers, habove⟩, -, -⟩ := sheltered
  cases above with
  | nil => exact hcallers
  | cons c above =>
    unfold isTurn at turn
    split at turn
    · simp [hcallers, habove c] at turn
    · cases turn

/-- An effect has its turn on top of these callers, and has not been settled yet or has been. Before, its
sources are asked; after that, it runs. -/
inductive InTurn (base : List (Caller σ)) : Bool → Moment σ → Prop where
  | refresh {id : NodeId} {e : Engine σ} : InTurn base false ⟨.refresh id, base, e⟩
  | ask {id : NodeId} {sources : List NodeId} {e : Engine σ} :
      InTurn base false ⟨.ask id sources, base, e⟩
  | asked {id : NodeId} {rest : List NodeId} {e : Engine σ} :
      InTurn base false ⟨.asked id rest, base, e⟩
  | settle {id : NodeId} {e : Engine σ} : InTurn base false ⟨.settle id, base, e⟩
  | asking {m : Moment σ} {id : NodeId} {rest : List NodeId}
      (inside : .asking id rest :: base <:+ m.callers) : InTurn base false m
  | running {m : Moment σ} {c : Caller σ} {id : NodeId} (runs : c.runs? = some id)
      (inside : c :: base <:+ m.callers) : InTurn base true m
  | refreshed {e : Engine σ} : InTurn base true ⟨.refreshed, base, e⟩

theorem not_isTurn_of_suffix {c : Caller σ} (sheltered : Sheltered base m)
    (inside : c :: base <:+ m.callers) : m.isTurn = false := by
  refine Bool.eq_false_iff.2 fun turn => ?_
  have hlength := inside.length_le
  simp [sheltered.callers_eq turn] at hlength

theorem InTurn.not_isTurn (inTurn : InTurn base true m) (sheltered : Sheltered base m) :
    m.isTurn = false := by
  cases inTurn with
  | running runs inside => exact not_isTurn_of_suffix sheltered inside
  | refreshed => rfl

/-- Within its turn an effect is settled once. -/
theorem InTurn.step {c : Caller σ} (drains : c.drains = true) (inTurn : InTurn (c :: k) late m)
    (sheltered : Sheltered (c :: k) m) (step : Step m m') (inside : c :: k <:+ m'.callers) :
    InTurn (c :: k) (late || m.isTurn) m' := by
  cases inTurn with
  | refresh => cases step with
    | stale => exact .ask
    | known => exact .settle
  | ask => cases step with
    | allAsked => exact .settle
    | ask => exact .asking (List.suffix_refl _)
    | skip => exact .asked
  | asked => cases step with
    | changed => exact .settle
    | unchanged => exact .ask
  | @settle id e =>
    have hturn : isTurn ⟨.settle id, c :: k, e⟩ = true := by simpa [isTurn] using drains
    rw [hturn]
    cases step with
    | upToDate | cleaned | busy => exact .refreshed
    | compute | perform => exact .running rfl (List.suffix_refl _)
  | asking above =>
    rw [not_isTurn_of_suffix sheltered above]
    rcases step.told_of_asking above with above' | hm
    · exact .asking above'
    · rw [hm]
      exact .asked
  | running runs above =>
    rcases step.ended_of_runs runs above with above' | hm
    · exact .running runs above'
    · rw [hm]
      exact .refreshed
  | refreshed => cases step with
    | turn =>
      have hlength := inside.length_le
      simp at hlength
    | answered | told | created => cases drains

theorem InTurn.suffix (inTurn : InTurn base late m) : base <:+ m.callers := by
  cases inTurn with
  | asking inside | running _ inside => exact (List.suffix_cons _ _).trans inside
  | _ => exact List.suffix_refl _

/-- A turn is over when the effect has been settled and is up to date. -/
theorem InTurn.over (inTurn : InTurn base late m) (step : Step m m')
    (outside : ¬base <:+ m'.callers) : late = true ∧ m = ⟨.refreshed, base, m.engine⟩ := by
  have hcallers := (step.suffix_or_eq inTurn.suffix).resolve_left outside
  cases inTurn with
  | refreshed => exact ⟨rfl, rfl⟩
  | asking inside | running _ inside =>
    have hlength := inside.length_le
    simp [hcallers] at hlength
  | refresh | ask | asked | settle =>
    refine absurd ?_ outside
    cases step <;> first | exact List.suffix_refl _ | exact List.suffix_cons _ _

/-! ## Other runs -/

/-- Each node that is brought up to date is so for its callers, and so are those that wait. -/
structure Requested (m : Moment σ) : Prop where
  task : ∀ x ∈ m.task.node?, m.engine.graph.Requested x m.callers
  callers : m.engine.graph.AllRequested m.callers

theorem Requested.step (requested : m.Requested) (step : Step m m')
    (lasts : m.engine.graph.Lasts m'.engine.graph) : m'.Requested := by
  obtain ⟨htask, hcallers⟩ := requested
  have hcallers' := hcallers.lasts lasts
  have nobody {p : NodeId → Prop} : ∀ x ∈ (none : Option NodeId), p x := by simp
  cases step with
  | readComputed _ found kind =>
    refine ⟨fun x hx => ?_, nobody, hcallers⟩
    cases hx
    exact .inr ⟨_, found, by simp [Node.sort_eq_computed.2 ⟨_, _, _, kind⟩]⟩
  | ask idle =>
    refine ⟨fun x hx => ?_, htask, hcallers⟩
    cases hx
    exact Graph.ofSort_of_isIdleComputed idle
  | newEffect => exact ⟨fun x hx => (Option.some.inj hx).symm, nobody, hcallers'⟩
  | dequeue => exact ⟨fun _ _ => trivial, nobody, hcallers'⟩
  | stale | known | allAsked | skip | changed | unchanged => exact ⟨htask, hcallers⟩
  | compute | perform => exact ⟨nobody, fun x hx => (htask x hx).lasts lasts, hcallers'⟩
  | told => exact ⟨hcallers.1, hcallers.2⟩
  | answered =>
    refine ⟨?_, hcallers'.2⟩
    simp
  | readSignal | readNoSignal | readRunning | readNoComputed =>
    refine ⟨?_, hcallers'⟩
    simp
  | computed | performed | created | turn | written | closed | tracked =>
    exact ⟨nobody, hcallers'.2⟩
  | close => exact ⟨nobody, nobody, hcallers'.2⟩
  | write | batch | untrack => exact ⟨nobody, nobody, hcallers'⟩
  | _ => exact ⟨nobody, hcallers'⟩

theorem Later.requested (later : Later m m') (sound : m.Sound) (requested : m.Requested) :
    m'.Requested := by
  induction later with
  | refl => exact requested
  | tail later next ih =>
    rcases next with step | call
    · exact ih.step step (step.onward (Later.onward later sound).sound).lasts
    · cases call
      exact ⟨by simp [Task.node?], trivial⟩

theorem Reached.requested (reached : m.Reached) : m.Requested := by
  obtain ⟨settings, host, p, later⟩ := reached
  exact later.requested (sound_start settings host p) ⟨by simp [Task.node?], trivial⟩

/-- The body of an effect is run in its turn, or when the effect has just been created. -/
theorem Reached.isTurn_or_creating (reached : m.Reached) (performs : m.performs = true) :
    m.isTurn = true ∨ ∃ id next k, m.task = .settle id ∧ m.callers = .creating id next :: k := by
  obtain ⟨id, n, body, htask, hn, -, hkind⟩ := effect_of_performs performs
  have requested := reached.requested.task id (by simp [htask, Task.node?])
  have effect : ¬m.engine.graph.OfSort (· ≠ .effect) id := by
    rintro (spent | ⟨n', hn', cell⟩)
    · simp [spent.node?] at hn
    · obtain rfl := Option.some.inj (hn.symm.trans hn')
      exact cell (Node.sort_eq_effect.2 ⟨_, _, hkind⟩)
  cases hcallers : m.callers with
  | nil =>
    rw [hcallers] at requested
    cases requested
  | cons c k =>
    rw [hcallers] at requested
    cases c with
    | reading | asking => exact absurd requested effect
    | creating =>
      cases requested
      exact .inr ⟨_, _, _, htask, rfl⟩
    | draining => exact .inl (by simp [isTurn, htask, hcallers, Caller.drains])
    | _ => cases requested

/-! ## A whole flush -/

/-- The stages of a flush on top of these callers. Out of `limit` effects that may have their turn, so
many still may. -/
inductive Progress (k : List (Caller σ)) (limit : Nat) : Nat → Moment σ → Prop where
  | flush {e : Engine σ} (allowed : e.settings.maxRuns = limit) :
      Progress k limit limit ⟨.flush, k, e⟩
  | drain {left : Nat} {e : Engine σ} (flushing : e.flushing = true) :
      Progress k limit left ⟨.drain limit left, k, e⟩
  | early {left : Nat} {m : Moment σ} (sheltered : Sheltered (.draining limit left :: k) m)
      (inTurn : InTurn (.draining limit left :: k) false m) : Progress k limit (left + 1) m
  | late {left : Nat} {m : Moment σ} (sheltered : Sheltered (.draining limit left :: k) m)
      (inTurn : InTurn (.draining limit left :: k) true m) : Progress k limit left m
  | settled {left : Nat} {e : Engine σ} : Progress k limit left ⟨.flushed (.ok ()), k, e⟩
  | gaveUp {e : Engine σ} :
      Progress k limit 0 ⟨.flushed (.error (.reactive (.unsettled limit))), k, e⟩

variable {limit left : Nat} {ms : List (Moment σ)}

theorem Progress.step (progress : Progress k limit left m) (step : Step m m')
    (inside : k <:+ m'.callers) :
    ∃ left', left = left' + [m].countP isTurn ∧ Progress k limit left' m' := by
  cases progress with
  | flush allowed => cases step with
    | held => exact ⟨limit, rfl, .settled⟩
    | flush => exact ⟨limit, rfl, allowed ▸ .drain rfl⟩
  | drain flushing => cases step with
    | drained => exact ⟨left, rfl, .settled⟩
    | gaveUp => exact ⟨0, rfl, .gaveUp⟩
    | dequeue waiting =>
      obtain ⟨rest, -, rfl⟩ := Engine.dequeue_eq_some waiting
      exact ⟨_, rfl, .early ⟨⟨[], rfl, nofun⟩, rfl, flushing⟩ .refresh⟩
  | @early left _ sheltered inTurn =>
    by_cases hinside : .draining limit left :: k <:+ m'.callers
    · have hsheltered := sheltered.step step hinside
      have hturn := inTurn.step rfl sheltered step hinside
      cases h : m.isTurn with
      | false => exact ⟨left + 1, by simp [h], .early hsheltered (by simpa [h] using hturn)⟩
      | true => exact ⟨left, by simp [h], .late hsheltered (by simpa [h] using hturn)⟩
    · cases (inTurn.over step hinside).1
  | late sheltered inTurn =>
    by_cases hinside : .draining limit left :: k <:+ m'.callers
    · have hsheltered := sheltered.step step hinside
      exact ⟨left, by simp [inTurn.not_isTurn sheltered],
        .late hsheltered (by simpa using inTurn.step rfl sheltered step hinside)⟩
    · obtain ⟨-, hm⟩ := inTurn.over step hinside
      have hflushing := sheltered.flushing
      rw [hm] at step hflushing ⊢
      cases step with
      | turn => exact ⟨left, rfl, .drain hflushing⟩
  | settled | gaveUp => exact absurd inside (stops_flushed step)

/-- These are the moments of a flush on top of these callers, up to the last one, which need not be the
end of it. -/
structure Flushes (k : List (Caller σ)) (e : Engine σ) (ms : List (Moment σ)) (m : Moment σ) :
    Prop where
  path : Path Step ⟨.flush, k, e⟩ ms m
  inside : ∀ w ∈ ms, k <:+ w.callers
  last : k <:+ m.callers

theorem Path.progress (path : Path Step m ms m') (progress : Progress k limit left m)
    (inside : ∀ w ∈ ms, k <:+ w.callers) (last : k <:+ m'.callers) :
    ∃ left', left = left' + ms.countP isTurn ∧ Progress k limit left' m' := by
  induction path generalizing left with
  | nil => exact ⟨left, rfl, progress⟩
  | @cons m m₁ m' ms step path ih =>
    have hnext : k <:+ m₁.callers := by
      cases path with
      | nil => exact last
      | cons => exact inside _ (by simp)
    obtain ⟨left₁, rfl, hprogress⟩ := progress.step step hnext
    obtain ⟨left', rfl, hprogress'⟩ :=
      ih hprogress (fun w hw => inside w (List.mem_cons_of_mem _ hw)) last
    exact ⟨left', by simp [List.countP_cons]; omega, hprogress'⟩

/-- How many effects from the queue have had their turn. -/
def turns (ms : List (Moment σ)) : Nat := ms.countP isTurn

/-- How many bodies of effects from the queue have been run. -/
def runs (ms : List (Moment σ)) : Nat := ms.countP fun w => w.isTurn && w.performs

theorem runs_le_turns (ms : List (Moment σ)) : runs ms ≤ turns ms :=
  List.countP_mono_left fun _ _ h => (Bool.and_eq_true_iff.1 h).1

theorem runs_eq_turns : runs ms = turns ms ↔ ∀ w ∈ ms, w.isTurn = true → w.performs = true := by
  have hruns : runs ms = (ms.filter isTurn).countP performs := by
    rw [List.countP_filter]
    exact List.countP_congr fun w _ => by rw [Bool.and_comm]
  rw [hruns, turns, List.countP_eq_length_filter (p := isTurn), List.countP_eq_length]
  simp

variable {e e' : Engine σ} {r : Except Fault Unit}

theorem Path.exists_last (path : Path Step m ms m') :
    ms = [] ∧ m = m' ∨ ∃ w, ms.getLast? = some w ∧ Step w m' := by
  induction path with
  | nil => exact .inl ⟨rfl, rfl⟩
  | cons step _ ih =>
    rcases ih with ⟨rfl, rfl⟩ | ⟨w, hw, hstep⟩
    · exact .inr ⟨_, rfl, step⟩
    · exact .inr ⟨w, by simp [List.getLast?_cons, hw], hstep⟩

theorem exists_path_atop (steps : Steps m m') (k : List (Caller σ)) :
    ∃ ms, Path Step (m.atop k) ms (m'.atop k) ∧ ∀ w ∈ ms, k <:+ w.callers := by
  induction steps using Relation.ReflTransGen.head_induction_on with
  | refl => exact ⟨[], .nil _, nofun⟩
  | head step _ ih =>
    obtain ⟨ms, path, inside⟩ := ih
    exact ⟨_, .cons (step.atop k) path, List.forall_mem_cons.2 ⟨List.suffix_append _ _, inside⟩⟩

theorem flushes_flush {depth : Nat}
    (flushed : Engine.flush (Engine.refreshWithin depth) e = some (r, e')) (k : List (Caller σ)) :
    ∃ ms, Flushes k e ms ⟨.flushed r, k, e'⟩ := by
  obtain ⟨ms, path, inside⟩ :=
    exists_path_atop (flush_steps (k := []) (refreshes_refreshWithin depth) flushed) k
  exact ⟨ms, path, inside, List.suffix_refl _⟩

theorem Flushes.progress (flushes : Flushes k e ms m) :
    ∃ left, e.settings.maxRuns = left + turns ms ∧ Progress k e.settings.maxRuns left m :=
  flushes.path.progress (.flush rfl) flushes.inside flushes.last

theorem Step.waiting_of_error {f : Fault} (step : Step m m') (task : m'.task = .flushed (.error f)) :
    m.callers = m'.callers ∧ m.engine.graph.pending ≠ [] := by
  have hlevel : m'.task.level = .queue := by
    rw [task]
    rfl
  cases step with
  | gaveUp waiting =>
    obtain ⟨rest, hpending, -⟩ := Engine.dequeue_eq_some waiting
    exact ⟨rfl, by simp [hpending]⟩
  | readSignal | readNoSignal | readRunning | readNoComputed | answered =>
    rw [level_resume] at hlevel
    cases hlevel
  | _ => cases task

/-- The flush gives up when as many effects as it may have had their turn, and one more is queued. -/
theorem Flushes.outcome (flushes : Flushes k e ms ⟨.flushed r, k, e'⟩) :
    r = .ok () ∨ r = .error (.reactive (.unsettled e.settings.maxRuns)) ∧
      turns ms = e.settings.maxRuns ∧
        ∃ w, ms.getLast? = some w ∧ w.callers = k ∧ w.engine.graph.pending ≠ [] := by
  obtain ⟨left, hleft, hprogress⟩ := flushes.progress
  generalize hm : (⟨.flushed r, k, e'⟩ : Moment σ) = m at hprogress
  cases hprogress with
  | settled =>
    cases hm
    exact .inl rfl
  | gaveUp =>
    cases hm
    obtain ⟨w, hw, hstep⟩ := flushes.path.exists_last.resolve_left fun h => by cases h.2
    refine .inr ⟨rfl, by omega, w, hw, ?_⟩
    exact hstep.waiting_of_error rfl
  | early sheltered inTurn | late sheltered inTurn =>
    have hlength := inTurn.suffix.length_le
    simp [← hm] at hlength
  | flush | drain => cases hm

/-- A flush lets no more effects from the queue have their turn than the settings allow, so it runs no
more of their bodies. It gives up only when that many have had their turn and another one is queued;
and then that many bodies have been run if and only if each of them had to run when it had its turn.
Other bodies are run only of effects that have just been created. -/
theorem flush_turns (k : List (Caller σ)) (e : Engine σ) :
    (∀ {ms : List (Moment σ)} {m : Moment σ}, Flushes k e ms m →
      runs ms ≤ turns ms ∧ turns ms ≤ e.settings.maxRuns) ∧
    (∀ {ms : List (Moment σ)} {r : Except Fault Unit} {e' : Engine σ},
      Flushes k e ms ⟨.flushed r, k, e'⟩ →
        r = .ok () ∨ r = .error (.reactive (.unsettled e.settings.maxRuns)) ∧
          turns ms = e.settings.maxRuns ∧
          (∃ w, ms.getLast? = some w ∧ w.callers = k ∧ w.engine.graph.pending ≠ []) ∧
          (runs ms = e.settings.maxRuns ↔ ∀ w ∈ ms, w.isTurn = true → w.performs = true)) ∧
    (∀ {depth : Nat} {r : Except Fault Unit} {e' : Engine σ},
      Engine.flush (Engine.refreshWithin depth) e = some (r, e') →
        ∃ ms, Flushes k e ms ⟨.flushed r, k, e'⟩) ∧
    ∀ {w : Moment σ}, w.Reached → w.performs = true →
      w.isTurn = true ∨
        ∃ id next k, w.task = .settle id ∧ w.callers = .creating id next :: k := by
  refine ⟨fun flushes => ?_, fun flushes => ?_, fun flushed => flushes_flush flushed k,
    Reached.isTurn_or_creating⟩
  · obtain ⟨left, hleft, -⟩ := flushes.progress
    exact ⟨runs_le_turns _, by omega⟩
  · refine flushes.outcome.imp_right fun ⟨hr, hturns, hlast⟩ => ⟨hr, hturns, hlast, ?_⟩
    rw [← hturns]
    exact runs_eq_turns

namespace Idle

def scope : ScopeId := ⟨0, 0⟩

def switch : NodeId := ⟨0, 0⟩

def constant : NodeId := ⟨1, 0⟩

/-- Reads a signal, and makes nothing of it. -/
def body : Program Unit := .read ⟨.signal, switch⟩ true fun _ => .done (.ok .undefined)

def label : Program Unit := .get ⟨.computed, constant⟩

def session : Program Unit :=
  .newScope none fun _ => .newSignal (.bool false) fun _ => .newComputed none body fun _ =>
    .newEffect scope label fun _ => .newEffect scope label fun _ =>
      .write switch (.bool true) fun _ => .done (.ok .undefined)

def founded : Engine Unit :=
  let e : Engine Unit := .start Engine.Small.settings ()
  let g := (e.graph.insertScope).2
  let g := (g.insertNode (.signal (.bool false)) .clean none).2
  { e with graph := (g.insertNode (.computed body false none) .dirty none).2 }

/-- Adds an effect that shows the computed. -/
def watch (e : Engine Unit) : Option (Engine Unit) :=
  (e.graph.insertOwned (.effect label false) scope).bind fun (id, g) =>
    Engine.refreshWithin 3 id { e with graph := g }

def watched : Engine Unit := ((watch founded).bind watch).get (by decide +kernel)

/-- The signal has just been written, and both effects are queued. -/
def stored : Engine Unit :=
  { watched with graph := watched.graph.written switch (.bool true) [constant] }

theorem watch_steps {e e' : Engine Unit} (ran : watch e = some e') (p : Program Unit) :
    Steps ⟨.work (.newEffect scope label fun _ => p), [], e⟩ ⟨.work p, [], e'⟩ := by
  obtain ⟨⟨id, g⟩, inserted, ran⟩ := Option.bind_eq_some_iff.1 ran
  exact .head (.newEffect inserted) ((refreshes_refreshWithin 3 _ ran).tail .created)

theorem reached_stored :
    (⟨.flush, [.writing fun _ => .done (.ok .undefined)], stored⟩ : Moment Unit).Reached := by
  refine ⟨Engine.Small.settings, (), session, later_of_steps ?_⟩
  obtain ⟨e, hfirst, hsecond⟩ := Option.bind_eq_some_iff.1
    (Option.some_get (x := (watch founded).bind watch) (by decide +kernel)).symm
  have hfounded : Steps ⟨.work session, [], .start Engine.Small.settings ()⟩ _ :=
    .head .newScope (.head .newSignal (.single .newComputed))
  have hwatched := hfounded.trans ((watch_steps hfirst _).trans (watch_steps hsecond _))
  have found : watched.graph.node? switch =
      some ⟨.signal (.bool false), .clean, [], [constant], none⟩ := by cbv
  exact hwatched.tail (.write found rfl (by decide))

/-- The first of them has its turn. -/
def taken : Engine Unit :=
  { stored with
    flushing := true
    graph := { stored.graph with pending := [⟨3, 0⟩] } }

theorem flushes_stored : ∃ ms e',
    Flushes [] stored ms ⟨.flushed (.error (.reactive (.unsettled 1))), [], e'⟩ ∧ runs ms = 0 := by
  have hpending : stored.graph.pending = [⟨2, 0⟩, ⟨3, 0⟩] := by cbv
  have htaken : ({ stored with flushing := true } : Engine Unit).dequeue = some (⟨2, 0⟩, taken) := by
    simp only [Engine.dequeue, hpending, taken]
  have heffect : taken.graph.node? ⟨2, 0⟩ =
      some ⟨.effect label false, .stale, [constant], [], some scope⟩ := by cbv
  have hconstant : taken.graph.node? constant =
      some ⟨.computed body false (some (.ok .undefined)), .dirty, [switch], [⟨2, 0⟩, ⟨3, 0⟩], none⟩ := by
    cbv
  have hswitch : (taken.beginRun constant (.computed body true (some (.ok .undefined)))).graph.node?
      switch = some ⟨.signal (.bool true), .clean, [], [constant], none⟩ := by cbv
  -- the computed runs again to an equal value, so the effect that asked it is up to date
  refine ⟨_, _, ⟨.cons (.flush (by cbv)) (.cons (.dequeue htaken) (.cons (.stale heffect rfl)
    (.cons (.ask (by cbv)) (.cons (.known (by simp [Graph.freshness?, hconstant]))
      (.cons (.compute hconstant rfl rfl) (.cons .read (.cons (.readSignal rfl hswitch rfl)
        (.cons .computed (.cons .told (.cons (.unchanged (by cbv; simp)) (.cons .allAsked
          (.cons (.cleaned (by cbv)) (.cons .turn
            (.cons (.gaveUp (Option.some_get (by cbv)).symm) (.nil _))))))))))))))), ?_, ?_⟩, ?_⟩
  · exact fun _ _ => List.nil_suffix
  · exact List.nil_suffix
  · cbv

end Idle

open Idle in
/-- A write leaves the computed that two effects show as it was. One of them may have its turn, and
does not have to run, and the flush gives up without having run a body. -/
theorem gives_up_idle :
    (⟨.flush, [.writing fun _ => .done (.ok .undefined)], stored⟩ : Moment Unit).Reached ∧
    (Engine.flush (Engine.refreshWithin 3) stored).map (·.1) =
      some (.error (.reactive (.unsettled 1))) ∧
    ∃ ms e', Flushes [] stored ms ⟨.flushed (.error (.reactive (.unsettled 1))), [], e'⟩ ∧
      runs ms = 0 :=
  ⟨reached_stored, by cbv, flushes_stored⟩

open Idle in
theorem flush_turns_idle :
    (∃ ms e', Flushes [] stored ms ⟨.flushed (.error (.reactive (.unsettled 1))), [], e'⟩ ∧
      runs ms ≤ turns ms ∧ turns ms = 1 ∧ ∃ w ∈ ms, w.isTurn = true ∧ w.performs = false) ∧
    (∃ ms r e', Engine.flush (Engine.refreshWithin 3) stored = some (r, e') ∧
      Flushes [] stored ms ⟨.flushed r, [], e'⟩) ∧
    ∃ w : Moment Unit, w.Reached ∧ w.performs = true ∧
      (w.isTurn = true ∨
        ∃ id next k, w.task = .settle id ∧ w.callers = .creating id next :: k) := by
  refine ⟨?_, ?_, ?_⟩
  · obtain ⟨ms, e', flushes, hruns⟩ := flushes_stored
    obtain ⟨hle, -⟩ := (flush_turns [] stored).1 flushes
    obtain ⟨-, hturns, -, hall⟩ := ((flush_turns [] stored).2.1 flushes).resolve_left nofun
    have hidle : ¬∀ w ∈ ms, w.isTurn = true → w.performs = true := fun h => by
      rw [hall.2 h] at hruns
      cases hruns
    exact ⟨ms, e', flushes, hle, hturns, by simpa using hidle⟩
  · have hflush : (Engine.flush (Engine.refreshWithin 3) stored).isSome := by cbv
    obtain ⟨⟨r, e'⟩, flushed⟩ := Option.isSome_iff_exists.1 hflush
    obtain ⟨ms, flushes⟩ := (flush_turns [] stored).2.2.1 flushed
    exact ⟨ms, r, e', flushed, flushes⟩
  · have performs : performs
        (⟨.settle Farewell.effect, [.creating Farewell.effect fun _ => Farewell.rest],
          Farewell.created⟩ : Moment Unit) = true := by cbv
    exact ⟨_, Farewell.reached_created, performs,
      (flush_turns [] stored).2.2.2 Farewell.reached_created performs⟩

end Moment

end LiveTemplate.Reactive
