import LiveTemplate.Proofs.Reactive.Writing

/-!
# Courses

What the engine does, whatever the programs are. A `Course` is made of the changes that the engine can
make: marks, runs, flushes and batches nest as they do in the engine, but which program asks for them
is left open. A course leaves a list of events behind, the beginnings and ends of runs among them.

Whatever a program does is a course (`Engine.run_course`), so a property of all courses holds for all
programs, and is proved by induction on the course.
-/
namespace LiveTemplate.Reactive

variable {σ : Type}

/-- What happens in the engine, in the order of time. -/
inductive Event where
  /-- The body of the node begins to run; up to now these are its sources. -/
  | began (id : NodeId) (sources : List NodeId)
  /-- The run is over; these cells it has read by tracked reads. -/
  | ended (id : NodeId) (reads : List NodeId)
  /-- Somebody read the signal. -/
  | saw (id : NodeId) (value : Value)
  /-- The signal has a new value, and what depends on it is marked. -/
  | wrote (id : NodeId)
  /-- A flush dropped the queue. -/
  | gaveUp

namespace Engine

inductive Activity where
  /-- What a program does. -/
  | work
  | flush
  /-- Running queued effects, so many at most. -/
  | drain (runs : Nat)
  | refresh (id : NodeId)
  /-- Bringing a node up to date when its sources have been asked. -/
  | settle (id : NodeId)

/-- The engine gets from one state to the other by the activity, with these events. -/
inductive Course : Activity → Engine σ → List Event → Engine σ → Prop where
  | rest (e : Engine σ) : Course .work e [] e
  | next {e e₁ e₂ : Engine σ} {evs evs' : List Event} (first : Course .work e evs e₁)
      (rest : Course .work e₁ evs' e₂) : Course .work e (evs ++ evs') e₂
  | saw {e : Engine σ} {id : NodeId} {n : Node (Program σ)} {value : Value}
      (found : e.graph.node? id = some n) (kind : n.kind = .signal value) (tracked : Bool) :
      Course .work e [.saw id value] (e.trackIf tracked id)
  | untracked {e e' : Engine σ} {evs : List Event} (body : Course .work (e.pushFrame none) evs e') :
      Course .work e evs e'.popFrame
  | number (e : Engine σ) : Course .work e [] { e with identities := e.identities + 1 }
  | adjust (e : Engine σ) (change : σ → σ) : Course .work e [] { e with host := change e.host }
  | newSignal (e : Engine σ) (value : Value) :
      Course .work e [] { e with graph := (e.graph.insertNode (.signal value) .clean none).2 }
  | newComputed (e : Engine σ) (body : Program σ) :
      Course .work e []
        { e with graph := (e.graph.insertNode (.computed body false none) .dirty none).2 }
  | newOwnedComputed {e : Engine σ} {body : Program σ} {owner : ScopeId} {id : NodeId}
      {g : Graph (Program σ)}
      (inserted : e.graph.insertOwned (.computed body false none) owner = some (id, g)) :
      Course .work e [] { e with graph := g }
  | newEffect {e e' : Engine σ} {evs : List Event} {body : Program σ} {owner : ScopeId} {id : NodeId}
      {g : Graph (Program σ)} (inserted : e.graph.insertOwned (.effect body false) owner = some (id, g))
      (first : Course (.refresh id) { e with graph := g } evs e') : Course .work e evs e'
  | newScope (e : Engine σ) : Course .work e [] { e with graph := e.graph.insertScope.2 }
  | newChildScope {e : Engine σ} {parent id : ScopeId} {g : Graph (Program σ)}
      (inserted : e.graph.insertChildScope parent = some (id, g)) :
      Course .work e [] { e with graph := g }
  | disposeNode (e : Engine σ) (id : NodeId) :
      Course .work e [] { e with graph := e.graph.removeNode id }
  | disposeScope (e : Engine σ) (id : ScopeId) :
      Course .work e [] { e with graph := e.graph.removeScope id }
  | write {e e' : Engine σ} {evs : List Event} {id : NodeId} {n : Node (Program σ)} {old value : Value}
      (found : e.graph.node? id = some n) (kind : n.kind = .signal old)
      (flushed : Course .flush { e with graph := e.graph.written id value n.subscribers } evs e') :
      Course .work e (.wrote id :: evs) e'
  | batch {e e₁ e₂ : Engine σ} {evs evs' : List Event}
      (body : Course .work { e with batchDepth := e.batchDepth + 1 } evs e₁)
      (flushed : Course .flush { e₁ with batchDepth := e₁.batchDepth - 1 } evs' e₂) :
      Course .work e (evs ++ evs') e₂
  /-- A computed that is not running is brought up to date, and maybe recorded as read. -/
  | ask {e e' : Engine σ} {evs : List Event} {id : NodeId}
      (idle : (e.graph.node? id).any Node.isIdleComputed = true)
      (answered : Course (.refresh id) e evs e') (tracked : Bool) :
      Course .work e evs (e'.trackIf tracked id)
  | held (e : Engine σ) (held : 0 < e.batchDepth ∨ e.flushing = true) : Course .flush e [] e
  | flushed {e e' : Engine σ} {evs : List Event} (free : e.batchDepth = 0) (still : e.flushing = false)
      (drained : Course (.drain e.settings.maxRuns) { e with flushing := true } evs e') :
      Course .flush e evs { e' with flushing := false }
  | drained {e : Engine σ} (runs : Nat) (empty : e.graph.pending = []) : Course (.drain runs) e [] e
  | gaveUp {e : Engine σ} (waiting : e.graph.pending ≠ []) :
      Course (.drain 0) e [.gaveUp] e.dropQueue
  | effect {e e₁ e₂ rest : Engine σ} {evs evs' : List Event} {runs : Nat} {id : NodeId}
      (next : e.dequeue = some (id, rest)) (first : Course (.refresh id) rest evs e₁)
      (others : Course (.drain runs) e₁ evs' e₂) : Course (.drain (runs + 1)) e (evs ++ evs') e₂
  | stale {e e₁ e₂ : Engine σ} {evs evs' : List Event} {id : NodeId}
      (stale : e.graph.freshness? id = some .stale) (asked : Course .work e evs e₁)
      (settled : Course (.settle id) e₁ evs' e₂) : Course (.refresh id) e (evs ++ evs') e₂
  | known {e e' : Engine σ} {evs : List Event} {id : NodeId}
      (known : e.graph.freshness? id ≠ some .stale) (settled : Course (.settle id) e evs e') :
      Course (.refresh id) e evs e'
  | fresh {e : Engine σ} {id : NodeId}
      (fresh : ∀ n, e.graph.node? id = some n → n.freshness = .clean) : Course (.settle id) e [] e
  /-- None of the sources changed. -/
  | cleaned {e : Engine σ} {id : NodeId} (stale : e.graph.freshness? id = some .stale) :
      Course (.settle id) e [] { e with graph := e.graph.setFreshness id .clean }
  /-- A body that is running is left alone, and a signal has none. -/
  | busy {e : Engine σ} {id : NodeId} {n : Node (Program σ)} (found : e.graph.node? id = some n)
      (busy : n.isRunning = true ∨ ∃ value, n.kind = .signal value) : Course (.settle id) e [] e
  | computed {e e' : Engine σ} {evs : List Event} {id : NodeId} {n : Node (Program σ)}
      {body : Program σ} {last : Option Outcome} (found : e.graph.node? id = some n)
      (kind : n.kind = .computed body false last)
      (ran : Course .work (e.beginRun id (.computed body true last)) evs e') (outcome : Outcome) :
      Course (.settle id) e (.began id n.sources :: (evs ++ [.ended id e'.collected]))
        ((e'.closeRun id).storeOutcome id outcome)
  | ran {e e' : Engine σ} {evs : List Event} {id : NodeId} {n : Node (Program σ)} {body : Program σ}
      (found : e.graph.node? id = some n) (kind : n.kind = .effect body false)
      (ran : Course .work (e.beginRun id (.effect body true)) evs e') :
      Course (.settle id) e (.began id n.sources :: (evs ++ [.ended id e'.collected]))
        ((e'.closeRun id).restEffect id)

/-- Bringing a node up to date is a course. -/
def Courses (refresh : NodeId → Engine σ → Option (Engine σ)) : Prop :=
  ∀ {id : NodeId} {e e' : Engine σ}, refresh id e = some e' → ∃ evs, Course (.refresh id) e evs e'

section Nested

variable {refresh : NodeId → Engine σ → Option (Engine σ)}

theorem readCell_course (courses : Courses refresh) {cell : Cell} {tracked : Bool} {e e' : Engine σ}
    {o : Outcome} (h : e.readCell refresh cell tracked = some (o, e')) :
    ∃ evs, Course .work e evs e' := by
  unfold readCell at h
  split at h
  · split at h
    next hn =>
      obtain ⟨-, rfl⟩ := Prod.mk.inj (Option.some.inj h)
      exact ⟨_, .saw hn rfl tracked⟩
    · obtain ⟨-, rfl⟩ := Prod.mk.inj (Option.some.inj h)
      exact ⟨_, .rest e⟩
  · split at h
    · obtain ⟨-, rfl⟩ := Prod.mk.inj (Option.some.inj h)
      exact ⟨_, .rest e⟩
    next hn =>
      obtain ⟨e₁, h₁, he⟩ := Option.map_eq_some_iff.1 h
      obtain ⟨-, rfl⟩ := Prod.mk.inj he
      obtain ⟨evs, hcourse⟩ := courses h₁
      have hidle : (e.graph.node? cell.node).any Node.isIdleComputed = true := by
        simp [hn, Node.isIdleComputed]
      exact ⟨_, .ask hidle hcourse tracked⟩
    · obtain ⟨-, rfl⟩ := Prod.mk.inj (Option.some.inj h)
      exact ⟨_, .rest e⟩

theorem follow_course (courses : Courses refresh) {steps : Nat} {visited : List NodeId} {value : Value}
    {e e' : Engine σ} {o : Outcome} (h : e.follow refresh steps visited value = some (o, e')) :
    ∃ evs, Course .work e evs e' := by
  fun_induction follow refresh steps visited value e with
  | case1 =>
    obtain ⟨-, rfl⟩ := Prod.mk.inj (Option.some.inj h)
    exact ⟨_, .rest _⟩
  | case2 => cases h
  | case3 => cases h
  | case4 _ _ _ _ _ _ _ hread =>
    obtain ⟨-, rfl⟩ := Prod.mk.inj (Option.some.inj h)
    exact readCell_course courses hread
  | case5 _ _ _ _ _ _ _ hread ih =>
    obtain ⟨evs, hfirst⟩ := readCell_course courses hread
    obtain ⟨evs', hrest⟩ := ih h
    exact ⟨_, .next hfirst hrest⟩
  | case6 =>
    obtain ⟨-, rfl⟩ := Prod.mk.inj (Option.some.inj h)
    exact ⟨_, .rest _⟩

theorem drain_course (courses : Courses refresh) {runs : Nat} {e e' : Engine σ} {settled : Bool}
    (h : drain refresh runs e = some (settled, e')) : ∃ evs, Course (.drain runs) e evs e' := by
  refine drain_turns
    (motive := fun runs e r => r = some (settled, e') → ∃ evs, Course (.drain runs) e evs e')
    (fun hnone h => ?_) (fun hsome h => ?_) (fun hsome ih h => ?_) runs e h
  · obtain ⟨-, rfl⟩ := Prod.mk.inj (Option.some.inj h)
    exact ⟨_, .drained _ (dequeue_eq_none.1 hnone)⟩
  · obtain ⟨-, rfl⟩ := Prod.mk.inj (Option.some.inj h)
    refine ⟨_, .gaveUp fun hnil => ?_⟩
    simp [dequeue_eq_none.2 hnil] at hsome
  · obtain ⟨e₁, hfirst, hothers⟩ := Option.bind_eq_some_iff.1 h
    obtain ⟨evs, hfirst⟩ := courses hfirst
    obtain ⟨evs', hothers⟩ := ih e₁ hothers
    exact ⟨_, .effect hsome hfirst hothers⟩

theorem flush_course (courses : Courses refresh) {e e' : Engine σ} {r : Except Fault Unit}
    (h : flush refresh e = some (r, e')) : ∃ evs, Course .flush e evs e' := by
  unfold flush at h
  split at h
  next hheld =>
    obtain ⟨-, rfl⟩ := Prod.mk.inj (Option.some.inj h)
    exact ⟨_, .held e (by simpa using hheld)⟩
  next hfree =>
    obtain ⟨⟨settled, e₁⟩, hdrain, he⟩ := Option.map_eq_some_iff.1 h
    obtain ⟨-, rfl⟩ := Prod.mk.inj he
    obtain ⟨evs, hdrain⟩ := drain_course courses hdrain
    have hfree : e.batchDepth = 0 ∧ e.flushing = false := by simpa using hfree
    exact ⟨_, .flushed hfree.1 hfree.2 hdrain⟩

theorem writeSignal_course (courses : Courses refresh) {id : NodeId} {value : Value}
    {e e' : Engine σ} {r : Except Fault Unit} (h : writeSignal refresh id value e = some (r, e')) :
    ∃ evs, Course .work e evs e' := by
  unfold writeSignal at h
  split at h
  next hn =>
    split at h
    · obtain ⟨-, rfl⟩ := Prod.mk.inj (Option.some.inj h)
      exact ⟨_, .rest e⟩
    · obtain ⟨evs, hflush⟩ := flush_course courses h
      exact ⟨_, .write hn rfl hflush⟩
  · obtain ⟨-, rfl⟩ := Prod.mk.inj (Option.some.inj h)
    exact ⟨_, .rest e⟩

theorem askSources_course (courses : Courses refresh) {id : NodeId} {sources : List NodeId}
    {e e' : Engine σ} (h : askSources refresh id sources e = some e') :
    ∃ evs, Course .work e evs e' := by
  induction sources generalizing e with
  | nil =>
    obtain rfl := Option.some.inj h
    exact ⟨_, .rest e⟩
  | cons source rest ih =>
    obtain ⟨e₁, hfirst, hrest⟩ := Option.bind_eq_some_iff.1 h
    have hfirst : ∃ evs, Course .work e evs e₁ := by
      split at hfirst
      next hidle =>
        obtain ⟨evs, hcourse⟩ := courses hfirst
        exact ⟨_, .ask hidle hcourse false⟩
      next =>
        obtain rfl := Option.some.inj hfirst
        exact ⟨_, .rest e⟩
    obtain ⟨evs, hfirst⟩ := hfirst
    split at hrest
    · obtain rfl := Option.some.inj hrest
      exact ⟨_, hfirst⟩
    · obtain ⟨evs', hrest⟩ := ih hrest
      exact ⟨_, .next hfirst hrest⟩

end Nested

end Engine

/-- Whatever a program does is a course. -/
theorem Program.exec_course {refresh : NodeId → Engine σ → Option (Engine σ)}
    (courses : Engine.Courses refresh) {depth : Nat} {p : Program σ} {e e' : Engine σ} {o : Outcome}
    (h : p.exec depth refresh e = some (o, e')) : ∃ evs, Engine.Course .work e evs e' := by
  -- after a first part, the rest of the program
  have goOn {α : Type} {x : Option (α × Engine σ)} {next : α → Program σ} {e e' : Engine σ}
      {o : Outcome}
      (ih : ∀ r {e e' : Engine σ} {o : Outcome}, (next r).exec depth refresh e = some (o, e') →
        ∃ evs, Engine.Course .work e evs e')
      (first : ∀ r e₁, x = some (r, e₁) → ∃ evs, Engine.Course .work e evs e₁)
      (h : (x.bind fun y => (next y.1).exec depth refresh y.2) = some (o, e')) :
      ∃ evs, Engine.Course .work e evs e' := by
    obtain ⟨⟨r, e₁⟩, hx, hrest⟩ := Option.bind_eq_some_iff.1 h
    obtain ⟨evs, hfirst⟩ := first r e₁ hx
    obtain ⟨evs', hrest⟩ := ih r hrest
    exact ⟨_, .next hfirst hrest⟩
  induction p generalizing e e' o with
  | done =>
    obtain ⟨-, rfl⟩ := Prod.mk.inj (Option.some.inj h)
    exact ⟨_, .rest e⟩
  | read cell tracked next ih =>
    exact goOn ih (fun _ _ => Engine.readCell_course courses) h
  | unwrap value next ih => exact goOn ih (fun _ _ => Engine.follow_course courses) h
  | write signal value next ih =>
    exact goOn ih (fun _ _ => Engine.writeSignal_course courses) h
  | newSignal value next ih =>
    obtain ⟨evs, hrest⟩ := ih _ h
    exact ⟨_, .next (.newSignal e value) hrest⟩
  | newComputed owner body next _ ih =>
    cases owner with
    | none =>
      obtain ⟨evs, hrest⟩ := ih _ h
      exact ⟨_, .next (.newComputed e body) hrest⟩
    | some owner =>
      rw [exec] at h
      split at h
      · exact ih _ h
      next hinserted =>
        obtain ⟨evs, hrest⟩ := ih _ h
        exact ⟨_, .next (.newOwnedComputed hinserted) hrest⟩
  | newEffect owner body next _ ih =>
    rw [exec] at h
    split at h
    · exact ih _ h
    next hinserted =>
      obtain ⟨e₁, hfirst, hrest⟩ := Option.bind_eq_some_iff.1 h
      obtain ⟨evs, hfirst⟩ := courses hfirst
      obtain ⟨evs', hrest⟩ := ih _ hrest
      exact ⟨_, .next (.newEffect hinserted hfirst) hrest⟩
  | newScope parent next ih =>
    cases parent with
    | none =>
      obtain ⟨evs, hrest⟩ := ih _ h
      exact ⟨_, .next (.newScope e) hrest⟩
    | some parent =>
      rw [exec] at h
      split at h
      · exact ih _ h
      next hinserted =>
        obtain ⟨evs, hrest⟩ := ih _ h
        exact ⟨_, .next (.newChildScope hinserted) hrest⟩
  | disposeNode id next ih =>
    obtain ⟨evs, hrest⟩ := ih h
    exact ⟨_, .next (.disposeNode e id) hrest⟩
  | disposeScope id next ih =>
    obtain ⟨evs, hrest⟩ := ih h
    exact ⟨_, .next (.disposeScope e id) hrest⟩
  | batch body next ihBody ih =>
    obtain ⟨⟨r, e₁⟩, hbody, h⟩ := Option.bind_eq_some_iff.1 h
    obtain ⟨⟨f, e₂⟩, hflush, hrest⟩ := Option.bind_eq_some_iff.1 h
    obtain ⟨evs, hbody⟩ := ihBody hbody
    obtain ⟨evs', hflush⟩ := Engine.flush_course courses hflush
    obtain ⟨evs'', hrest⟩ := ih _ hrest
    exact ⟨_, .next (.batch hbody hflush) hrest⟩
  | untrack body next ihBody ih =>
    obtain ⟨⟨r, e₁⟩, hbody, hrest⟩ := Option.bind_eq_some_iff.1 h
    obtain ⟨evs, hbody⟩ := ihBody hbody
    obtain ⟨evs', hrest⟩ := ih _ hrest
    exact ⟨_, .next (.untracked hbody) hrest⟩
  | fresh next ih =>
    obtain ⟨evs, hrest⟩ := ih _ h
    exact ⟨_, .next (.number e) hrest⟩
  | inspect next ih => exact ih _ h
  | consult next ih => exact ih _ h
  | adjust change next ih =>
    obtain ⟨evs, hrest⟩ := ih h
    exact ⟨_, .next (.adjust e change) hrest⟩

namespace Engine

theorem runNode_course {refresh : NodeId → Engine σ → Option (Engine σ)} (courses : Courses refresh)
    {depth : Nat} {id : NodeId} {e e' : Engine σ}
    (dirty : e.graph.freshness? id = some .dirty) (h : runNode depth refresh id e = some e') :
    ∃ evs, Course (.settle id) e evs e' := by
  unfold runNode at h
  split at h
  next hn =>
    obtain ⟨⟨outcome, e₁⟩, hbody, rfl⟩ := Option.map_eq_some_iff.1 h
    obtain ⟨evs, hbody⟩ := Program.exec_course courses hbody
    exact ⟨_, .computed hn rfl hbody outcome⟩
  next hn =>
    obtain ⟨⟨outcome, e₁⟩, hbody, rfl⟩ := Option.map_eq_some_iff.1 h
    obtain ⟨evs, hbody⟩ := Program.exec_course courses hbody
    exact ⟨_, .ran hn rfl hbody⟩
  next hcomputed heffect =>
    obtain rfl := Option.some.inj h
    obtain ⟨⟨kind, _, _, _, _⟩, hn, -⟩ := Option.map_eq_some_iff.1 dirty
    refine ⟨_, .busy hn ?_⟩
    cases kind with
    | signal value => exact .inr ⟨value, rfl⟩
    | computed body running last =>
      cases running
      · exact absurd hn (hcomputed _ _ _ _ _ _)
      · exact .inl rfl
    | effect body running =>
      cases running
      · exact absurd hn (heffect _ _ _ _ _)
      · exact .inl rfl

theorem refreshOver_course {refresh : NodeId → Engine σ → Option (Engine σ)}
    (courses : Courses refresh) {depth : Nat} {id : NodeId} {e e' : Engine σ}
    (h : refreshOver depth refresh id e = some e') : ∃ evs, Course (.refresh id) e evs e' := by
  obtain ⟨e₁, hasked, hsettled⟩ := Option.bind_eq_some_iff.1 h
  have hsettled : ∃ evs, Course (.settle id) e₁ evs e' := by
    split at hsettled
    next hdirty => exact runNode_course courses hdirty hsettled
    next hstale =>
      obtain rfl := Option.some.inj hsettled
      exact ⟨_, .cleaned hstale⟩
    next hdirty hstale =>
      obtain rfl := Option.some.inj hsettled
      refine ⟨_, .fresh fun n hn => ?_⟩
      have hfreshness : e₁.graph.freshness? id = some n.freshness := by simp [Graph.freshness?, hn]
      cases hf : n.freshness with
      | clean => rfl
      | stale => exact absurd (hf ▸ hfreshness) hstale
      | dirty => exact absurd (hf ▸ hfreshness) hdirty
  obtain ⟨evs', hsettled⟩ := hsettled
  split at hasked
  next n hn =>
    split at hasked
    next hstale =>
      obtain ⟨evs, hasked⟩ := askSources_course courses hasked
      exact ⟨_, .stale (by simp [Graph.freshness?, hn, hstale]) hasked hsettled⟩
    next hknown =>
      obtain rfl := Option.some.inj hasked
      exact ⟨_, .known (by simp [Graph.freshness?, hn, hknown]) hsettled⟩
  next hn =>
    obtain rfl := Option.some.inj hasked
    exact ⟨_, .known (by simp [Graph.freshness?, hn]) hsettled⟩

theorem courses_refreshWithin (depth : Nat) : Courses (refreshWithin (σ := σ) depth) := by
  induction depth with
  | zero => exact nofun
  | succ depth ih => exact refreshOver_course ih

theorem run_course {depth : Nat} {p : Program σ} {e e' : Engine σ} {o : Outcome}
    (h : run depth p e = some (o, e')) : ∃ evs, Course .work e evs e' :=
  Program.exec_course (courses_refreshWithin depth) h

end Engine

end LiveTemplate.Reactive
