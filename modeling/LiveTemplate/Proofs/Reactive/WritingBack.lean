import LiveTemplate.Proofs.Reactive.Permanence
import LiveTemplate.Proofs.Reactive.Quiescence
import LiveTemplate.Proofs.Reactive.Reached
import LiveTemplate.Proofs.Reactive.Reckoning
import LiveTemplate.Proofs.Value.Reflexivity

/-!
# Writing back what was read

Under the policy that skips equal writes, a signal that is written what it holds is left alone, and with
it the whole engine (`Engine.writes_back`): nothing is marked, queued or run. This needs a value that is
equal to itself, so one in which nothing is not a number.

Two effects that copy two signals to each other come to rest for the same reason: the second run finds
what it would write (`Graph.Copying` is kept from run to run). A value that is not equal to itself they
copy to and fro until the flush gives up (`Engine.exec_set_restless`).
-/
namespace LiveTemplate.Reactive

variable {σ : Type}

open Relation (ReflTransGen TransGen)

namespace Program

/-- Writes back what the signal holds. -/
def writeBack (signal : NodeId) : Program σ :=
  (peek ⟨.signal, signal⟩).bind (set signal)

/-- Copies one signal to another. -/
def copy (source target : NodeId) : Program σ :=
  (get ⟨.signal, source⟩).bind (set target)

end Program

namespace Graph

section Edges

variable {β : Type} {g h : Graph β} {a b E F : NodeId}

/-- The second node subscribes to the first one, or to what is behind it. -/
def Behind (g : Graph β) : NodeId → NodeId → Prop :=
  TransGen fun x y => ∃ n, g.node? x = some n ∧ y ∈ n.subscribers

/-- Of two signals, each is the only source of an effect, and no other effect is behind the two. -/
structure Wired (g : Graph β) (a b E F : NodeId) : Prop where
  apart : a ≠ b
  left : g.HasSignal a
  right : g.HasSignal b
  first : ∃ n, g.node? E = some n ∧ n.sort = .effect ∧ n.sources = [a]
  second : ∃ n, g.node? F = some n ∧ n.sort = .effect ∧ n.sources = [b]
  alone : ∀ {s x n}, s = a ∨ s = b → g.Behind s x → g.node? x = some n → n.sort = .effect →
    x = E ∨ x = F

theorem Wired.swap (wired : g.Wired a b E F) : g.Wired b a F E where
  apart := wired.apart.symm
  left := wired.right
  right := wired.left
  first := wired.second
  second := wired.first
  alone hs behind hn effect := (wired.alone hs.symm behind hn effect).symm

theorem Alters.behind (ha : g.Alters h) {s x : NodeId} (behind : h.Behind s x) : g.Behind s x := by
  refine TransGen.mono ?_ _ _ behind
  rintro x y ⟨m, hm, hy⟩
  obtain ⟨n, hn, hshape⟩ := ha.origin hm
  exact ⟨n, hn, (congrArg (·.2.1.2) hshape : m.subscribers = n.subscribers) ▸ hy⟩

theorem Alters.reader (ha : g.Alters h) {sources : List NodeId}
    (reader : ∃ n, g.node? E = some n ∧ n.sort = .effect ∧ n.sources = sources) :
    ∃ n, h.node? E = some n ∧ n.sort = .effect ∧ n.sources = sources := by
  obtain ⟨n, hn, hsort, hsources⟩ := reader
  obtain ⟨m, hm, hshape⟩ := ha.find hn
  exact ⟨m, hm, (congrArg (·.1) hshape).trans hsort, (congrArg (·.2.1.1) hshape).trans hsources⟩

theorem Wired.alters (wired : g.Wired a b E F) (ha : g.Alters h) : h.Wired a b E F where
  apart := wired.apart
  left := ha.hasSignal wired.left
  right := ha.hasSignal wired.right
  first := ha.reader wired.first
  second := ha.reader wired.second
  alone hs behind hm effect := by
    obtain ⟨n, hn, hshape⟩ := ha.origin hm
    exact wired.alone hs (ha.behind behind) hn ((congrArg (·.1) hshape).symm.trans effect)

theorem Marks.behind {s x : NodeId} {n : Node β} (found : g.node? s = some n)
    (marked : g.Marks n.subscribers x) : g.Behind s x := by
  induction marked with
  | target mem => exact .single ⟨n, found, mem⟩
  | onward _ found' mem _ _ ih => exact ih.tail ⟨_, found', mem⟩

/-- Nothing is in front of a signal. -/
theorem WellFormed.not_behind_signal (formed : g.WellFormed) {s : NodeId} (signal : g.HasSignal s)
    {x : NodeId} : ¬∃ n, g.node? x = some n ∧ s ∈ n.subscribers := by
  rintro ⟨n, hn, hs⟩
  obtain ⟨m, hm, hsort⟩ := signal
  simpa [formed.signals hm hsort] using (formed.linked.edge hm hn).2 hs

/-- Of the effects only the one is behind the one signal. -/
theorem Wired.eq_of_behind (wired : g.Wired a b E F) (formed : g.WellFormed) {x : NodeId}
    {n : Node β} (behind : g.Behind a x) (found : g.node? x = some n) (effect : n.sort = .effect) :
    x = E := by
  refine (wired.alone (.inl rfl) behind found effect).resolve_right ?_
  rintro rfl
  obtain ⟨y, before, m, hm, hx⟩ := TransGen.tail'_iff.1 behind
  obtain ⟨k, hk, -, hsources⟩ := wired.second
  have hy : y = b := by simpa [hsources] using (formed.linked.edge hk hm).2 hx
  subst hy
  rcases ReflTransGen.cases_tail before with rfl | ⟨z, -, edge⟩
  · exact wired.apart rfl
  · exact formed.not_behind_signal wired.right edge

/-- Recording the sources that are recorded already changes nothing but where it says so. -/
theorem node?_relink_self (linked : g.Linked) {id : NodeId} {n : Node β} (found : g.node? id = some n)
    (x : NodeId) : (g.relink id n.sources).node? x = g.node? x := by
  rw [node?_relink found]
  cases hx : g.node? x with
  | none => rfl
  | some m =>
    have hlive : n.sources.filter (fun s => (g.node? s).isSome) = n.sources :=
      List.filter_eq_self.2 fun s hs => linked.source_live found hs
    have hedge := linked.edge found hx
    obtain ⟨kind, freshness, sources, subscribers, owner⟩ := m
    rw [Option.map_some, relinked, hlive]
    by_cases hid : x = id
    · subst hid
      obtain rfl := Option.some.inj (found.symm.trans hx)
      by_cases hs : x ∈ sources <;> simp_all [enlist]
    · by_cases hs : x ∈ n.sources <;> simp_all [enlist]

theorem alters_relink_self (linked : g.Linked) {id : NodeId} {n : Node β}
    (found : g.node? id = some n) : g.Alters (g.relink id n.sources) where
  scopes := scopes_relink g id n.sources
  shape x := by rw [node?_relink_self linked found]
  spent hx := hx.relink id n.sources

end Edges

section Writing

variable {g h : Graph (Program σ)} {a b E F : NodeId}

theorem hasSignal_iff {id : NodeId} : g.HasSignal id ↔ ∃ value, g.sheet.value? id = some value := by
  simp [HasSignal, Node.sort_eq_signal, value?_eq_some, exists_comm (α := Value)]

/-- A write to one signal queues the effect that reads it, and no other. -/
theorem Wired.pending_written (wired : g.Wired a b E F) (formed : g.WellFormed)
    (drained : g.pending = []) {n : Node (Program σ)} (found : g.node? a = some n)
    (signal : n.sort = .signal) {m : Node (Program σ)} (first : g.node? E = some m)
    (clean : m.freshness = .clean) (value : Value) :
    (g.written a value n.subscribers).pending = [E] ∧
      ∃ m', (g.written a value n.subscribers).node? E = some m' ∧ m'.kind = m.kind ∧
        m'.freshness = .dirty := by
  have hd := delayed_written g a value n.subscribers
  obtain ⟨m₁, hm₁, hsort, hsources⟩ := wired.first
  obtain rfl := Option.some.inj (first.symm.trans hm₁)
  have hsub : E ∈ n.subscribers := (formed.linked.edge first found).1 (by simp [hsources])
  have hne : E ≠ a := by
    rintro rfl
    obtain rfl := Option.some.inj (first.symm.trans found)
    simp [signal] at hsort
  have hE := (revalued_other g value hne).trans first
  obtain ⟨m', hm', hdelayed⟩ := hd.find hE
  have hdirty : m'.freshness = .dirty := markAll_dirty hsub hm'
  refine ⟨?_, m', hm', hdelayed.kind, hdirty⟩
  have hE : E ∈ (g.written a value n.subscribers).pending := by
    obtain ⟨body, running, hkind⟩ := Node.sort_eq_effect.1 hsort
    exact hd.queued hE hm' (by simp [Node.isEffect, hkind]) clean (by simp [hdirty])
  have honly : ∀ x ∈ (g.written a value n.subscribers).pending, x = E := by
    intro x hx
    obtain ⟨k', hk', heffect⟩ := (formed.written found signal value n.subscribers).queued x hx
    obtain ⟨k, hk, hshape⟩ := (alters_written found signal value n.subscribers).origin hk'
    by_cases hcarries : g.Carries a x
    · obtain ⟨n', hn', marked⟩ := hcarries
      exact wired.eq_of_behind formed (marked.behind hn') hk
        ((congrArg (·.1) hshape).symm.trans heffect)
    · simpa [drained] using (written_spared found value hcarries).2 hx
  have hnodup : (g.written a value n.subscribers).pending.Nodup := hd.nodup (by simp [revalued, drained])
  exact List.perm_singleton.1 ((List.perm_ext_iff_of_nodup hnodup (List.nodup_singleton E)).2
    fun x => by rw [List.mem_singleton]; exact ⟨honly x, fun h => h ▸ hE⟩)

/-- The other effect is left alone. -/
theorem Wired.written_second (wired : g.Wired a b E F) (formed : g.WellFormed)
    {n : Node (Program σ)} (found : g.node? a = some n) (signal : n.sort = .signal) (value : Value) :
    (g.written a value n.subscribers).node? F = g.node? F := by
  obtain ⟨m, hm, hsort, hsources⟩ := wired.second
  refine (written_spared found value ?_).1 ?_
  · rintro ⟨n', hn', marked⟩
    obtain rfl : F = E := wired.eq_of_behind formed (marked.behind hn') hm hsort
    obtain ⟨m', hm', -, hsources'⟩ := wired.first
    obtain rfl := Option.some.inj (hm.symm.trans hm')
    exact wired.apart (by simpa [hsources] using hsources'.symm)
  · rintro rfl
    obtain rfl := Option.some.inj (hm.symm.trans found)
    simp [signal] at hsort

/-- A run that has read what it read before leaves all else as it was. -/
theorem alters_finished_effect (linked : g.Linked) {id : NodeId} {n : Node (Program σ)}
    (found : g.node? id = some n) : g.Alters (g.effectFinished id n.sources) :=
  (alters_relink_self linked found).trans (alters_effectFinished g id n.sources)

theorem node?_finished_effect (linked : g.Linked) {id : NodeId} {n : Node (Program σ)}
    {body : Program σ} {running : Bool} (found : g.node? id = some n)
    (kind : n.kind = .effect body running) (x : NodeId) :
    (g.effectFinished id n.sources).node? x =
      if x = id then some { n with kind := .effect body false } else g.node? x := by
  rw [effectFinished, node?_modifyNode, node?_relink_self linked found]
  split
  next hx => simp [hx, found, kind]
  next => rfl

/-! ## Two effects that copy -/

/-- Two effects copy two signals to each other; whether they run, and how fresh they are. -/
structure Copying (g : Graph (Program σ)) (a b E F : NodeId) (p q : Bool × Freshness) : Prop where
  formed : g.WellFormed
  wired : g.Wired a b E F
  first : ∃ n, g.node? E = some n ∧ n.kind = .effect (.copy a b) p.1 ∧ n.freshness = p.2
  second : ∃ n, g.node? F = some n ∧ n.kind = .effect (.copy b a) q.1 ∧ n.freshness = q.2

variable {p q : Bool × Freshness} {running : Bool} {f : Freshness}

theorem Copying.swap (copying : g.Copying a b E F p q) : g.Copying b a F E q p :=
  ⟨copying.formed, copying.wired.swap, copying.second, copying.first⟩

theorem Copying.node (copying : g.Copying a b E F p q) : ∃ n, g.node? E = some n ∧
    n.kind = .effect (.copy a b) p.1 ∧ n.freshness = p.2 ∧ n.sources = [a] := by
  obtain ⟨n, hn, hkind, hfreshness⟩ := copying.first
  obtain ⟨n', hn', -, hsources⟩ := copying.wired.first
  obtain rfl := Option.some.inj (hn.symm.trans hn')
  exact ⟨n, hn, hkind, hfreshness, hsources⟩

theorem Copying.ne (copying : g.Copying a b E F p q) : F ≠ E := by
  rintro rfl
  obtain ⟨n, hn, -, -, hsources⟩ := copying.node
  obtain ⟨m, hm, -, hsources'⟩ := copying.wired.second
  obtain rfl := Option.some.inj (hn.symm.trans hm)
  exact copying.wired.apart (by simpa [hsources] using hsources')

/-- The queue is taken up. -/
theorem Copying.requeued (copying : g.Copying a b E F p q) {pending : List NodeId}
    (fewer : pending ⊆ g.pending) : ({ g with pending := pending } : Graph _).Copying a b E F p q :=
  ⟨copying.formed.requeued fewer, copying.wired.alters (alters_requeued g pending), copying.first,
    copying.second⟩

/-- The first signal is written to. -/
theorem Copying.written (copying : g.Copying a b E F (running, .clean) q) (drained : g.pending = [])
    {n : Node (Program σ)} {old : Value} (found : g.node? a = some n) (kind : n.kind = .signal old)
    (value : Value) :
    (g.written a value n.subscribers).Copying a b E F (running, .dirty) q ∧
      (g.written a value n.subscribers).pending = [E] := by
  have hsignal := Node.sort_eq_signal.2 ⟨old, kind⟩
  obtain ⟨m, hm, hkind, hclean⟩ := copying.first
  obtain ⟨hpending, m', hm', hkind', hdirty⟩ :=
    copying.wired.pending_written copying.formed drained found hsignal hm hclean value
  refine ⟨⟨copying.formed.written found hsignal value n.subscribers,
    copying.wired.alters (alters_written found hsignal value n.subscribers),
    ⟨m', hm', hkind'.trans hkind, hdirty⟩, ?_⟩, hpending⟩
  rw [copying.wired.written_second copying.formed found hsignal value]
  exact copying.second

/-- The first effect begins to run. -/
theorem Copying.begun (copying : g.Copying a b E F p q) :
    (g.begun E (.effect (.copy a b) true)).Copying a b E F (true, .clean) q ∧
      (g.begun E (.effect (.copy a b) true)).sheet = g.sheet := by
  obtain ⟨n, hn, hkind, -⟩ := copying.first
  have halters : g.Alters (g.begun E (.effect (.copy a b) true)) := by
    refine alters_begun hn ?_
    rw [Node.sort, hkind]
    rfl
  refine ⟨⟨copying.formed.alters halters fun _ => .inl, copying.wired.alters halters,
    ⟨_, begun_self hn _, rfl, rfl⟩, ?_⟩, (sameCells_begun hn hkind).sheet⟩
  rw [begun_other copying.ne]
  exact copying.second

/-- The run of the first effect ends; it has read the first signal. -/
theorem Copying.finished (copying : g.Copying a b E F (running, f) q) :
    (g.effectFinished E [a]).Copying a b E F (false, f) q ∧
      (g.effectFinished E [a]).sheet = g.sheet := by
  obtain ⟨n, hn, hkind, hfreshness, hsources⟩ := copying.node
  have hlinked := copying.formed.linked
  have halters := alters_finished_effect hlinked hn
  have hnode := node?_finished_effect hlinked hn hkind
  rw [hsources] at halters hnode
  refine ⟨⟨copying.formed.alters halters fun x hx => .inl (pending_effectFinished g E [a] ▸ hx),
    copying.wired.alters halters, ⟨_, (hnode E).trans (if_pos rfl), rfl, hfreshness⟩, ?_⟩, ?_⟩
  · rw [hnode, if_neg copying.ne]
    exact copying.second
  · refine (sameCells_effectFinished hn hkind fun s hs => ?_).sheet
    exact hlinked.source_live hn (hsources ▸ hs)

end Writing

end Graph

namespace Engine

open Program Reactive.Graph

variable {refresh : NodeId → Engine σ → Option (Engine σ)} {e e' : Engine σ} {depth : Nat}
  {a b s E F : NodeId} {f : Freshness} {old v x y : Value}

/-! ## One write -/

/-- A write that is not skipped is stored, and the queue is worked off. -/
theorem writeSignal_found {n : Node (Program σ)} (found : e.graph.node? s = some n)
    (kind : n.kind = .signal old) (value : Value) :
    e.writeSignal refresh s value =
      if e.settings.writeEquality = .skipEqual && old.equals value then some (.ok (), e)
      else flush refresh { e with graph := e.graph.written s value n.subscribers } := by
  obtain ⟨_, _, _, _, _⟩ := n
  subst kind
  simp only [writeSignal, found]
  rfl

theorem writeSignal_skip (skip : e.settings.writeEquality = .skipEqual)
    (held : e.graph.sheet.value? s = some old) (same : old.equals v = true) :
    e.writeSignal refresh s v = some (.ok (), e) := by
  obtain ⟨n, hn, hkind⟩ := value?_eq_some.1 held
  rw [writeSignal_found hn hkind, if_pos (by simp [skip, same])]

theorem exec_set (written : e.writeSignal refresh s v = some (.ok (), e')) :
    (Program.set s v).exec depth refresh e = some (.ok .undefined, e') := by
  rw [Program.set, Program.exec, written]
  rfl

/-- The engine is as it was after a write of what is there. -/
theorem exec_writeBack (skip : e.settings.writeEquality = .skipEqual)
    (held : e.graph.sheet.value? s = some v) (same : v.equals v = true) :
    (writeBack s).exec depth refresh e = some (.ok .undefined, e) := by
  rw [writeBack, exec_bind, peek, Program.exec, readCell_signal held]
  exact exec_set (writeSignal_skip skip held same)

/-! ## The runs of the two effects -/

theorem refreshWithin_effect {n : Node (Program σ)} {body : Program σ}
    (found : e.graph.node? E = some n) (kind : n.kind = .effect body false)
    (dirty : n.freshness = .dirty) :
    refreshWithin (depth + 1) E e =
      (body.exec depth (refreshWithin depth) (e.beginRun E (.effect body true))).map
        fun (_, e') => (e'.closeRun E).restEffect E := by
  obtain ⟨_, _, _, _, _⟩ := n
  subst kind dirty
  simp [refreshWithin, refreshOver, Graph.freshness?, found, runNode]

theorem exec_copy (held : e.graph.sheet.value? a = some x) :
    (copy a b).exec depth refresh e = (Program.set b x).exec depth refresh (e.track a) := by
  rw [copy, exec_bind, Program.get, Program.exec, readCell_signal held]
  rfl

/-- The first effect is run; what becomes of its write is left open. -/
theorem refreshWithin_copy {q : Bool × Freshness}
    (copying : e.graph.Copying a b E F (false, .dirty) q)
    (held : e.graph.sheet.value? a = some x) {g : Graph (Program σ)}
    (written : writeSignal (refreshWithin depth) b x
        ((e.beginRun E (.effect (copy a b) true)).track a) =
      some (.ok (), { (e.beginRun E (.effect (copy a b) true)).track a with graph := g })) :
    refreshWithin (depth + 1) E e = some { e with graph := g.effectFinished E [a] } := by
  obtain ⟨n, hn, hkind, hdirty⟩ := copying.first
  have hheld : (e.beginRun E (.effect (copy a b) true)).graph.sheet.value? a = some x :=
    (congrArg (·.value? a) copying.begun.2).trans held
  rw [refreshWithin_effect hn hkind hdirty, exec_copy hheld, exec_set written, Option.map_some]
  exact congrArg some ((restEffect_closeRun _ E).trans rfl)

/-- The second signal holds an equal value already, and nothing comes of the run. -/
theorem turn_same (depth : Nat) {q : Bool × Freshness} (copying : e.graph.Copying a b E F (false, .dirty) q)
    (skip : e.settings.writeEquality = .skipEqual) (held : e.graph.sheet.value? a = some x)
    (held' : e.graph.sheet.value? b = some y) (same : y.equals x = true) :
    ∃ g, refreshWithin (depth + 1) E e = some { e with graph := g } ∧
      g.pending = e.graph.pending ∧ g.sheet = e.graph.sheet := by
  obtain ⟨hcopying, hsheet⟩ := copying.begun
  refine ⟨_, refreshWithin_copy (g := e.graph.begun E (.effect (copy a b) true)) copying held ?_,
    pending_effectFinished _ _ _, hcopying.finished.2.trans hsheet⟩
  exact writeSignal_skip skip ((congrArg (·.value? b) hsheet).trans held') same

/-- Else it is stored, and the second effect is next. -/
theorem turn_other (depth : Nat)
    (copying : e.graph.Copying a b E F (false, .dirty) (false, .clean))
    (drained : e.graph.pending = []) (flushing : e.flushing = true)
    (held : e.graph.sheet.value? a = some x) (held' : e.graph.sheet.value? b = some y)
    (other : y.equals x = false) :
    ∃ g, refreshWithin (depth + 1) E e = some { e with graph := g } ∧ g.pending = [F] ∧
      g.Copying b a F E (false, .dirty) (false, .clean) ∧
      g.sheet.value? a = some x ∧ g.sheet.value? b = some x := by
  obtain ⟨hcopying, hsheet⟩ := copying.begun
  obtain ⟨n, hn, hkind⟩ := value?_eq_some.1 ((congrArg (·.value? b) hsheet).trans held')
  obtain ⟨hcopying', hpending⟩ := hcopying.swap.written drained hn hkind x
  obtain ⟨hfinished, hsheet'⟩ := hcopying'.swap.finished
  refine ⟨_, refreshWithin_copy copying held ?_, (pending_effectFinished _ _ _).trans hpending,
    hfinished.swap, ?_, ?_⟩
  · have hfound : ((e.beginRun E (.effect (copy a b) true)).track a).graph.node? b = some n := hn
    rw [writeSignal_found hfound hkind, if_neg (by simp [other]), flush, if_pos]
    · rfl
    · exact Bool.or_eq_true_iff.2 (.inr flushing)
  · rw [hsheet', value?_written hn, if_neg copying.wired.apart, hsheet]
    exact held
  · rw [hsheet', value?_written hn, if_pos rfl]

/-- The first effect is queued: the queue is worked off in two runs at most. -/
theorem drain_copying (depth : Nat)
    (copying : e.graph.Copying a b E F (false, .dirty) (false, .clean))
    (queued : e.graph.pending = [E]) (flushing : e.flushing = true)
    (skip : e.settings.writeEquality = .skipEqual) (held : e.graph.sheet.value? a = some x)
    (held' : e.graph.sheet.value? b = some y) (same : x.equals x = true) (runs : Nat) :
    ∃ g, drain (refreshWithin (depth + 1)) (runs + 2) e = some (true, { e with graph := g }) ∧
      g.sheet.value? a = some x ∧ ∃ z, g.sheet.value? b = some z ∧ z.equals x = true := by
  rw [drain_succ _ queued]
  have hcopying : (e.queueing []).graph.Copying a b E F (false, .dirty) (false, .clean) :=
    copying.requeued (List.nil_subset _)
  cases hother : y.equals x with
  | true =>
    obtain ⟨g, hrefresh, hpending, hsheet⟩ := turn_same depth hcopying skip held held' hother
    rw [hrefresh, Option.bind_some, drain_nil _ hpending]
    exact ⟨g, rfl, hsheet ▸ held, y, hsheet ▸ held', hother⟩
  | false =>
    obtain ⟨g, hrefresh, hpending, hcopying', hheld, hheld'⟩ :=
      turn_other depth hcopying rfl flushing held held' hother
    rw [hrefresh, Option.bind_some, drain_succ _ hpending]
    obtain ⟨g', hrefresh', hpending', hsheet⟩ := turn_same depth
      (e := ({ e with graph := g } : Engine σ).queueing [])
      (hcopying'.requeued (List.nil_subset _)) skip hheld' hheld same
    refine ⟨g', ?_, hsheet ▸ hheld, x, hsheet ▸ hheld', same⟩
    have hend : drain (refreshWithin (depth + 1)) runs { e with graph := g' } =
        some (true, { e with graph := g' }) :=
      drain_nil runs hpending'
    exact (congrArg (Option.bind · _) hrefresh').trans hend

/-- What is not equal to itself is copied to and fro until the flush gives up. -/
theorem drain_restless (depth runs : Nat)
    (copying : e.graph.Copying a b E F (false, .dirty) (false, .clean))
    (queued : e.graph.pending = [E]) (flushing : e.flushing = true)
    (held : e.graph.sheet.value? a = some x) (held' : e.graph.sheet.value? b = some y)
    (other : y.equals x = false) (restless : x.equals x = false) :
    ∃ e', drain (refreshWithin (depth + 1)) runs e = some (false, e') := by
  induction runs generalizing e a b E F y with
  | zero => exact ⟨_, drain_zero queued⟩
  | succ runs ih =>
    obtain ⟨g, hrefresh, hpending, hcopying', hheld, hheld'⟩ := turn_other depth
      (e := e.queueing []) (copying.requeued (List.nil_subset _)) rfl flushing held held' other
    rw [drain_succ _ queued, hrefresh, Option.bind_some]
    exact ih hcopying' hpending flushing hheld' hheld restless

/-- A signal that is copied to and fro is written to: the effect that reads it is queued, and the queue
is worked off. -/
theorem writeSignal_copying (refresh : NodeId → Engine σ → Option (Engine σ)) (rest : e.Quiescent)
    (copying : e.graph.Copying a b E F (false, .clean) (false, .clean))
    (held : e.graph.sheet.value? a = some old) (held' : e.graph.sheet.value? b = some y)
    (other : old.equals v = false) : ∃ g : Graph (Program σ),
    g.Copying a b E F (false, .dirty) (false, .clean) ∧ g.pending = [E] ∧
      g.sheet.value? a = some v ∧ g.sheet.value? b = some y ∧
      e.writeSignal refresh a v =
        (drain refresh e.settings.maxRuns { e with graph := g, flushing := true }).map
          fun (settled, e') =>
            (if settled then .ok () else .error (.reactive (.unsettled e.settings.maxRuns)),
              { e' with flushing := false }) := by
  obtain ⟨n, hn, hkind⟩ := value?_eq_some.1 held
  obtain ⟨hcopying, hqueued⟩ := copying.written rest.pending hn hkind v
  refine ⟨e.graph.written a v n.subscribers, hcopying, hqueued, ?_, ?_, ?_⟩
  · rw [value?_written hn, if_pos rfl]
  · rw [value?_written hn, if_neg copying.wired.apart.symm, held']
  · rw [writeSignal_found hn hkind, if_neg (by simp [other]), flush, if_neg]
    simp [rest.batchDepth, rest.flushing]

/-- A signal that is copied to and fro is written to: in the end both hold the new value. -/
theorem exec_set_copying (depth : Nat) (rest : e.Quiescent)
    (copying : e.graph.Copying a b E F (false, .clean) (false, .clean))
    (skip : e.settings.writeEquality = .skipEqual) (room : 2 ≤ e.settings.maxRuns)
    (held : e.graph.sheet.value? a = some old) (held' : e.graph.sheet.value? b = some y)
    (other : old.equals v = false) (same : v.equals v = true) : ∃ e',
    (Program.set a v).exec (depth + 1) (refreshWithin (depth + 1)) e = some (.ok .undefined, e') ∧
      e'.graph.sheet.value? a = some v ∧
      ∃ z, e'.graph.sheet.value? b = some z ∧ z.equals v = true := by
  obtain ⟨g, hcopying, hqueued, hheld, hheld', hwritten⟩ :=
    writeSignal_copying (refreshWithin (depth + 1)) rest copying held held' other
  obtain ⟨runs, hruns⟩ := Nat.exists_eq_add_of_le' room
  obtain ⟨g', hdrain, hresult⟩ := drain_copying depth
    (e := { e with graph := g, flushing := true }) hcopying hqueued rfl skip hheld hheld' same runs
  refine ⟨{ e with graph := g', flushing := false }, exec_set ?_, hresult⟩
  rw [hwritten, hruns, hdrain]
  rfl

/-- A value that is not equal to itself is copied to and fro for good, whatever the limit. -/
theorem exec_set_restless (depth : Nat) (rest : e.Quiescent)
    (copying : e.graph.Copying a b E F (false, .clean) (false, .clean))
    (held : e.graph.sheet.value? a = some old) (held' : e.graph.sheet.value? b = some y)
    (other : old.equals v = false) (other' : y.equals v = false) (restless : v.equals v = false) :
    ∃ e', (Program.set a v).exec (depth + 1) (refreshWithin (depth + 1)) e =
      some (.error (.reactive (.unsettled e.settings.maxRuns)), e') := by
  obtain ⟨g, hcopying, hqueued, hheld, hheld', hwritten⟩ :=
    writeSignal_copying (refreshWithin (depth + 1)) rest copying held held' other
  obtain ⟨e', hdrain⟩ := drain_restless depth e.settings.maxRuns
    (e := { e with graph := g, flushing := true }) hcopying hqueued rfl hheld hheld' other' restless
  refine ⟨{ e' with flushing := false }, ?_⟩
  rw [Program.set, Program.exec, hwritten, hdrain]
  rfl

/-- Under the policy that skips equal writes, writing back what a signal holds leaves the engine as it
is, unless what it holds is not equal to itself. So two effects that copy two signals to each other come
to rest. -/
theorem writes_back (skip : e.settings.writeEquality = .skipEqual) :
    (∀ {s v}, e.graph.sheet.value? s = some v → v.Proper → v.Definite → ∀ depth,
      run depth (writeBack s) e = some (.ok .undefined, e)) ∧
    ∀ {a b E F v}, e.Quiescent → e.graph.Copying a b E F (false, .clean) (false, .clean) →
      2 ≤ e.settings.maxRuns → v.Proper → v.Definite → ∀ depth, ∃ e',
      run (depth + 1) (.set a v) e = some (.ok .undefined, e') ∧ e'.Quiescent ∧
        (∃ x, e'.graph.sheet.value? a = some x ∧ x.equals v = true) ∧
        (e' = e ∨ ∃ y, e'.graph.sheet.value? b = some y ∧ y.equals v = true) := by
  refine ⟨fun held proper definite depth =>
    exec_writeBack skip held ((Value.equals_self_iff proper).2 definite), ?_⟩
  intro a b E F v rest copying room proper definite depth
  have hsame := (Value.equals_self_iff proper).2 definite
  obtain ⟨old, hheld⟩ := hasSignal_iff.1 copying.wired.left
  obtain ⟨y, hheld'⟩ := hasSignal_iff.1 copying.wired.right
  cases hother : old.equals v with
  | true =>
    have hran : run (depth + 1) (.set a v) e = some (.ok .undefined, e) :=
      exec_set (writeSignal_skip skip hheld hother)
    exact ⟨e, hran, rest, ⟨old, hheld, hother⟩, .inl rfl⟩
  | false =>
    obtain ⟨e', hran, hvalue, hvalue'⟩ :=
      exec_set_copying depth rest copying skip room hheld hheld' hother hsame
    obtain ⟨_, hcourse⟩ := run_course hran
    exact ⟨e', hran, rest.course hcourse (run_framed hran).length, ⟨v, hvalue, hsame⟩, .inr hvalue'⟩

namespace Mirrors

def settings : Settings := ⟨.skipEqual, 2, Nat.two_pos⟩

def left : NodeId := ⟨0, 0⟩

def right : NodeId := ⟨1, 0⟩

def first : NodeId := ⟨2, 0⟩

def second : NodeId := ⟨3, 0⟩

def scope : ScopeId := ⟨0, 0⟩

/-- Two signals, and two effects that copy them to each other. -/
def session : Program Nat :=
  .newSignal .null fun _ => .newSignal .null fun _ => .newScope none fun _ =>
    .newEffect scope (copy left right) fun _ => .newEffect scope (copy right left) fun _ =>
      .pure .undefined

def mirrors : Engine Nat :=
  ((run 3 session (start settings 0)).get (by cbv)).2

/-- A signal, and an effect that reads it and counts its runs. -/
def watch (x : Value) : Program Nat :=
  .newSignal x fun _ => .newScope none fun _ =>
    .newEffect scope (.read ⟨.signal, left⟩ true fun _ => .adjust (· + 1) (.pure .undefined)) fun _ =>
      .pure .undefined

def watched (x : Value) : Engine Nat :=
  ((run 3 (watch x) (start settings 0)).get (by rfl)).2

def deep : Value := .array 0 [.object 1 [("n", .number 1), ("t", .text "t")], .null]

def nan : Value := .number (0 / 0)

theorem ran_session : run 3 session (start settings 0) = some (.ok .undefined, mirrors) := by
  cbv

theorem ran_watch (x : Value) :
    run 3 (watch x) (start settings 0) = some (.ok .undefined, watched x) :=
  rfl

theorem quiescent_of_ran {p : Program Nat} {o : Outcome} {e : Engine Nat}
    (ran : run 3 p (start settings 0) = some (o, e)) : e.Quiescent := by
  obtain ⟨_, hcourse⟩ := run_course ran
  exact (quiescent_start settings 0).course hcourse (run_framed ran).length

theorem quiescent_mirrors : mirrors.Quiescent :=
  quiescent_of_ran ran_session

theorem settings_mirrors : mirrors.settings = settings := by
  cbv

theorem node_left : mirrors.graph.node? left = some ⟨.signal .null, .clean, [], [first], none⟩ := by
  cbv

theorem node_right : mirrors.graph.node? right = some ⟨.signal .null, .clean, [], [second], none⟩ := by
  cbv

theorem node_first : mirrors.graph.node? first =
    some ⟨.effect (copy left right) false, .clean, [left], [], some scope⟩ := by
  cbv

theorem node_second : mirrors.graph.node? second =
    some ⟨.effect (copy right left) false, .clean, [right], [], some scope⟩ := by
  cbv

/-- Behind each signal is only the effect that reads it. -/
theorem behind_mirrors {s t x : NodeId} {n m : Node (Program Nat)}
    (signal : mirrors.graph.node? s = some n) (only : n.subscribers = [t])
    (effect : mirrors.graph.node? t = some m) (bare : m.subscribers = [])
    (behind : mirrors.graph.Behind s x) : x = t := by
  obtain ⟨y, ⟨n', hn', hy⟩, rest⟩ := TransGen.head'_iff.1 behind
  obtain rfl := Option.some.inj (signal.symm.trans hn')
  obtain rfl : y = t := by simpa [only] using hy
  rcases ReflTransGen.cases_head rest with rfl | ⟨z, ⟨m', hm', hz⟩, -⟩
  · rfl
  · obtain rfl := Option.some.inj (effect.symm.trans hm')
    simp [bare] at hz

theorem copying_mirrors :
    mirrors.graph.Copying left right first second (false, .clean) (false, .clean) where
  formed := by
    have reached : Moment.Reached ⟨.work (.done (.ok .undefined)), [], mirrors⟩ :=
      ⟨settings, 0, session, Moment.later_of_steps (run_steps ran_session [])⟩
    exact reached.sound.graph
  wired :=
    { apart := by decide
      left := ⟨_, node_left, rfl⟩
      right := ⟨_, node_right, rfl⟩
      first := ⟨_, node_first, rfl, rfl⟩
      second := ⟨_, node_second, rfl, rfl⟩
      alone := by
        rintro s x n (rfl | rfl) behind - -
        · exact .inl (behind_mirrors node_left rfl node_first rfl behind)
        · exact .inr (behind_mirrors node_right rfl node_second rfl behind) }
  first := ⟨_, node_first, rfl, rfl⟩
  second := ⟨_, node_second, rfl, rfl⟩

theorem proper_deep : deep.Proper := by
  refine .array 0 fun x hx => ?_
  simp only [List.mem_cons, List.not_mem_nil, or_false] at hx
  rcases hx with rfl | rfl
  · refine .object 1 (by decide) fun p hp => ?_
    simp only [List.mem_cons, List.not_mem_nil, or_false] at hp
    rcases hp with rfl | rfl
    · exact .number 1
    · exact .text "t"
  · exact .null

theorem definite_deep : deep.Definite :=
  (Value.equals_self_iff proper_deep).1 (by decide)

end Mirrors

open Mirrors in
/-- An effect that reads the signal is not run, and two that copy come to rest. -/
theorem writes_back_deep :
    run 1 (writeBack left) (watched deep) = some (.ok .undefined, watched deep) ∧
      ∃ e', run 2 (.set left deep) mirrors = some (.ok .undefined, e') ∧ e'.Quiescent := by
  have skip : mirrors.settings.writeEquality = .skipEqual := by rw [settings_mirrors, Mirrors.settings]
  have room : 2 ≤ mirrors.settings.maxRuns := by rw [settings_mirrors, Mirrors.settings]
  obtain ⟨e', ran, rest, -⟩ := (writes_back skip).2 quiescent_mirrors copying_mirrors room proper_deep
    definite_deep 1
  have held : (watched deep).graph.sheet.value? left = some deep := rfl
  exact ⟨(writes_back rfl).1 held proper_deep definite_deep 1, e', ran, rest⟩

open Mirrors in
/-- What is not a number is not equal to itself: writing it back runs an effect, and copying it to and
fro does not end. -/
theorem nan_written_back :
    ((watched nan).Quiescent ∧ (watched nan).settings.writeEquality = .skipEqual ∧
      (watched nan).graph.sheet.value? left = some nan ∧
      (run 3 (writeBack left) (watched nan)).map (·.2.host) = some ((watched nan).host + 1)) ∧
    mirrors.graph.Copying left right first second (false, .clean) (false, .clean) ∧
      ∃ e', run 2 (.set left nan) mirrors = some (.error (.reactive (.unsettled 2)), e') := by
  refine ⟨⟨quiescent_of_ran (ran_watch nan), rfl, rfl, rfl⟩, copying_mirrors, ?_⟩
  obtain ⟨e', ran⟩ := exec_set_restless 1 quiescent_mirrors copying_mirrors
    (value?_eq_some.2 ⟨_, node_left, rfl⟩) (value?_eq_some.2 ⟨_, node_right, rfl⟩)
    (by decide : Value.null.equals nan = false) (by decide) (by decide)
  rw [settings_mirrors] at ran
  exact ⟨e', ran⟩

end Engine

end LiveTemplate.Reactive
