import LiveTemplate.Proofs.Expr.Discretion
import LiveTemplate.Proofs.Reactive.Flush
import LiveTemplate.Proofs.Reactive.Running
import LiveTemplate.Proofs.Reactive.Writing

/-!
# Bindings over signals

In a graph of signals and of bindings over them every edge leads from a signal to a binding
(`Graph.Displays`). A binding there either has to run or shows what its body is reckoned to on the
values that the signals hold, and a read brings this about (`Engine.Displays.read`). A write runs
nothing; the bindings that followed the signal have to run when they are read next, and the others go on
to show what they are reckoned to (`Engine.Displays.write`).
-/
namespace LiveTemplate.Reactive

open Program

variable {σ : Type} {k : Nat}

/-- The holdings after a change of one signal. -/
def Holdings.revise (held : Holdings) (id : NodeId) (change : Value → Value) : Holdings :=
  fun x => if x = id then (held x).map change else held x

theorem Holdings.revise_unset {held : Holdings} {id : NodeId} (unset : held id = none)
    (change : Value → Value) : held.revise id change = held := by
  funext x
  rw [revise]
  split
  next hx => rw [hx, unset]; rfl
  next => rfl

namespace Graph

/-- Signals of plain data and bindings over them, none of which is running. -/
structure Displays (k : Nat) (g : Graph (Program σ)) : Prop where
  linked : g.Linked
  plain : ∀ {id : NodeId} {v : Value}, g.sheet.value? id = some v → v.Plain k
  kinds : ∀ {id : NodeId} {n : Node (Program σ)}, g.node? id = some n →
    (∃ v, n.kind = .signal v) ∨ ∃ body last, n.kind = .computed body false last
  steady : ∀ {id : NodeId} {body : Program σ}, g.sheet.body? id = some body →
    body.Steady k (Holdings.Live g.sheet.value?)
  sources : ∀ {id s : NodeId} {n : Node (Program σ)}, g.node? id = some n → s ∈ n.sources →
    (∃ body, g.sheet.body? id = some body) ∧ ∃ v, g.sheet.value? s = some v
  shows : ∀ {id : NodeId} {n : Node (Program σ)} {body : Program σ} {last : Option Outcome},
    g.node? id = some n → n.kind = .computed body false last →
      n.freshness = .dirty ∨ n.freshness = .clean ∧ ∃ i cs o j, k ≤ i ∧
        body.Reckons g.sheet.value? i cs o j ∧ last = some o ∧ ∀ c ∈ cs, c.node ∈ n.sources
  pending : g.pending = []

variable {g : Graph (Program σ)} {id : NodeId} {n : Node (Program σ)} {body : Program σ}

theorem Displays.free (h : g.Displays k) (id : NodeId) (v : Value)
    (found : g.sheet.value? id = some v) : v.isReactive = false := by
  cases h.plain found with
  | cell offered => exact offered.elim
  | _ => rfl

theorem Displays.idle (h : g.Displays k) (found : g.sheet.body? id = some body) :
    ∃ n, g.node? id = some n ∧ ∃ last, n.kind = .computed body false last := by
  obtain ⟨n, running, last, hn, hkind⟩ := body?_eq_some.1 found
  rcases h.kinds hn with ⟨v, hv⟩ | ⟨_, _, hv⟩
  · cases hkind.symm.trans hv
  · obtain ⟨rfl, rfl, rfl⟩ := NodeKind.computed.inj (hkind.symm.trans hv)
    exact ⟨n, hn, last, hkind⟩

/-- The values of the signals on offer. -/
theorem Displays.live (h : g.Displays k) (c : Cell) (live : Holdings.Live g.sheet.value? c) :
    c.kind = .signal ∧ ∃ v, g.sheet.value? c.node = some v ∧ v.Plain k := by
  obtain ⟨kind, hlive⟩ := live
  obtain ⟨v, hv⟩ := Option.isSome_iff_exists.1 hlive
  exact ⟨kind, v, hv, h.plain hv⟩

/-- A body comes to something, whatever identities it is given. -/
theorem Displays.reckons (h : g.Displays k) (found : g.sheet.body? id = some body) {i : Nat}
    (le : k ≤ i) : ∃ cs o j, body.Reckons g.sheet.value? i cs o j := by
  obtain ⟨cs, o, -, j, -, reckons, -, -⟩ :=
    (h.steady found k i i le_rfl le le).reckons h.live le_rfl le_rfl
  exact ⟨cs, o, j, reckons⟩

/-! ## Runs -/

section Finished

variable {last : Option Outcome} {i j : Nat} {cs : List Cell} {o : Outcome}

/-- A graph after a run of a binding. -/
def ran (g : Graph (Program σ)) (id : NodeId) (body : Program σ) (last : Option Outcome)
    (cs : List Cell) (o : Outcome) : Graph (Program σ) :=
  (g.begun id (.computed body true last)).finished id (record [] cs) o

theorem sheet_ran (found : g.node? id = some n) (kind : n.kind = .computed body false last)
    (cs : List Cell) (o : Outcome) : (g.ran id body last cs o).sheet = g.sheet :=
  (sheet_finished (begun_self found _) rfl _ _).trans (sheet_begun found kind)

theorem ran_self (found : g.node? id = some n) (body : Program σ) (last : Option Outcome)
    (cs : List Cell) (o : Outcome) :
    ∃ m, (g.ran id body last cs o).node? id = some m ∧ m.kind = .computed body false (some o) ∧
      m.freshness = .clean ∧
      m.sources = (record [] cs).filter fun s => (g.node? s).isSome := by
  obtain ⟨m, hm, kind, fresh, sources⟩ :=
    finished_self (begun_self found (.computed body true last)) rfl rfl (record [] cs) o
  refine ⟨m, hm, kind, fresh, sources.trans (List.filter_congr fun s _ => ?_)⟩
  rw [node?_begun]
  split <;> simp

theorem Linked.begun (linked : g.Linked) (id : NodeId) (kind : NodeKind (Program σ)) :
    (g.begun id kind).Linked :=
  linked.modifyNode id fun _ => rfl

theorem ran_other (linked : g.Linked) (found : g.node? id = some n) {x : NodeId}
    {m : Node (Program σ)} (other : x ≠ id) (hm : (g.ran id body last cs o).node? x = some m) :
    ∃ m₀, g.node? x = some m₀ ∧ m₀.Kept m := by
  obtain ⟨m₀, hm₀, hkept, -⟩ := finished_of_ne (linked.begun id _) (begun_self found _) rfl other hm
  exact ⟨m₀, (begun_other other).symm.trans hm₀, hkept⟩

theorem Displays.ran (h : g.Displays k) (found : g.node? id = some n)
    (kind : n.kind = .computed body false last) (le : k ≤ i)
    (reckons : body.Reckons g.sheet.value? i cs o j) : (g.ran id body last cs o).Displays k := by
  have hsheet := sheet_ran found kind cs o
  obtain ⟨m, hm, hkind, hclean, hsources⟩ := ran_self found body last cs o
  have hlive (s : NodeId) (hs : s ∈ record [] cs) : ∃ v, g.sheet.value? s = some v := by
    obtain hs | ⟨c, hc, rfl⟩ := mem_record.1 hs
    · cases hs
    · exact (reckons.live c hc).2
  constructor
  · exact linked_finished (h.linked.begun id _) (begun_self found _) rfl _ _
  · rw [hsheet]
    exact h.plain
  · intro x m' hm'
    by_cases hx : x = id
    · subst hx
      obtain rfl := Option.some.inj (hm.symm.trans hm')
      exact .inr ⟨body, some o, hkind⟩
    · obtain ⟨m₀, hm₀, hkept⟩ := ran_other h.linked found hx hm'
      rw [hkept.kind]
      exact h.kinds hm₀
  · rw [hsheet]
    exact h.steady
  · rw [hsheet]
    intro x s m' hm' hs
    by_cases hx : x = id
    · subst hx
      obtain rfl := Option.some.inj (hm.symm.trans hm')
      rw [hsources] at hs
      exact ⟨⟨body, body?_of_kind found kind⟩, hlive s (List.mem_filter.1 hs).1⟩
    · obtain ⟨m₀, hm₀, hkept⟩ := ran_other h.linked found hx hm'
      exact h.sources hm₀ (hkept.sources ▸ hs)
  · rw [hsheet]
    intro x m' body' last' hm' hkind'
    by_cases hx : x = id
    · subst hx
      obtain rfl := Option.some.inj (hm.symm.trans hm')
      obtain ⟨rfl, -, rfl⟩ := NodeKind.computed.inj (hkind.symm.trans hkind')
      refine .inr ⟨hclean, i, cs, o, j, le, reckons, rfl, fun c hc => ?_⟩
      obtain ⟨-, v, hv⟩ := reckons.live c hc
      obtain ⟨t, ht, -⟩ := value?_eq_some.1 hv
      rw [hsources, List.mem_filter, ht]
      exact ⟨mem_record.2 (.inr ⟨c, hc, rfl⟩), rfl⟩
    · obtain ⟨m₀, hm₀, hkept⟩ := ran_other h.linked found hx hm'
      rw [hkept.sources]
      rcases h.shows hm₀ (hkept.kind ▸ hkind') with hdirty | ⟨hfresh, hshown⟩
      · rcases hkept.freshness with heq | ⟨-, heq⟩
        · exact .inl (heq.trans hdirty)
        · exact .inl heq
      · exact .inr ⟨hkept.clean_iff.2 hfresh, hshown⟩
  · rw [Graph.ran, pending_finished]
    exact h.pending

end Finished

/-! ## Writes -/

section Written

variable {old value : Value}

/-- Nothing depends on a binding. -/
theorem Displays.bare (h : g.Displays k) {x : NodeId} {m : Node (Program σ)}
    (found : g.node? x = some m) (unset : g.sheet.value? x = none) : m.subscribers = [] := by
  refine List.eq_nil_iff_forall_not_mem.2 fun y hy => ?_
  obtain ⟨t, ht⟩ := Option.isSome_iff_exists.1 (h.linked.subscriber_live found hy)
  obtain ⟨-, v, hv⟩ := h.sources ht ((h.linked.edge ht found).2 hy)
  simp [unset] at hv

/-- Marking stops at the subscribers of a signal. -/
theorem Displays.mem_of_marks (h : g.Displays k) (found : g.node? id = some n) {x : NodeId}
    (marked : g.Marks n.subscribers x) : x ∈ n.subscribers := by
  have hbody {y : NodeId} (hy : y ∈ n.subscribers) : g.sheet.value? y = none := by
    obtain ⟨t, ht⟩ := Option.isSome_iff_exists.1 (h.linked.subscriber_live found hy)
    obtain ⟨⟨body, hbody⟩, -⟩ := h.sources ht ((h.linked.edge ht found).2 hy)
    exact value?_of_body? hbody
  induction marked with
  | target mem _ _ => exact mem
  | onward _ hm mem _ _ ih =>
    rw [h.bare hm (hbody ih)] at mem
    cases mem

theorem Displays.written_other (h : g.Displays k) (found : g.node? id = some n) {x : NodeId}
    {m : Node (Program σ)} (other : x ≠ id)
    (hm : (g.written id value n.subscribers).node? x = some m) :
    ∃ m₀, g.node? x = some m₀ ∧ m.kind = m₀.kind ∧ m.sources = m₀.sources ∧
      (m.freshness = .dirty ∨ id ∉ m₀.sources ∧ m.freshness = m₀.freshness) := by
  obtain ⟨m₀, hm₀, hd⟩ := written_of_ne other hm
  refine ⟨m₀, hm₀, hd.kind, hd.sources, ?_⟩
  by_cases hsub : x ∈ n.subscribers
  · exact .inl (markAll_dirty hsub hm)
  · have hfar : ¬g.Carries id x := by
      rintro ⟨n', hn', marked⟩
      obtain rfl := Option.some.inj (found.symm.trans hn')
      exact hsub (h.mem_of_marks found marked)
    have hsame := (written_spared found value hfar).1 other
    obtain rfl := Option.some.inj (hm.symm.trans (hsame.trans hm₀))
    exact .inr ⟨fun hs => hsub ((h.linked.edge hm₀ found).1 hs), rfl⟩

theorem value?_written_revise (found : g.node? id = some n) (kind : n.kind = .signal old) :
    (g.written id value n.subscribers).sheet.value? =
      Holdings.revise g.sheet.value? id fun _ => value := by
  funext x
  rw [value?_written found, Holdings.revise]
  split
  next hx =>
    subst hx
    rw [value?_eq_some.2 ⟨n, found, kind⟩]
    rfl
  next => rfl

theorem Displays.written (h : g.Displays k) (found : g.node? id = some n)
    (kind : n.kind = .signal old) (plain : value.Plain k) :
    (g.written id value n.subscribers).Displays k := by
  obtain ⟨m, hm, hkind, hsources, -⟩ := written_self found value n.subscribers
  have hvalue (x : NodeId) : (g.written id value n.subscribers).sheet.value? x =
      if x = id then some value else g.sheet.value? x := value?_written found n.subscribers x
  have hbody : (g.written id value n.subscribers).sheet.body? = g.sheet.body? :=
    body?_written found kind n.subscribers
  have hlive (s : NodeId) : ((g.written id value n.subscribers).sheet.value? s).isSome =
      (g.sheet.value? s).isSome := by
    rw [hvalue]
    split
    next hs => rw [hs, value?_eq_some.2 ⟨n, found, kind⟩]; rfl
    next => rfl
  constructor
  · exact (delayed_written g id value n.subscribers).linked (h.linked.modifyNode id fun _ => rfl)
  · intro x v hv
    rw [hvalue] at hv
    split at hv
    · exact Option.some.inj hv ▸ plain
    · exact h.plain hv
  · intro x m' hm'
    by_cases hx : x = id
    · subst hx
      obtain rfl := Option.some.inj (hm.symm.trans hm')
      exact .inl ⟨value, hkind⟩
    · obtain ⟨m₀, hm₀, hkind₀, -⟩ := h.written_other found hx hm'
      rw [hkind₀]
      exact h.kinds hm₀
  · intro x body hx
    rw [hbody] at hx
    exact (h.steady hx).mono le_rfl fun c hc => ⟨hc.1, (hlive c.node).trans hc.2⟩
  · intro x s m' hm' hs
    rw [hbody]
    have hsource : ∃ m₀, g.node? x = some m₀ ∧ s ∈ m₀.sources := by
      by_cases hx : x = id
      · subst hx
        obtain rfl := Option.some.inj (hm.symm.trans hm')
        exact ⟨n, found, hsources ▸ hs⟩
      · obtain ⟨m₀, hm₀, -, hsources₀, -⟩ := h.written_other found hx hm'
        exact ⟨m₀, hm₀, hsources₀ ▸ hs⟩
    obtain ⟨m₀, hm₀, hs₀⟩ := hsource
    obtain ⟨hcomputed, v, hv⟩ := h.sources hm₀ hs₀
    exact ⟨hcomputed, Option.isSome_iff_exists.1 ((hlive s).trans (by rw [hv]; rfl))⟩
  · intro x m' body last hm' hkind'
    have hx : x ≠ id := by
      rintro rfl
      obtain rfl := Option.some.inj (hm.symm.trans hm')
      simp [hkind] at hkind'
    obtain ⟨m₀, hm₀, hkind₀, hsources₀, hdirty | ⟨hfar, hfresh⟩⟩ := h.written_other found hx hm'
    · exact .inl hdirty
    rw [hfresh, hsources₀]
    refine (h.shows hm₀ (hkind₀ ▸ hkind')).imp_right ?_
    rintro ⟨hclean, i, cs, o, j, le, reckons, hlast, hcs⟩
    -- the body did not follow the signal, so it comes to the same
    refine ⟨hclean, i, cs, o, j, le, reckons.congr fun c hc => ?_, hlast, hcs⟩
    rw [hvalue, if_neg fun hid : c.node = id => hfar (hid ▸ hcs c hc)]
  · refine List.eq_nil_iff_forall_not_mem.2 fun x hx => ?_
    rcases (delayed_written g id value n.subscribers).added x hx with hold | ⟨m', hm', heffect, -⟩
    · exact absurd (h.pending ▸ hold) (by simp)
    · by_cases hid : x = id
      · subst hid
        obtain rfl := Option.some.inj (hm.symm.trans hm')
        simp [Node.isEffect, hkind] at heffect
      · obtain ⟨m₀, hm₀, hkind₀, -⟩ := h.written_other found hid hm'
        rcases h.kinds hm₀ with ⟨v, hv⟩ | ⟨body, last, hv⟩ <;>
          simp [Node.isEffect, hkind₀, hv] at heffect

end Written

end Graph

namespace Engine

open Reactive.Graph

variable {e : Engine σ} {id : NodeId} {body : Program σ}

/-- An engine of signals and bindings over them, with nothing going on. -/
structure Displays (k : Nat) (e : Engine σ) : Prop where
  graph : e.graph.Displays k
  untracked : e.tracking = []
  still : e.flushing = false
  identities : k ≤ e.identities

/-- A binding that has to run shows what its body is reckoned to. -/
theorem Displays.runNode (h : e.Displays k) {n : Node (Program σ)} {last : Option Outcome}
    (found : e.graph.node? id = some n) (kind : n.kind = .computed body false last) {cs : List Cell}
    {o : Outcome} {j : Nat} (reckons : body.Reckons e.graph.sheet.value? e.identities cs o j)
    (depth : Nat) (refresh : NodeId → Engine σ → Option (Engine σ)) :
    runNode (depth + 1) refresh id e =
      some { e with graph := e.graph.ran id body last cs o, identities := j } := by
  have hsheet : (e.beginRun id (.computed body true last)).graph.sheet = e.graph.sheet :=
    sheet_begun found kind
  have hexec : body.exec (depth + 1) refresh (e.beginRun id (.computed body true last)) =
      some (o, { e.beginRun id (.computed body true last) with
        tracking := some (record [] cs) :: e.tracking, identities := j }) :=
    Reckons.exec (hsheet ▸ reckons) (hsheet ▸ h.graph.free) rfl rfl
  obtain ⟨_, _, _, _, _⟩ := n
  subst kind
  simp only [Engine.runNode, found]
  rw [hexec, Option.map_some, storeOutcome_closeRun]
  rfl

/-- Brought up to date, a binding shows what its body is reckoned to on the present values. -/
theorem Displays.refresh (h : e.Displays k) (found : e.graph.sheet.body? id = some body)
    (depth : Nat) : ∃ g i cs o j used,
      refreshWithin (depth + 2) id e = some { e with graph := g, identities := used } ∧
        ({ e with graph := g, identities := used } : Engine σ).Displays k ∧
          g.sheet = e.graph.sheet ∧ k ≤ i ∧
            body.Reckons e.graph.sheet.value? i cs o j ∧ g.shown id = o := by
  obtain ⟨n, hn, last, hkind⟩ := h.graph.idle found
  rcases h.graph.shows hn hkind with hdirty | ⟨hclean, i, cs, o, j, le, reckons, hlast, -⟩
  · obtain ⟨cs, o, j, reckons⟩ := h.graph.reckons found h.identities
    obtain ⟨m, hm, hshown, -⟩ := ran_self hn body last cs o
    refine ⟨e.graph.ran id body last cs o, e.identities, cs, o, j, j, ?_, ?_, sheet_ran hn hkind cs o,
      h.identities, reckons, ?_⟩
    · have hrun := h.runNode hn hkind reckons depth (refreshWithin (depth + 1))
      simp only [refreshWithin, refreshOver, freshness?, hn, hdirty, Option.bind_some,
        Option.map_some, reduceCtorEq, if_false] at hrun ⊢
      exact hrun
    · exact ⟨h.graph.ran hn hkind h.identities reckons, h.untracked, h.still,
        h.identities.trans reckons.le⟩
    · rw [shown_eq hm, hshown]
      rfl
  · refine ⟨e.graph, i, cs, o, j, e.identities, ?_, h, rfl, le, reckons, ?_⟩
    · simp only [refreshWithin, refreshOver, freshness?, hn, hclean, Option.bind_some,
        Option.map_some, reduceCtorEq, if_false]
    · rw [shown_eq hn, hkind, hlast]
      rfl

theorem readCell_computed {refresh : NodeId → Engine σ → Option (Engine σ)} {n : Node (Program σ)}
    {last : Option Outcome} (found : e.graph.node? id = some n)
    (kind : n.kind = .computed body false last) (tracked : Bool) :
    e.readCell refresh ⟨.computed, id⟩ tracked =
      (refresh id e).map fun e => (e.shownOutcome id, e.trackIf tracked id) := by
  obtain ⟨_, _, _, _, _⟩ := n
  subst kind
  simp only [readCell, found]

theorem shownOutcome_eq_shown (found : e.graph.sheet.body? id = some body) :
    e.shownOutcome id = e.graph.shown id := by
  obtain ⟨⟨_, _, _, _, _⟩, _, last, hn, rfl⟩ := body?_eq_some.1 found
  cases last <;> simp only [shownOutcome, shown_eq hn, hn, NodeKind.shown]

/-- A read of a binding gives what its body is reckoned to on the present values. -/
theorem Displays.read (h : e.Displays k) (found : e.graph.sheet.body? id = some body) (depth : Nat)
    (tracked : Bool) : ∃ g i cs o j used,
      e.readCell (refreshWithin (depth + 2)) ⟨.computed, id⟩ tracked =
          some (o, { e with graph := g, identities := used }) ∧
        ({ e with graph := g, identities := used } : Engine σ).Displays k ∧
          g.sheet = e.graph.sheet ∧ k ≤ i ∧ body.Reckons e.graph.sheet.value? i cs o j := by
  obtain ⟨n, hn, last, hkind⟩ := h.graph.idle found
  obtain ⟨g, i, cs, o, j, used, hrefresh, hdisplays, hsheet, le, reckons, hshown⟩ :=
    h.refresh found depth
  refine ⟨g, i, cs, o, j, used, ?_, hdisplays, hsheet, le, reckons⟩
  have htrack : Engine.trackIf tracked { e with graph := g, identities := used } id =
      { e with graph := g, identities := used } := by
    cases tracked <;> simp only [trackIf, track, h.untracked, Bool.false_eq_true, if_false, if_true]
  rw [readCell_computed hn hkind, hrefresh, Option.map_some, htrack,
    shownOutcome_eq_shown (e := { e with graph := g, identities := used }) (hsheet ▸ found), hshown]

/-- A read of anything but a computed fails. -/
theorem readCell_unbound {refresh : NodeId → Engine σ → Option (Engine σ)}
    (unbound : e.graph.sheet.body? id = none) (tracked : Bool) :
    e.readCell refresh ⟨.computed, id⟩ tracked =
      some (.error (.reactive (.disposed .computed)), e) := by
  rcases hn : e.graph.node? id with _ | ⟨_ | ⟨body, _, last⟩ | _, _, _, _, _⟩ <;>
    simp only [readCell, hn]
  simp [body?_of_kind hn rfl] at unbound

theorem readCell_unset {refresh : NodeId → Engine σ → Option (Engine σ)}
    (unset : e.graph.sheet.value? id = none) (tracked : Bool) :
    e.readCell refresh ⟨.signal, id⟩ tracked = some (.error (.reactive (.disposed .signal)), e) := by
  rcases hn : e.graph.node? id with _ | ⟨v | _ | _, _, _, _, _⟩ <;> simp only [readCell, hn]
  simp [value?_eq_some.2 ⟨_, hn, rfl⟩] at unset

/-- There is nothing to flush. -/
theorem Displays.flush (h : e.Displays k) (refresh : NodeId → Engine σ → Option (Engine σ)) :
    flush refresh e = some (.ok (), e) := by
  rw [Engine.flush]
  split
  · rfl
  · rw [drain_nil _ (by exact h.graph.pending)]
    simp only [Option.map_some, ← h.still, if_true]

theorem writeSignal_unset {refresh : NodeId → Engine σ → Option (Engine σ)} {value : Value}
    (unset : e.graph.sheet.value? id = none) :
    e.writeSignal refresh id value = some (.error (.reactive (.disposed .signal)), e) := by
  rcases hn : e.graph.node? id with _ | ⟨v | _ | _, _, _, _, _⟩ <;> simp only [writeSignal, hn]
  simp [value?_eq_some.2 ⟨_, hn, rfl⟩] at unset

/-- A write runs nothing. It may be skipped if the signal holds an equal value. -/
theorem Displays.write (h : e.Displays k) {value : Value} (plain : value.Plain k)
    (refresh : NodeId → Engine σ → Option (Engine σ)) :
    ∃ r g, e.writeSignal refresh id value = some (r, { e with graph := g }) ∧
      ({ e with graph := g } : Engine σ).Displays k ∧ g.sheet.body? = e.graph.sheet.body? ∧
        (g.sheet.value? = Holdings.revise e.graph.sheet.value? id (fun _ => value) ∨
          g.sheet.value? = e.graph.sheet.value? ∧
            ∃ old, e.graph.sheet.value? id = some old ∧ old.equals value = true) := by
  cases hvalue : e.graph.sheet.value? id with
  | none =>
    exact ⟨_, e.graph, writeSignal_unset hvalue, h, rfl, .inl (Holdings.revise_unset hvalue _).symm⟩
  | some old =>
    obtain ⟨n, hn, hkind⟩ := value?_eq_some.1 hvalue
    have hwritten : e.writeSignal refresh id value =
        if e.settings.writeEquality = .skipEqual && old.equals value then some (.ok (), e)
        else Engine.flush refresh { e with graph := e.graph.written id value n.subscribers } := by
      obtain ⟨_, _, _, _, _⟩ := n
      subst hkind
      simp only [writeSignal, hn]
      rfl
    rw [hwritten]
    split
    next hskip =>
      exact ⟨_, e.graph, rfl, h, rfl, .inr ⟨rfl, old, rfl, (Bool.and_eq_true_iff.1 hskip).2⟩⟩
    next =>
      have hdisplays : ({ e with graph := e.graph.written id value n.subscribers } : Engine σ).Displays k :=
        ⟨h.graph.written hn hkind plain, h.untracked, h.still, h.identities⟩
      exact ⟨_, _, hdisplays.flush refresh, hdisplays, body?_written hn hkind _,
        .inl (value?_written_revise hn hkind)⟩

end Engine

end LiveTemplate.Reactive
