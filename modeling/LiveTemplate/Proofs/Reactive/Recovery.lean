import LiveTemplate.Proofs.Reactive.Propagation

/-!
# After a flush that gave up

A flush that gives up leaves effects clean that did not run. They recover when what they recorded
changes, if it is settled. But giving up also leaves computeds late, and a write is not carried
through a late node: an effect behind one runs only if the mark reaches it in another way
(`Engine.Reached.recovers`). Otherwise it does not run until somebody reads what is late, though
its outcome changes with every write.
-/
namespace LiveTemplate.Reactive

/-- The effect ran, and all that it read is right. -/
def Journal.Updates (recs : Journal) (label : Nat) (sheet : Sheet Journal) : Prop :=
  ∃ s ∈ recs, s.label = label ∧ ∀ r ∈ s.readings, r.Right sheet

namespace Graph

variable {g h : Graph (Program Journal)} {wrote : NodeId → Prop}

theorem Prepared.holds (hp : g.Prepared wrote h) {cell : Cell} :
    h.sheet.Holds cell ↔ g.sheet.Holds cell := by
  induction hp with
  | refl => rfl
  | refreshed _ hr _ ih => rwa [hr.sheet]
  | written _ found kind _ _ ih => exact (holds_written found kind _).trans ih

theorem fresh_of_settled {cell : Cell} (holds : g.sheet.Holds cell)
    (settled : cell.kind = .computed → g.Settled cell.node) :
    g.Fresh ⟨cell, g.shown cell.node⟩ := by
  refine .inl ⟨holds, ?_, rfl⟩
  obtain ⟨kind, x⟩ := cell
  cases kind with
  | signal =>
    obtain ⟨v, hv⟩ := holds
    obtain ⟨n, hn, hk⟩ := value?_eq_some.1 hv
    exact ⟨n, hn, by simp [Node.isSettled, hk]⟩
  | computed => exact settled rfl

/-- A write that is carried to an effect makes it heed what its sources showed, late or not. -/
theorem heeds_written (hg : g.Coherent) {x id : NodeId} {n m : Node (Program Journal)}
    {old : Value} (found : g.node? x = some n) (kind : n.kind = .signal old)
    (hm : g.node? id = some m) (heffect : m.isEffect = true) (carries : g.Carries x id) {cell : Cell}
    (mem : cell.node ∈ m.sources) (holds : g.sheet.Holds cell) (value : Value) :
    (g.written x value n.subscribers).Heeds id ⟨cell, g.shown cell.node⟩ := by
  have hother : id ≠ x := by
    rintro rfl
    obtain rfl := Option.some.inj (found.symm.trans hm)
    simp [Node.isEffect, kind] at heffect
  refine ⟨⟨fun hk => ?_, fun hk hclean => ?_⟩, (holds_written found kind _).2 holds,
    fun hk higher => ?_⟩
  · obtain ⟨m', hm', hd⟩ := written_of_ne hother hk
    obtain rfl := Option.some.inj (hm.symm.trans hm')
    exact hd.sources ▸ mem
  · exact absurd hclean (carries.late hg found value hk)
  · have hne : cell.node ≠ x := by
      intro hcell
      have hsub := (hg.linked.edge hm found).1 (hcell ▸ mem)
      exact higher (markAll_dirty hsub hk)
    rw [shown_written hne]
    exact .refl (hg.shown_proper _)

end Graph

namespace Engine

open Reactive.Graph

variable {e e' : Engine Journal} {settings : Settings}

/-- An effect at rest heeds what the cells of its last readings show now, if they are settled. -/
theorem Reached.heeds {allowed : Except Fault Unit → Prop}
    (reached : Reached (· = true) allowed settings e) {id : NodeId}
    {label : Nat} (hat : e.graph.EffectAt id label) {r : Reading} (hr : r ∈ e.host.latest label)
    (holds : e.graph.sheet.Holds r.cell) (settled : e.graph.Settled r.cell.node) :
    e.graph.Heeds id ⟨r.cell, e.graph.shown r.cell.node⟩ :=
  ⟨⟨reached.upholds (upheld_recalls (fun _ h => h) allowed) hat hr holds, fun _ _ => settled⟩, holds,
    fun _ _ => .refl (reached.poised.sound.coherent.shown_proper _)⟩

/-- What an effect heeds when a flush begins is right at its end, if the effect did not run. -/
theorem right_of_unseen {g : Graph (Program Journal)} {depth : Nat} (hs : g.Sound (· = true))
    (still : e.flushing = false)
    (flushed : flush (refreshWithin depth) { e with graph := g } = some (.ok (), e'))
    (queues : e'.graph.QueuesBut none) (drained : e'.graph.pending = []) {id : NodeId} {label : Nat}
    (hat : g.EffectAt id label) {r : Reading} (heeds : g.Heeds id r) {recs : Journal}
    (host : e'.host = e.host ++ recs) (unseen : ∀ s ∈ recs, s.label ≠ label) :
    r.Right e'.graph.sheet := by
  obtain ⟨honward, -⟩ := flush_spec (e := { e with graph := g })
    (attends_refreshWithin _ depth) hs still flushed
  have hstart : g.Pays (.single e.host label r) e.host := by
    rintro x l r' hx ⟨rfl, rfl, -⟩
    obtain rfl := hs.distinct hx hat
    exact .inl heeds
  have hend := flush_keeps (e := { e with graph := g }) (attends_refreshWithin _ depth)
    (lasting_pays (fun _ ht => ht) (.single e.host label r)) hs still ⟨hstart, List.prefix_rfl⟩
    (fun h => absurd nofun h) flushed
  have hat' : e'.graph.EffectAt id label := honward.effects.2 hat
  have hheeds := (hend.1 hat' ⟨rfl, rfl, recs, host, unseen⟩).resolve_right
    fun h => h.1 (honward.sheet ▸ heeds.holds)
  obtain ⟨m, hm, heffect⟩ := hat'.isEffect
  have hclean : m.freshness = .clean := by
    by_contra hlate
    simpa [drained] using queues hm heffect hlate
  obtain ⟨o, hgives, halike⟩ := honward.sound.right
    (.inl ⟨hheeds.holds, hheeds.settled hm hclean, rfl⟩ :
      e'.graph.Fresh ⟨r.cell, e'.graph.shown r.cell.node⟩)
  exact ⟨o, hgives, (hheeds.alike hm (by simp [hclean])).symm.trans halike⟩

/-- What an operation is to do after flushes that gave up. An effect that saw a settled cell runs if
the operation changes the outcome of the cell. If the cell is late, a write runs the effect exactly
if it is carried to the effect. -/
structure Recovered (p : Program Journal) (e e' : Engine Journal) (recs : Journal) : Prop where
  host : e'.host = e.host ++ recs
  settled : ∀ {id : NodeId} {label : Nat}, e.graph.EffectAt id label → ∀ r ∈ e.host.latest label,
    (r.cell.kind = .computed → e.graph.Settled r.cell.node) →
      ∀ o o', e.graph.sheet.Gives r.cell o → e'.graph.sheet.Gives r.cell o' → ¬o.Alike o' →
        recs.Updates label e'.graph.sheet
  carried : ∀ {x : NodeId} {value : Value}, p = .set x value →
    ∀ {id : NodeId} {label : Nat}, e.graph.EffectAt id label → ∀ r ∈ e.host.latest label,
      ∀ o o', e.graph.sheet.Gives r.cell o → e'.graph.sheet.Gives r.cell o' → ¬o.Alike o' →
        ¬(e.graph.shown r.cell.node).Alike o' →
          (recs.Updates label e'.graph.sheet ↔ e.graph.Carries x id)

theorem Reached.recovers (reached : Reached (· = true) (fun _ => True) settings e)
    (rest : e.batchDepth = 0) {p : Program Journal} (operation : p.Operation) {depth : Nat} {v : Value}
    (ran : run depth p e = some (.ok v, e')) : ∃ recs, Recovered p e e' recs := by
  have hp := reached.poised
  obtain ⟨g, hprep, hflush⟩ := hp.readies operation rest ran
  have hsound := hprep.sound hp.sound
  obtain ⟨honward, -, recs, hhost, hrec, -⟩ := flush_spec (e := { e with graph := g })
    (attends_refreshWithin _ depth) hsound hp.still hflush
  obtain ⟨reached', rest'⟩ := reached.operation (fun _ _ => trivial) rest operation ran
  have hqueues : e'.graph.QueuesBut none := reached'.upholds (upheld_queues _ _)
  have hdrained := reached'.poised.drained rest'
  have hupdates {label : Nat} (unseen : ¬recs.Updates label e'.graph.sheet) :
      ∀ s ∈ recs, s.label ≠ label := fun s hs hlabel =>
    unseen ⟨s, hs, hlabel, fun r hr => honward.sound.right (hrec.fresh s hs r hr)⟩
  -- a cell that is gone gives the same before and after
  have hholds {r : Reading} {o o' : Outcome} (hgives : e.graph.sheet.Gives r.cell o)
      (hgives' : e'.graph.sheet.Gives r.cell o') (hdiffer : ¬o.Alike o') :
      e.graph.sheet.Holds r.cell := by
    by_contra gone
    have gone' : ¬e'.graph.sheet.Holds r.cell := by
      rwa [honward.sheet, show _ ↔ _ from hprep.holds]
    obtain rfl := (Sheet.not_holds_gives gone).functional hgives
    obtain rfl := (Sheet.not_holds_gives gone').functional hgives'
    refine hdiffer (.refl ?_)
    cases r.cell.kind <;> trivial
  refine ⟨recs, hhost, fun {id label} hat r hr settled o o' hgives hgives' hdiffer => ?_,
    fun {x value} hset id label hat r hr o o' hgives hgives' hdiffer hshown => ?_⟩
  · by_contra hunseen
    have holds := hholds hgives hgives' hdiffer
    have hfresh := fresh_of_settled holds settled
    obtain ⟨o₁, hgives₁, halike⟩ := hp.sound.right hfresh
    have hstart : e.graph.Pays (.single e.host label ⟨r.cell, e.graph.shown r.cell.node⟩) e.host := by
      rintro y l r' hy ⟨rfl, rfl, -⟩
      obtain rfl := hp.sound.distinct hy hat
      exact .inl (reached.heeds hat hr holds (hfresh.elim (fun h => h.2.1) fun h => absurd holds h.1))
    have hat' : g.EffectAt id label := hprep.effectAt.2 hat
    have hheeds := (hprep.pays hp.sound hstart hat' ⟨rfl, rfl, [], by simp, by simp⟩).resolve_right
      fun h => h.1 (hprep.holds.2 holds)
    obtain ⟨o₂, hgives₂, halike₂⟩ := right_of_unseen hsound hp.still hflush hqueues hdrained hat'
      hheeds hhost (hupdates hunseen)
    obtain rfl := hgives₁.functional hgives
    obtain rfl := hgives₂.functional hgives'
    exact hdiffer (halike.symm.trans halike₂)
  · subst hset
    obtain ⟨g', hflush', rfl | ⟨n, old, hn, hk, -, rfl⟩⟩ := hp.set_cases rest ran
    · obtain ⟨honward', -⟩ := flush_spec (attends_refreshWithin _ depth) hp.sound hp.still hflush'
      rw [honward'.sheet] at hgives'
      obtain rfl := hgives.functional hgives'
      exact absurd (.refl (hp.sound.coherent.proper_of_gives hgives)) hdiffer
    have hproper : value.Proper := by
      cases operation with
      | set _ proper => exact proper
    have hwritten := hp.sound.written hn hk hproper
    obtain ⟨-, -, recs', hhost', hrec', -⟩ :=
      flush_spec (e := { e with graph := e.graph.written x value n.subscribers })
        (attends_refreshWithin _ depth) hwritten hp.still hflush'
    obtain rfl : recs = recs' := List.append_cancel_left (hhost.symm.trans hhost')
    have hat' := hat.written hn hk value n.subscribers
    constructor
    · rintro ⟨s, hs, hlabel, -⟩
      obtain ⟨y, hy, hat₂⟩ := hrec'.queued s hs
      obtain rfl := hwritten.distinct hat₂ (hlabel ▸ hat')
      by_contra far
      simpa [hp.drained rest] using (written_spared hn value far).2 hy
    · intro carries
      by_contra hunseen
      obtain ⟨m, hm, heffect⟩ := hat.isEffect
      have holds := hholds hgives hgives' hdiffer
      have hsource := reached.upholds (upheld_recalls (fun _ h => h) _) hat hr holds hm
      have hheeds := heeds_written hp.sound.coherent hn hk hm heffect carries hsource holds value
      obtain ⟨o₂, hgives₂, halike⟩ := right_of_unseen hwritten hp.still hflush' hqueues hdrained hat'
        hheeds hhost (hupdates hunseen)
      obtain rfl := hgives₂.functional hgives'
      exact hshown halike

/-! ## An effect that is left behind -/

namespace Small

/-- The effect on the second signal. -/
def other : NodeId := ⟨3, 0⟩

/-- The effect on the computed. -/
def behind : NodeId := ⟨4, 0⟩

/-- The small engine in a batch, after a write to the second signal and then to the first. -/
def pressed : Engine Journal :=
  let g := (engine.graph.written second (.bool true) [other]).revalued first (.bool true)
  { engine with
    graph := ((g.setFreshness copy .dirty).setFreshness behind .stale).enqueue behind
    batchDepth := 1 }

/-- Only one of the two effects may run when the batch is closed. The other is clean then, and the
computed in front of it dirty. -/
def late : Engine Journal :=
  ((flush (refreshWithin 3) { pressed with batchDepth := 0 }).get (by decide +kernel)).2

theorem written_first :
    (engine.graph.written second (.bool true) [other]).written first (.bool true) [copy] =
      pressed.graph := by
  set g := (engine.graph.written second (.bool true) [other]).revalued first (.bool true) with hg
  have hcopy : g.node? copy = some ((g.node? copy).get (by decide +kernel)) := by simp
  have hbehind : (g.setFreshness copy .dirty).node? behind =
      some (((g.setFreshness copy .dirty).node? behind).get (by decide +kernel)) := by simp
  have hsubs : ((g.node? copy).get (by decide +kernel)).subscribers = [behind] := by decide +kernel
  have heffect : (((g.setFreshness copy .dirty).node? behind).get (by decide +kernel)).isEffect = true :=
    by decide +kernel
  change [copy].foldl markDirty g = _
  simp only [List.foldl_cons, List.foldl_nil]
  rw [markDirty, hcopy]
  simp only
  rw [if_neg (by decide +kernel), if_neg (by decide +kernel), hsubs,
    markStale_cons_clean hbehind (by decide +kernel), heffect]
  simp only [delay, if_true, List.append_nil, markStale]
  rfl

theorem reached_pressed : Reached (· = true) (fun _ => True) Small.settings pressed := by
  have h₀ := (@reached_engine (· = true) rfl fun _ => True).move (.openBatch _)
  have hsecond : engine.graph.node? second =
      some ⟨.signal (.bool false), .clean, [], [other], none⟩ := rfl
  have h₁ := h₀.move (.write (.bool true)
    (writeSignal_of_held (refreshWithin 0) (by exact Nat.one_pos) hsecond rfl) trivial)
  have hfirst : (engine.graph.written second (.bool true) [other]).node? first =
      some ⟨.signal (.bool false), .clean, [], [copy], none⟩ := rfl
  have h₂ := h₁.move (.write (.bool true)
    (writeSignal_of_held (refreshWithin 0) (by exact Nat.one_pos) hfirst rfl) trivial)
  simp only [written_first] at h₂
  exact h₂

theorem reached_late : Reached (· = true) (fun _ => True) Small.settings late := by
  have flushed : flush (refreshWithin 3) { pressed with batchDepth := 0 } =
    some ((flush (refreshWithin 3) { pressed with batchDepth := 0 }).get (by decide +kernel)) := by simp
  exact reached_pressed.move (.closeBatch Nat.one_pos flushed trivial)

/-- The end of another write to the first signal. -/
def after : Outcome × Engine Journal :=
  (run 5 (.set first .null) late).get (by decide +kernel)

theorem effectAt_late : late.graph.EffectAt behind 1 := ⟨_, _, _, rfl, rfl⟩

theorem not_carries_late : ¬late.graph.Carries first behind := by
  have hcopy : ∃ n, late.graph.node? copy = some n ∧ n.freshness = .dirty := ⟨_, rfl, rfl⟩
  obtain ⟨c, hc, hdirty⟩ := hcopy
  rintro ⟨n, hn, marked⟩
  have hsubs : n.subscribers = [copy] := by
    obtain rfl : _ = n := Option.some.inj hn
    rfl
  rw [hsubs] at marked
  generalize behind = x at marked
  induction marked with
  | target mem found higher =>
    obtain rfl := List.mem_singleton.1 mem
    obtain rfl := Option.some.inj (hc.symm.trans found)
    exact higher hdirty
  | onward _ _ _ _ _ ih => exact ih

end Small

/-- The write succeeds and changes what the effect saw, and the effect does not run. -/
theorem recovers_late : ∃ recs,
    run 5 (.set Small.first .null) Small.late = some (.ok .undefined, Small.after.2) ∧
    Recovered (.set Small.first .null) Small.late Small.after.2 recs ∧
    (∃ r ∈ Small.late.host.latest 1, ∃ o o', Small.late.graph.sheet.Gives r.cell o ∧
      Small.after.2.graph.sheet.Gives r.cell o' ∧ ¬o.Alike o') ∧
    ¬recs.Updates 1 Small.after.2.graph.sheet := by
  have ran : run 5 (.set Small.first .null) Small.late = some (.ok .undefined, Small.after.2) :=
    (show _ = some Small.after by simp [Small.after]).trans rfl
  obtain ⟨recs, hrec⟩ := Small.reached_late.recovers (by decide +kernel) (.set _ .null) ran
  have hmem : (⟨⟨.computed, Small.copy⟩, .ok (.bool false)⟩ : Reading) ∈ Small.late.host.latest 1 :=
    List.mem_singleton.2 rfl
  have hgives : Small.late.graph.sheet.Gives ⟨.computed, Small.copy⟩ (.ok (.bool true)) :=
    .computed (show _ = some (.get ⟨.signal, Small.first⟩) from rfl) (.signal rfl (.done _))
  have hgives' : Small.after.2.graph.sheet.Gives ⟨.computed, Small.copy⟩ (.ok .null) :=
    .computed (show _ = some (.get ⟨.signal, Small.first⟩) from rfl) (.signal rfl (.done _))
  have hdiffer : ¬Outcome.Alike (.ok (.bool true)) (.ok .null) := by
    rintro ⟨-, -, h⟩
    cases h
  have hcarried := hrec.carried rfl Small.effectAt_late _ hmem _ _ hgives hgives' hdiffer
    (show ¬Outcome.Alike (.ok (.bool false)) (.ok .null) by rintro ⟨-, -, h⟩; cases h)
  exact ⟨recs, ran, hrec, ⟨_, hmem, _, _, hgives, hgives', hdiffer⟩,
    fun h => Small.not_carries_late (hcarried.1 h)⟩

/-- After a flush gave up, a write succeeds that changes what an effect saw last, and no effect runs. -/
theorem left_behind :
    flush (refreshWithin 3) { Small.pressed with batchDepth := 0 } =
      some (.error (.reactive (.unsettled 1)), Small.late) ∧
    Reached (· = true) (fun _ => True) Small.settings Small.late ∧ Small.late.batchDepth = 0 ∧
    run 5 (.set Small.first .null) Small.late = some (.ok .undefined, Small.after.2) ∧
    Small.late.graph.EffectAt Small.behind 1 ∧
    (∃ r ∈ Small.late.host.latest 1, ∃ o o', Small.late.graph.sheet.Gives r.cell o ∧
      Small.after.2.graph.sheet.Gives r.cell o' ∧ ¬o.Alike o') ∧
    Small.after.2.host = Small.late.host := by
  refine ⟨(Option.some_get (by decide +kernel)).symm.trans rfl, Small.reached_late, rfl,
    (show _ = some Small.after by simp [Small.after]).trans rfl, Small.effectAt_late,
    ⟨⟨⟨.computed, Small.copy⟩, .ok (.bool false)⟩, List.mem_singleton.2 rfl, .ok (.bool true), .ok .null,
      .computed (show _ = some (.get ⟨.signal, Small.first⟩) from rfl) (.signal rfl (.done _)),
      .computed (show _ = some (.get ⟨.signal, Small.first⟩) from rfl) (.signal rfl (.done _)), ?_⟩, rfl⟩
  rintro ⟨-, -, h⟩
  cases h

end Engine

end LiveTemplate.Reactive
