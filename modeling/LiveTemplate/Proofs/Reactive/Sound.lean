import LiveTemplate.Proofs.Reactive.Effects
import LiveTemplate.Proofs.Reactive.Writing

/-!
# Sound graphs

Between the operations of a client the graph is sound: coherent and ranked, nothing runs, every
effect watches under a label of its own, and the queue holds live effects, each once. Whatever a
client does to the graph keeps it sound.

In a sound graph there are outcomes from scratch, and a fresh reading agrees with them.
-/
namespace LiveTemplate.Reactive

variable {σ : Type}

/-- What the reading returned agrees with the outcome of its cell from scratch. -/
def Reading.Right (s : Sheet σ) (r : Reading) : Prop :=
  ∃ o, s.Gives r.cell o ∧ r.outcome.Alike o

namespace Sheet

theorem Revalued.trans {s t u : Sheet σ} (h : s.Revalued t) (h' : t.Revalued u) : s.Revalued u :=
  ⟨h'.1.trans h.1, fun id => (h'.2.1 id).trans (h.2.1 id), h'.2.2⟩

/-- A ranking does not depend on what the signals hold. -/
theorem Ranked.revalued {s t : Sheet σ} (hs : s.Ranked) (h : s.Revalued t) : t.Ranked := by
  obtain ⟨rank, fits⟩ := hs
  exact ⟨rank, fun u hu => fits u (h.trans hu)⟩

theorem not_holds_gives {s : Sheet σ} {cell : Cell} (h : ¬s.Holds cell) :
    s.Gives cell (Outcome.gone cell.kind) := by
  obtain ⟨kind, id⟩ := cell
  cases kind with
  | signal => exact .goneSignal (Option.eq_none_iff_forall_ne_some.2 fun v hv => h ⟨v, hv⟩)
  | computed => exact .goneComputed (Option.eq_none_iff_forall_ne_some.2 fun v hv => h ⟨v, hv⟩)

theorem Gives.functional {s : Sheet σ} {cell : Cell} {o o' : Outcome} (h : s.Gives cell o)
    (h' : s.Gives cell o') : o = o' := by
  cases h with
  | signal found => cases h' with
    | signal found' => rw [Option.some.inj (found.symm.trans found')]
    | goneSignal gone => simp [found] at gone
  | computed found evaluates => cases h' with
    | computed found' evaluates' =>
      obtain rfl := Option.some.inj (found.symm.trans found')
      exact evaluates.functional evaluates'
    | goneComputed gone => simp [found] at gone
  | goneSignal gone => cases h' with
    | signal found => simp [found] at gone
    | goneSignal => rfl
  | goneComputed gone => cases h' with
    | computed found => simp [found] at gone
    | goneComputed => rfl

end Sheet

namespace Graph

/-- A live effect that watches under a label. -/
def EffectAt (g : Graph (Program Journal)) (id : NodeId) (label : Nat) : Prop :=
  ∃ n p running, g.node? id = some n ∧ n.kind = .effect (Program.watched label p []) running

theorem EffectAt.isEffect {g : Graph (Program Journal)} {id : NodeId} {label : Nat}
    (h : g.EffectAt id label) : ∃ n, g.node? id = some n ∧ n.isEffect = true := by
  obtain ⟨n, p, running, hn, hk⟩ := h
  exact ⟨n, hn, by simp [Node.isEffect, hk]⟩

structure Sound (mode : Bool → Prop) (g : Graph (Program Journal)) : Prop where
  coherent : g.Coherent
  ranked : g.sheet.Ranked
  idle : g.Idle fun _ => True
  watching : ∀ {x : NodeId} {n : Node (Program Journal)} {body : Program Journal} {running : Bool},
    g.node? x = some n → n.kind = .effect body running →
      ∃ label p, Program.Reads mode p ∧ body = p.watched label []
  distinct : ∀ {x y : NodeId} {label : Nat}, g.EffectAt x label → g.EffectAt y label → x = y
  nodup : g.pending.Nodup
  queued : ∀ x ∈ g.pending, ∃ n, g.node? x = some n ∧ n.isEffect = true

/-- A forecast of everything, which tells what reads give from scratch. -/
structure Foretold (g : Graph (Program σ)) (F : Forecast) : Prop where
  obeys : g.sheet.Obeys F
  covers : ∀ x, F.covers x
  gives : ∀ {cell : Cell}, g.sheet.Holds cell → g.sheet.Gives cell (F.outcome cell.node)

theorem Coherent.revalued_refl {g : Graph (Program σ)} (hg : g.Coherent) :
    g.sheet.Revalued g.sheet := by
  refine ⟨rfl, fun _ => rfl, fun id v hv => ?_⟩
  obtain ⟨n, hn, hk⟩ := value?_eq_some.1 hv
  have := hg.proper hn
  rwa [hk] at this

theorem Coherent.exists_foretold {g : Graph (Program σ)} (hg : g.Coherent)
    (ranked : g.sheet.Ranked) : ∃ F, g.Foretold F := by
  obtain ⟨rank, fits⟩ := ranked
  have hfits {id : NodeId} {body : Program σ} (found : g.sheet.body? id = some body) :
      g.sheet.Descends rank (rank id) body :=
    fits g.sheet hg.revalued_refl id body found
  have hcovers (x : NodeId) : g.sheet.forecast.covers x := fun body found =>
    ⟨rank x, Sheet.exists_ends (fun _ _ => hfits) found⟩
  exact ⟨_, Sheet.obeys_forecast fun _ _ => value?_of_body?, hcovers,
    fun holds => Sheet.gives_forecast (fun _ _ => value?_of_body?) holds fun _ => hcovers _⟩

theorem Foretold.congr {g h : Graph (Program σ)} {F : Forecast} (hF : g.Foretold F)
    (sheet : h.sheet = g.sheet) : h.Foretold F :=
  ⟨sheet ▸ hF.obeys, hF.covers, sheet ▸ hF.gives⟩

theorem Coherent.right {g : Graph (Program σ)} (hg : g.Coherent) {F : Forecast}
    (hF : g.Foretold F) {r : Reading} (fresh : g.Fresh r) : r.Right g.sheet := by
  rcases fresh with ⟨holds, settled, shown⟩ | ⟨gone, outcome⟩
  · refine ⟨_, hF.gives holds, ?_⟩
    rw [shown]
    exact hg.alike_of_settled hF.obeys holds (fun _ => hF.covers _) settled
  · rw [Reading.Right, outcome]
    refine ⟨_, Sheet.not_holds_gives gone, .refl ?_⟩
    cases r.cell.kind <;> trivial

theorem CoherentOn.proper_of_value? {g : Graph (Program σ)} {P : NodeId → Prop} (hg : g.CoherentOn P)
    {id : NodeId} {v : Value} (found : g.sheet.value? id = some v) : Outcome.Proper (.ok v) := by
  obtain ⟨n, hn, hk⟩ := value?_eq_some.1 found
  simpa [hk, NodeKind.shown] using hg.proper hn

theorem CoherentOn.proper_of_evaluates {g : Graph (Program σ)} {P : NodeId → Prop}
    (hg : g.CoherentOn P) {p : Program σ} {o : Outcome} (evaluates : g.sheet.Evaluates p o)
    (lawful : p.Lawful) : o.Proper := by
  induction evaluates with
  | done => cases lawful with
    | done h => exact h.left
  | signal found _ ih => cases lawful with
    | read _ h => exact ih (h _ _ (.refl (hg.proper_of_value? found)))
  | computed found _ _ ihInner ih => cases lawful with
    | read _ h => exact ih (h _ _ (.refl (ihInner (hg.lawful found))))
  | goneSignal _ _ ih => cases lawful with
    | read _ h => exact ih (h _ _ (.refl trivial))
  | goneComputed _ _ ih => cases lawful with
    | read _ h => exact ih (h _ _ (.refl trivial))

theorem Coherent.proper_of_value? {g : Graph (Program σ)} (hg : g.Coherent) {id : NodeId} {v : Value}
    (found : g.sheet.value? id = some v) : Outcome.Proper (.ok v) :=
  (hg.on fun _ => True).proper_of_value? found

theorem Coherent.proper_of_evaluates {g : Graph (Program σ)} (hg : g.Coherent) {p : Program σ}
    {o : Outcome} (evaluates : g.sheet.Evaluates p o) (lawful : p.Lawful) : o.Proper :=
  (hg.on fun _ => True).proper_of_evaluates evaluates lawful

theorem Coherent.proper_of_gives {g : Graph (Program σ)} (hg : g.Coherent) {cell : Cell}
    {o : Outcome} (gives : g.sheet.Gives cell o) : o.Proper := by
  cases gives with
  | signal found => exact hg.proper_of_value? found
  | computed found evaluates => exact hg.proper_of_evaluates evaluates (hg.lawful found)
  | goneSignal => trivial
  | goneComputed => trivial

variable {mode : Bool → Prop} {g h : Graph (Program Journal)}

theorem Sound.right (hs : g.Sound mode) {r : Reading} (fresh : g.Fresh r) : r.Right g.sheet := by
  obtain ⟨F, hF⟩ := hs.coherent.exists_foretold hs.ranked
  exact hs.coherent.right hF fresh

/-! ## Bringing nodes up to date -/

theorem effectAt_of_skeleton
    (same : ∀ x, (h.node? x).map (·.kind.skeleton) = (g.node? x).map (·.kind.skeleton))
    {x : NodeId} {label : Nat} : h.EffectAt x label ↔ g.EffectAt x label := by
  have through {g h : Graph (Program Journal)}
      (same : (h.node? x).map (·.kind.skeleton) = (g.node? x).map (·.kind.skeleton))
      (he : h.EffectAt x label) : g.EffectAt x label := by
    obtain ⟨n, p, running, hn, hk⟩ := he
    rw [hn, Option.map_some, hk] at same
    obtain ⟨m, hm, hm'⟩ := Option.map_eq_some_iff.1 same.symm
    refine ⟨m, p, running, hm, ?_⟩
    cases hmk : m.kind <;> simp_all [NodeKind.skeleton]
  exact ⟨through (same x), through (same x).symm⟩

theorem Sound.refreshed {P : NodeId → Prop} (hs : g.Sound mode) (hr : g.Refreshed P h)
    (coherent : h.Coherent) : h.Sound mode := by
  have hskeleton := skeleton_of_refreshed hr
  constructor
  · exact coherent
  · exact hr.sheet ▸ hs.ranked
  · exact hr.idle hs.idle
  · intro x m body running hm hk
    obtain ⟨n, hn, -⟩ := hr.origin hm
    have hx := hskeleton x
    simp only [hm, hn, Option.map_some, Option.some.injEq, hk] at hx
    have hkind : n.kind = .effect body running := by
      cases hnk : n.kind <;> simp_all [NodeKind.skeleton]
    exact hs.watching hn hkind
  · intro x y label hx hy
    exact hs.distinct ((effectAt_of_skeleton hskeleton).1 hx) ((effectAt_of_skeleton hskeleton).1 hy)
  · exact hr.pending ▸ hs.nodup
  · intro x hx
    obtain ⟨n, hn, heffect⟩ := hs.queued x (hr.pending ▸ hx)
    obtain ⟨m, hm, -⟩ := hr.find hn
    exact ⟨m, hm, (hr.isEffect hn hm).trans heffect⟩

/-- Graphs that find the same nodes and have the same queue. -/
theorem Sound.congr (hs : g.Sound mode) (same : ∀ x, h.node? x = g.node? x)
    (pending : h.pending = g.pending) : h.Sound mode := by
  refine hs.refreshed (P := fun _ => False) ⟨pending, fun x => by rw [same], fun hn hm => ?_,
    fun hn hm hstale _ s _ => ?_, fun hn hm hstale hdirty => ?_⟩ (hs.coherent.congr same)
  · rw [same] at hm
    obtain rfl := Option.some.inj (hn.symm.trans hm)
    exact .inl (.refl _)
  · rw [show h.shown s = g.shown s by simp only [shown, same]]
    exact .refl (hs.coherent.shown_proper s)
  · rw [same] at hm
    obtain rfl := Option.some.inj (hn.symm.trans hm)
    simp [hstale] at hdirty

theorem Sound.dequeued (hs : g.Sound mode) {pending : List NodeId}
    (sub : pending.Sublist g.pending) : ({ g with pending := pending }).Sound mode :=
  ⟨hs.coherent.congr fun _ => rfl, hs.ranked, hs.idle, hs.watching, hs.distinct,
    hs.nodup.sublist sub, fun x hx => hs.queued x (sub.subset hx)⟩

/-! ## Writing -/

theorem revalued_written {g : Graph (Program σ)} (hg : g.Coherent) {id : NodeId}
    {n : Node (Program σ)} {old value : Value} (found : g.node? id = some n) (kind : n.kind = .signal old)
    (proper : value.Proper) : g.sheet.Revalued (g.written id value n.subscribers).sheet := by
  refine ⟨body?_written found kind _, fun x => ?_, fun x v hv => ?_⟩
  · rw [value?_written found]
    split
    next hx =>
      subst hx
      simp [value?_eq_some.2 ⟨n, found, kind⟩]
    next => rfl
  · rw [value?_written found] at hv
    split at hv
    · obtain rfl := Option.some.inj hv
      exact proper
    · exact hg.revalued_refl.2.2 x v hv

theorem Sound.written (hs : g.Sound mode) {id : NodeId} {n : Node (Program Journal)}
    {old value : Value} (found : g.node? id = some n) (kind : n.kind = .signal old)
    (proper : value.Proper) : (g.written id value n.subscribers).Sound mode := by
  have hd := delayed_written g id value n.subscribers
  have hat {x : NodeId} {label : Nat} (h : (g.written id value n.subscribers).EffectAt x label) :
      g.EffectAt x label := by
    obtain ⟨m, p, running, hm, hk⟩ := h
    obtain ⟨m₀, hm₀, hd₀⟩ := written_of_unset found hm fun v => by simp [hk]
    exact ⟨m₀, p, running, hm₀, hd₀.kind.symm.trans hk⟩
  constructor
  · exact hs.coherent.written found kind proper hs.idle
  · exact hs.ranked.revalued (revalued_written hs.coherent found kind proper)
  · exact idle_written found value n.subscribers hs.idle
  · intro x m body running hm hk
    obtain ⟨m₀, hm₀, hd₀⟩ := written_of_unset found hm fun v => by simp [hk]
    exact hs.watching hm₀ (hd₀.kind.symm.trans hk)
  · exact fun hx hy => hs.distinct (hat hx) (hat hy)
  · exact hd.nodup hs.nodup
  · exact queued_written found kind n.subscribers hs.queued

end Graph

end LiveTemplate.Reactive
