import Mathlib.Logic.Relation
import LiveTemplate.Proofs.Reactive.Refresh
import LiveTemplate.Proofs.Reactive.Sound

/-!
# Evaluations that come back

If the evaluation of a computed from scratch comes to a read of another one, the first calls the
second (`Sheet.Calls`). A computed that calls itself, directly or through others, has no outcome from
scratch. What is read on the way to such a call has one, as long as bodies pass faults on, so the
forecast covers it (`Sheet.Leads`).
-/
namespace LiveTemplate.Reactive

variable {σ : Type}

/-- A body that passes on the faults that it reads. -/
inductive Program.Passes : Program σ → Prop where
  | done (o : Outcome) : Passes (.done o)
  | read (cell : Cell) (tracked : Bool) {next : Outcome → Program σ}
      (fault : ∀ f, next (.error f) = .done (.error f)) (rest : ∀ v, Passes (next (.ok v))) :
      Passes (.read cell tracked next)

namespace Sheet

/-- The evaluation of a program from scratch comes to a read of a live computed. -/
inductive Asks (s : Sheet σ) : Program σ → NodeId → Prop where
  | here {id : NodeId} {body : Program σ} {tracked : Bool} {next : Outcome → Program σ}
      (found : s.body? id = some body) : Asks s (.read ⟨.computed, id⟩ tracked next) id
  | signal {id y : NodeId} {v : Value} {tracked : Bool} {next : Outcome → Program σ}
      (found : s.value? id = some v) (rest : Asks s (next (.ok v)) y) :
      Asks s (.read ⟨.signal, id⟩ tracked next) y
  | computed {id y : NodeId} {body : Program σ} {r : Outcome} {tracked : Bool}
      {next : Outcome → Program σ} (found : s.body? id = some body) (inner : s.Evaluates body r)
      (rest : Asks s (next r) y) : Asks s (.read ⟨.computed, id⟩ tracked next) y
  | goneSignal {id y : NodeId} {tracked : Bool} {next : Outcome → Program σ}
      (gone : s.value? id = none) (rest : Asks s (next (.error (.reactive (.disposed .signal)))) y) :
      Asks s (.read ⟨.signal, id⟩ tracked next) y
  | goneComputed {id y : NodeId} {tracked : Bool} {next : Outcome → Program σ}
      (gone : s.body? id = none)
      (rest : Asks s (next (.error (.reactive (.disposed .computed)))) y) :
      Asks s (.read ⟨.computed, id⟩ tracked next) y

def Calls (s : Sheet σ) (x y : NodeId) : Prop := ∃ body, s.body? x = some body ∧ s.Asks body y

/-- The evaluation of a computed comes back to it. -/
def Reenters (s : Sheet σ) (c : NodeId) : Prop := Relation.TransGen s.Calls c c

/-- A computed that the evaluation of another one comes to before it comes back. -/
structure Circles (s : Sheet σ) (c x : NodeId) : Prop where
  out : Relation.ReflTransGen s.Calls c x
  back : Relation.ReflTransGen s.Calls x c

/-! ## What has an outcome -/

theorem Asks.ends {s : Sheet σ} {p : Program σ} {y : NodeId} (h : s.Asks p y) {k : Nat} {o : Outcome}
    (ends : s.Ends k p o) : ∃ k' < k, ∃ body r, s.body? y = some body ∧ s.Ends k' body r := by
  induction h with
  | here found => cases ends with
    | computed found' inner _ => exact ⟨_, Nat.lt_succ_self _, _, _, found', inner⟩
  | signal found _ ih => cases ends with
    | signal found' rest =>
      obtain rfl := Option.some.inj (found.symm.trans found')
      exact ih rest
  | computed found inner _ ih => cases ends with
    | computed found' inner' rest =>
      obtain rfl := Option.some.inj (found.symm.trans found')
      obtain rfl := inner.functional inner'.evaluates
      exact ih rest
  | goneSignal gone _ _ => cases ends with
    | signal found _ => simp [gone] at found
  | goneComputed gone _ _ => cases ends with
    | computed found _ _ => simp [gone] at found

theorem ends_of_calls {s : Sheet σ} {x y : NodeId} (h : Relation.TransGen s.Calls x y) {k : Nat}
    {body : Program σ} {o : Outcome} (found : s.body? x = some body) (ends : s.Ends k body o) :
    ∃ k' < k, ∃ body' r, s.body? y = some body' ∧ s.Ends k' body' r := by
  induction h with
  | single calls =>
    obtain ⟨body', found', asks⟩ := calls
    obtain rfl := Option.some.inj (found.symm.trans found')
    exact asks.ends ends
  | tail _ calls ih =>
    obtain ⟨k', hk', body', r, found', ends'⟩ := ih
    obtain ⟨body'', found'', asks⟩ := calls
    obtain rfl := Option.some.inj (found'.symm.trans found'')
    obtain ⟨l, hl, h⟩ := asks.ends ends'
    exact ⟨l, by omega, h⟩

/-- What comes back to itself has no outcome. -/
theorem Reenters.endless {s : Sheet σ} {c : NodeId} (h : s.Reenters c) {body : Program σ}
    (found : s.body? c = some body) {k : Nat} {o : Outcome} : ¬s.Ends k body o := by
  induction k using Nat.strongRecOn generalizing o with
  | ind k ih =>
    intro ends
    obtain ⟨k', hk', body', r, found', ends'⟩ := ends_of_calls h found ends
    obtain rfl := Option.some.inj (found.symm.trans found')
    exact ih k' hk' ends'

theorem Circles.reenters {s : Sheet σ} {c x : NodeId} (h : s.Circles c x) (reenters : s.Reenters c) :
    s.Reenters x :=
  Relation.TransGen.trans_right h.back (reenters.trans_left h.out)

theorem Circles.isComputed {s : Sheet σ} {c x : NodeId} (h : s.Circles c x) (reenters : s.Reenters c) :
    ∃ body, s.body? x = some body := by
  obtain ⟨y, ⟨body, found, -⟩, -⟩ := Relation.TransGen.head'_iff.1 (h.reenters reenters)
  exact ⟨body, found⟩

theorem Circles.not_covers {s : Sheet σ} {c x : NodeId} (h : s.Circles c x)
    (reenters : s.Reenters c) {body : Program σ} (found : s.body? x = some body) :
    ¬s.forecast.covers x := by
  intro covered
  obtain ⟨k, o, ends⟩ := covered body found
  exact (h.reenters reenters).endless found ends

/-! ## The way to a call -/

/-- A program that reads cells that are ready, and then the computed, when its reads are answered as
forecast. -/
inductive Leads (s : Sheet σ) (F : Forecast) (bound : Nat) : Program σ → NodeId → Prop where
  | here {id : NodeId} {next : Outcome → Program σ} :
      Leads s F bound (.read ⟨.computed, id⟩ true next) id
  | read {cell : Cell} {y : NodeId} {next : Outcome → Program σ} (ready : Engine.Ready F bound s cell)
      (rest : Leads s F bound (next (F.outcome cell.node)) y) :
      Leads s F bound (.read cell true next) y

theorem Leads.mono {s : Sheet σ} {F : Forecast} {bound bound' : Nat} {p : Program σ} {y : NodeId}
    (h : s.Leads F bound p y) (higher : bound ≤ bound') : s.Leads F bound' p y := by
  induction h with
  | here => exact .here
  | read ready _ ih =>
    have ready' : Engine.Ready F _ s _ :=
      ⟨ready.holds, fun hk => ⟨(ready.lower hk).1, Nat.lt_of_lt_of_le (ready.lower hk).2 higher⟩⟩
    exact .read ready' ih

/-- The first node that a program records and that does not show what is forecast is the computed it
leads to, or is ready. -/
theorem Leads.split {s : Sheet σ} {F : Forecast} {bound : Nat} {p : Program σ} {y : NodeId}
    (h : s.Leads F bound p y) (far : ∀ cell : Cell, cell.node = y → ¬Engine.Ready F bound s cell)
    {q : Program σ} (alike : q.Alike p) (φ : NodeId → Outcome) {seen : List NodeId}
    (agree : ∀ t ∈ seen, ∃ cell : Cell, cell.node = t ∧ Engine.Ready F bound s cell ∧
      (φ t).Alike (F.outcome t)) :
    ∃ before t after, record seen (q.cells φ) = before ++ t :: after ∧
      (∀ u ∈ before, ∃ cell : Cell, cell.node = u ∧ Engine.Ready F bound s cell ∧
        (φ u).Alike (F.outcome u)) ∧
      (t = y ∨ ∃ cell : Cell, cell.node = t ∧ Engine.Ready F bound s cell ∧
        ¬(φ t).Alike (F.outcome t)) := by
  induction h generalizing q seen with
  | here => cases alike with
    | read _ _ =>
      obtain ⟨after, hafter⟩ := record_new (fun hseen => by
        obtain ⟨cell, hcell, hready, -⟩ := agree _ hseen
        exact far cell hcell hready) _
      exact ⟨seen, _, after, hafter, agree, .inl rfl⟩
  | @read cell y next ready _ ih => cases alike with
    | read _ halike =>
      by_cases hcell : (φ cell.node).Alike (F.outcome cell.node)
      · refine ih far (halike _ _ hcell) fun t ht => ?_
        rcases mem_enlist.1 ht with rfl | ht
        · exact ⟨cell, rfl, ready, hcell⟩
        · exact agree t ht
      · obtain ⟨after, hafter⟩ := record_new (fun hseen => by
          obtain ⟨_, _, _, h⟩ := agree _ hseen
          exact hcell h) _
        exact ⟨seen, _, after, hafter, agree, .inr ⟨cell, rfl, ready, hcell⟩⟩

end Sheet

namespace Graph

variable {g : Graph (Program σ)}

/-- An evaluation that gives a value has not read anything that is gone, for the fault would have been
passed on. -/
theorem Coherent.ends_of_evaluates (hg : g.Coherent)
    (passes : ∀ {id body}, g.sheet.body? id = some body → body.Passes) {p : Program σ} {o : Outcome}
    (h : g.sheet.Evaluates p o) (lawful : p.Lawful) (hp : p.Passes) {v : Value} (fine : o = .ok v) :
    ∃ k, g.sheet.Ends k p o := by
  induction h generalizing v with
  | done => exact ⟨0, .done _⟩
  | signal found _ ih => cases lawful with
    | read _ hlawful => cases hp with
      | read _ _ _ rest =>
        obtain ⟨k, hk⟩ := ih (hlawful _ _ (.refl (hg.proper_of_value? found))) (rest _) fine
        exact ⟨k, .signal found hk⟩
  | @computed id body r _ _ _ found inner rest ihInner ih => cases lawful with
    | read _ hlawful => cases hp with
      | read _ _ fault hrest =>
        have hproper := hg.proper_of_evaluates inner (hg.lawful found)
        cases r with
        | error f =>
          rw [fault] at rest
          cases rest
          cases fine
        | ok w =>
          obtain ⟨k, hk⟩ := ihInner (hg.lawful found) (passes found) rfl
          obtain ⟨l, hl⟩ := ih (hlawful _ _ (.refl hproper)) (hrest _) fine
          exact ⟨max k l + 1, .computed found (hk.mono (by omega)) (hl.mono (by omega))⟩
  | goneSignal _ rest _ => cases hp with
    | read _ _ fault _ =>
      rw [fault] at rest
      cases rest
      cases fine
  | goneComputed _ rest _ => cases hp with
    | read _ _ fault _ =>
      rw [fault] at rest
      cases rest
      cases fine

/-- So all that is read on the way to a call is ready. -/
theorem Coherent.leads (hg : g.Coherent)
    (passes : ∀ {id body}, g.sheet.body? id = some body → body.Passes) {p : Program σ} {y : NodeId}
    (h : g.sheet.Asks p y) (lawful : p.Lawful) (hp : p.Passes) :
    ∃ bound, g.sheet.Leads g.sheet.forecast bound p y := by
  induction h with
  | here found => cases lawful with
    | read => exact ⟨0, .here⟩
  | signal found _ ih => cases lawful with
    | read _ hlawful => cases hp with
      | read _ _ _ rest =>
        obtain ⟨bound, hlead⟩ := ih (hlawful _ _ (.refl (hg.proper_of_value? found))) (rest _)
        refine ⟨bound, .read ⟨⟨_, found⟩, nofun⟩ ?_⟩
        simpa only [Sheet.forecast, Sheet.outcome_signal found] using hlead
  | @computed id y body r _ _ found inner rest ih => cases lawful with
    | read _ hlawful => cases hp with
      | read _ _ fault hrest =>
        have hproper := hg.proper_of_evaluates inner (hg.lawful found)
        cases r with
        | error f =>
          rw [fault] at rest
          cases rest
        | ok v =>
          obtain ⟨k, hk⟩ := hg.ends_of_evaluates passes inner (hg.lawful found) (passes found) rfl
          obtain ⟨bound, hlead⟩ := ih (hlawful _ _ (.refl hproper)) (hrest _)
          have hrank := (Sheet.forecast_rank found hk).1
          refine ⟨max bound (k + 1), .read ⟨⟨_, found⟩, fun _ => ⟨fun b hb => ?_, ?_⟩⟩ ?_⟩
          · obtain rfl := Option.some.inj (found.symm.trans hb)
            exact ⟨k, _, hk⟩
          · change g.sheet.forecast.rank id < _
            omega
          · have houtcome : g.sheet.forecast.outcome id = .ok v :=
              Sheet.outcome_computed (value?_of_body? found) found inner
            simpa only [houtcome] using hlead.mono (le_max_left bound (k + 1))
  | goneSignal _ rest _ => cases hp with
    | read _ _ fault _ =>
      rw [fault] at rest
      cases rest
  | goneComputed _ rest _ => cases hp with
    | read _ _ fault _ =>
      rw [fault] at rest
      cases rest

end Graph

end LiveTemplate.Reactive
