import LiveTemplate.Proofs.Reactive.Reached

/-!
# Operations

An operation is a program that a client runs: it reads and writes cells and holds effects back for a
while. Whatever a run of an operation comes to can be reached by single moves, so that what holds of
reached engines holds in the middle of an operation as well.

The first consequence is that a read returns what evaluation from scratch gives
(`Engine.Reached.reads_from_scratch`), wherever it is made.
-/
namespace LiveTemplate.Reactive

variable {σ : Type}

namespace Program

/-- Programs that read, write proper values and open batches. -/
inductive Operates : Program σ → Prop where
  | done {o : Outcome} (proper : o.Proper) : Operates (.done o)
  | read (cell : Cell) (tracked : Bool) {next : Outcome → Program σ}
      (rest : ∀ r, r.Proper → Operates (next r)) : Operates (.read cell tracked next)
  | write (id : NodeId) {value : Value} {next : Except Fault Unit → Program σ}
      (proper : value.Proper) (rest : ∀ r, Operates (next r)) : Operates (.write id value next)
  | batch {body : Program σ} {next : Outcome → Program σ} (inner : Operates body)
      (rest : ∀ r, r.Proper → Operates (next r)) : Operates (.batch body next)

/-- A run of the first program from the first engine comes to the second program at the second
engine: this is what is still to be done of it, or of the batch it is in. -/
inductive Comes (depth : Nat) (refresh : NodeId → Engine σ → Option (Engine σ)) :
    Program σ → Engine σ → Program σ → Engine σ → Prop where
  | here (p : Program σ) (e : Engine σ) : Comes depth refresh p e p e
  | read {cell : Cell} {tracked : Bool} {next : Outcome → Program σ} {r : Outcome}
      {e e₁ e₂ : Engine σ} {q : Program σ} (read : e.readCell refresh cell tracked = some (r, e₁))
      (rest : Comes depth refresh (next r) e₁ q e₂) :
      Comes depth refresh (.read cell tracked next) e q e₂
  | write {id : NodeId} {value : Value} {next : Except Fault Unit → Program σ}
      {r : Except Fault Unit} {e e₁ e₂ : Engine σ} {q : Program σ}
      (written : e.writeSignal refresh id value = some (r, e₁))
      (rest : Comes depth refresh (next r) e₁ q e₂) :
      Comes depth refresh (.write id value next) e q e₂
  | inner {body : Program σ} {next : Outcome → Program σ} {e e₁ : Engine σ} {q : Program σ}
      (rest : Comes depth refresh body { e with batchDepth := e.batchDepth + 1 } q e₁) :
      Comes depth refresh (.batch body next) e q e₁
  | batch {body : Program σ} {next : Outcome → Program σ} {r : Outcome} {f : Except Fault Unit}
      {e e₁ e₂ e₃ : Engine σ} {q : Program σ}
      (ran : body.exec depth refresh { e with batchDepth := e.batchDepth + 1 } = some (r, e₁))
      (flushed : Engine.flush refresh { e₁ with batchDepth := e₁.batchDepth - 1 } = some (f, e₂))
      (rest : Comes depth refresh (next (f.bind fun () => r)) e₂ q e₃) :
      Comes depth refresh (.batch body next) e q e₃

theorem Operates.set (id : NodeId) {value : Value} (proper : value.Proper) :
    Operates (set id value : Program σ) :=
  .write id proper fun
    | .ok () => .done .undefined
    | .error _ => .done trivial

theorem Operates.update (id : NodeId) {change : Value → Value}
    (proper : ∀ v, v.Proper → (change v).Proper) : Operates (update id change : Program σ) :=
  .read _ _ fun
    | .ok _, h => .set id (proper _ h)
    | .error _, _ => .done trivial

end Program

namespace Engine

open Reactive.Graph

theorem flush_calm {refresh : NodeId → Engine σ → Option (Engine σ)} {e e' : Engine σ}
    {r : Except Fault Unit} (held : 0 < e.batchDepth) (flushed : flush refresh e = some (r, e')) :
    Calm r := by
  simp only [flush, held, decide_true, Bool.true_or, if_true, Option.some.injEq,
    Prod.mk.injEq] at flushed
  obtain ⟨rfl, -⟩ := flushed
  exact calm_ok

section Runs

variable {mode : Bool → Prop} {allowed : Except Fault Unit → Prop} {settings : Settings}
  {depth d : Nat} {e e' : Engine Journal}

theorem writeSignal_calm {id : NodeId} {value : Value} {r : Except Fault Unit}
    (held : 0 < e.batchDepth) (written : writeSignal (refreshWithin d) id value e = some (r, e')) :
    Calm r := by
  rcases writeSignal_cases written with ⟨rfl, -⟩ | ⟨rfl, -⟩ | ⟨n, old, -, -, -, hflush⟩
  · exact nofun
  · exact nofun
  · exact flush_calm (by exact held) hflush

theorem fresh_proper {g : Graph (Program σ)} (hg : g.Coherent) {r : Reading} (fresh : g.Fresh r) :
    r.outcome.Proper := by
  rcases fresh with ⟨-, -, shown⟩ | ⟨-, outcome⟩
  · exact shown ▸ hg.shown_proper _
  · rw [outcome]
    cases r.cell.kind <;> trivial

/-- An engine at which flushes end as allowed: outside of batches they may have to end in any way,
inside they are calm. -/
def Free (allowed : Except Fault Unit → Prop) (e : Engine Journal) : Prop :=
  ∀ r, (0 < e.batchDepth → Calm r) → allowed r

theorem Free.of_depth (free : Free allowed e) (depth : e'.batchDepth = e.batchDepth) :
    Free allowed e' := by
  rw [Free, depth]
  exact free

/-! ## One step of an operation -/

theorem Reached.of_read (reached : Reached mode allowed settings e) {cell : Cell} {tracked : Bool}
    {o : Outcome} (hread : e.readCell (refreshWithin d) cell tracked = some (o, e')) :
    Reached mode allowed settings e' ∧ e'.batchDepth = e.batchDepth ∧ o.Proper := by
  obtain ⟨g, rfl, -, hg, hfresh⟩ := reached.poised.read hread
  exact ⟨reached.move (.read hread), rfl, fresh_proper hg hfresh⟩

theorem batchDepth_flush {f : Except Fault Unit} (hs : e.graph.Sound mode)
    (still : e.flushing = false) (flushed : flush (refreshWithin d) e = some (f, e')) :
    e'.batchDepth = e.batchDepth := by
  obtain ⟨honward, -⟩ := flush_spec (attends_refreshWithin mode d) hs still flushed
  rw [honward.frame]

theorem Poised.batchDepth_write (hp : Poised mode e) {id : NodeId} {value : Value}
    (proper : value.Proper) {r : Except Fault Unit}
    (written : writeSignal (refreshWithin d) id value e = some (r, e')) :
    e'.batchDepth = e.batchDepth := by
  rcases writeSignal_cases written with ⟨-, rfl⟩ | ⟨-, rfl⟩ | ⟨n, old, hn, hk, -, hflush⟩
  · rfl
  · rfl
  · exact batchDepth_flush (e := { e with graph := e.graph.written id value n.subscribers })
      (hp.sound.written hn hk proper) hp.still hflush

theorem Reached.of_write (reached : Reached mode allowed settings e) (free : Free allowed e)
    {id : NodeId} {value : Value} (proper : value.Proper) {r : Except Fault Unit}
    (written : writeSignal (refreshWithin d) id value e = some (r, e')) :
    Reached mode allowed settings e' ∧ e'.batchDepth = e.batchDepth :=
  ⟨reached.move (.write proper written (free r fun held => writeSignal_calm held written)),
    reached.poised.batchDepth_write proper written⟩

theorem Reached.of_open (reached : Reached mode allowed settings e) (free : Free allowed e) :
    Reached mode allowed settings { e with batchDepth := e.batchDepth + 1 } ∧
      Free allowed { e with batchDepth := e.batchDepth + 1 } :=
  ⟨reached.move (.openBatch e), fun r calm => free r fun _ => calm (Nat.succ_pos _)⟩

theorem Reached.of_close {e₁ : Engine Journal} (reached : Reached mode allowed settings e₁)
    (free : Free allowed e) (opened : e₁.batchDepth = e.batchDepth + 1) {f : Except Fault Unit}
    (flushed : flush (refreshWithin d) { e₁ with batchDepth := e₁.batchDepth - 1 } = some (f, e')) :
    Reached mode allowed settings e' ∧ e'.batchDepth = e.batchDepth := by
  have hdepth : e₁.batchDepth - 1 = e.batchDepth := by omega
  have hf : allowed f := free f fun held => flush_calm (by simpa only [hdepth]) flushed
  have hp := reached.poised
  refine ⟨reached.move (.closeBatch (by omega) flushed hf), ?_⟩
  exact (batchDepth_flush (e := { e₁ with batchDepth := e₁.batchDepth - 1 }) hp.sound hp.still
    flushed).trans hdepth

/-- How a batch ends. -/
theorem proper_bind {f : Except Fault Unit} {r : Outcome} (proper : r.Proper) :
    Outcome.Proper (f.bind fun () => r) := by
  cases f with
  | error => trivial
  | ok => exact proper

/-! ## Whole operations -/

theorem Reached.exec {p : Program Journal} (operates : p.Operates)
    (reached : Reached mode allowed settings e) (free : Free allowed e) {o : Outcome}
    (ran : p.exec depth (refreshWithin d) e = some (o, e')) :
    Reached mode allowed settings e' ∧ e'.batchDepth = e.batchDepth ∧ o.Proper := by
  induction operates generalizing e e' o with
  | done proper =>
    simp only [Program.exec, Option.some.injEq, Prod.mk.injEq] at ran
    obtain ⟨rfl, rfl⟩ := ran
    exact ⟨reached, rfl, proper⟩
  | read cell tracked rest ih =>
    simp only [Program.exec, Option.bind_eq_some_iff] at ran
    obtain ⟨⟨r, e₁⟩, hread, ran⟩ := ran
    obtain ⟨reached₁, hdepth, hproper⟩ := reached.of_read hread
    obtain ⟨reached₂, hdepth', ho⟩ := ih r hproper reached₁ (free.of_depth hdepth) ran
    exact ⟨reached₂, hdepth'.trans hdepth, ho⟩
  | write id proper rest ih =>
    simp only [Program.exec, Option.bind_eq_some_iff] at ran
    obtain ⟨⟨r, e₁⟩, hwrite, ran⟩ := ran
    obtain ⟨reached₁, hdepth⟩ := reached.of_write free proper hwrite
    obtain ⟨reached₂, hdepth', ho⟩ := ih r reached₁ (free.of_depth hdepth) ran
    exact ⟨reached₂, hdepth'.trans hdepth, ho⟩
  | batch inner rest ihInner ih =>
    simp only [Program.exec, Option.bind_eq_some_iff] at ran
    obtain ⟨⟨r, e₁⟩, hbody, ⟨f, e₂⟩, hflush, ran⟩ := ran
    obtain ⟨reached₀, free₀⟩ := reached.of_open free
    obtain ⟨reached₁, hdepth, hproper⟩ := ihInner reached₀ free₀ hbody
    obtain ⟨reached₂, hdepth'⟩ := reached₁.of_close free hdepth hflush
    obtain ⟨reached₃, hdepth'', ho⟩ := ih _ (proper_bind hproper) reached₂ (free.of_depth hdepth') ran
    exact ⟨reached₃, hdepth''.trans hdepth', ho⟩

/-- All that an operation comes to is reached. -/
theorem Reached.comes {p q : Program Journal} (operates : p.Operates)
    (reached : Reached mode allowed settings e) (free : Free allowed e)
    (comes : p.Comes depth (refreshWithin d) e q e') :
    q.Operates ∧ Reached mode allowed settings e' ∧ Free allowed e' := by
  induction comes with
  | here => exact ⟨operates, reached, free⟩
  | read hread _ ih => cases operates with
    | read cell tracked rest =>
      obtain ⟨reached₁, hdepth, hproper⟩ := reached.of_read hread
      exact ih (rest _ hproper) reached₁ (free.of_depth hdepth)
  | write hwrite _ ih => cases operates with
    | write id proper rest =>
      obtain ⟨reached₁, hdepth⟩ := reached.of_write free proper hwrite
      exact ih (rest _) reached₁ (free.of_depth hdepth)
  | inner _ ih => cases operates with
    | batch inner rest =>
      obtain ⟨reached₀, free₀⟩ := reached.of_open free
      exact ih inner reached₀ free₀
  | batch hbody hflush _ ih => cases operates with
    | batch inner rest =>
      obtain ⟨reached₀, free₀⟩ := reached.of_open free
      obtain ⟨reached₁, hdepth, hproper⟩ := reached₀.exec inner free₀ hbody
      obtain ⟨reached₂, hdepth'⟩ := reached₁.of_close free hdepth hflush
      exact ih (rest _ (proper_bind hproper)) reached₂ (free.of_depth hdepth')

/-! ## Reads -/

end Runs

/-- A read of a live computed returns, if the depth is enough, and what it returns agrees with what
the body of the computed evaluates to on the signals as they stand. -/
def AnswersFromScratch (e : Engine Journal) : Prop :=
  ∀ {id : NodeId} {body : Program Journal}, e.graph.sheet.body? id = some body →
    ∃ o, e.graph.sheet.Evaluates body o ∧ ∀ tracked,
      (∃ enough, ∀ depth, enough ≤ depth →
        (e.readCell (refreshWithin depth) ⟨.computed, id⟩ tracked).isSome) ∧
      ∀ {depth : Nat} {r : Outcome} {e' : Engine Journal},
        e.readCell (refreshWithin depth) ⟨.computed, id⟩ tracked = some (r, e') → r.Alike o

theorem Poised.answersFromScratch {mode : Bool → Prop} {e : Engine Journal} (hp : Poised mode e) :
    e.AnswersFromScratch := by
  intro id body found
  obtain ⟨F, hF⟩ := hp.sound.coherent.exists_foretold hp.sound.ranked
  have hgives : e.graph.sheet.Gives ⟨.computed, id⟩ (F.outcome id) := hF.gives ⟨body, found⟩
  have hready : Ready F (F.rank id + 1) e.graph.sheet ⟨.computed, id⟩ :=
    ⟨⟨body, found⟩, fun _ => ⟨hF.covers id, Nat.lt_succ_self _⟩⟩
  have hidle : e.graph.Idle (e.graph.sheet.below F (F.rank id + 1)) :=
    Idle.mono hp.sound.idle fun _ _ => trivial
  refine ⟨F.outcome id, hgives.evaluates rfl found,
    fun tracked => ⟨⟨F.rank id + 1, fun depth enough => ?_⟩, fun hread => ?_⟩⟩
  · exact (readCell_spec (serves_refreshWithin F depth) hp.sound.coherent hF.obeys hready hidle
      tracked).2 enough
  · obtain ⟨g, rfl, hr, hg, hfresh⟩ := hp.read hread
    obtain ⟨o, hgives', halike⟩ := hg.right (hF.congr hr.sheet) hfresh
    obtain rfl := (hr.sheet ▸ hgives').functional hgives
    exact halike

/-- Cached reads are evaluation from scratch: whatever a client has done, and wherever in an operation
it is, reads answer from scratch; and so do those of the effects that run in a move. -/
theorem Reached.reads_from_scratch {settings : Settings} {e : Engine Journal}
    (reached : Reached (fun _ => True) (fun _ => True) settings e) :
    (∀ {p q : Program Journal} {depth : Nat} {e₁ : Engine Journal}, p.Operates →
      p.Comes depth (refreshWithin depth) e q e₁ → e₁.AnswersFromScratch) ∧
    ∀ {e' : Engine Journal}, Move (fun _ => True) (fun _ => True) e e' →
      ∃ recs, e'.host = e.host ++ recs ∧
        ∀ s ∈ recs, ∀ r ∈ s.readings, r.Right e'.graph.sheet := by
  refine ⟨fun operates comes => ?_, fun move => ?_⟩
  · obtain ⟨-, reached₁, -⟩ := reached.comes operates (fun _ _ => trivial) comes
    exact reached₁.poised.answersFromScratch
  · obtain ⟨hp, recs, hhost, hfresh⟩ := reached.poised.move move
    exact ⟨recs, hhost, fun s hs r hr => hp.sound.right (hfresh s hs r hr)⟩

theorem reads_from_scratch_small :
    Small.engine.graph.sheet.body? Small.copy = some (.get ⟨.signal, Small.first⟩) ∧
      Small.engine.AnswersFromScratch := by
  have operates : (Program.done (.ok .undefined) : Program Journal).Operates :=
    .done Value.Proper.undefined
  exact ⟨rfl, (Reached.reads_from_scratch (Small.reached_engine trivial _)).1 operates
    (Program.Comes.here _ _ : Program.Comes 0 _ _ _ _ _)⟩

end Engine

end LiveTemplate.Reactive
