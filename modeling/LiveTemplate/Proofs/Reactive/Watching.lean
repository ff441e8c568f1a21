import LiveTemplate.Proofs.Reactive.Refresh

/-!
# Effects that read and record

A watching effect makes the reads of a program and appends them, with what they returned, to a
journal that the host keeps: one sighting for each run, under a label of the effect. What a run saw
can be told from the journal.

All that such a run reads is settled when it is read and stays so to the end of the run, so its
sighting shows the outcomes from scratch (`Engine.exec_watched`).
-/
namespace LiveTemplate.Reactive

/-- A read and what it returned. -/
structure Reading where
  cell : Cell
  outcome : Outcome

/-- The reads of one run of an effect. -/
structure Sighting where
  label : Nat
  readings : List Reading

abbrev Journal := List Sighting

/-- What a read of a cell that is not live returns. -/
def Outcome.gone : CellKind → Outcome
  | .signal => .error (.reactive (.disposed .signal))
  | .computed => .error (.reactive (.disposed .computed))

variable {σ : Type}

namespace Program

/-- Programs that only read, tracked or not as the mode allows. -/
inductive Reads (mode : Bool → Prop) : Program σ → Prop where
  | done (o : Outcome) : Reads mode (.done o)
  | read (cell : Cell) {tracked : Bool} {next : Outcome → Program σ} (allowed : mode tracked)
      (rest : ∀ r, Reads mode (next r)) : Reads mode (.read cell tracked next)

/-- The program, with its reads recorded at its end. -/
def watched (label : Nat) : Program Journal → List Reading → Program Journal
  | read cell tracked next, seen =>
    read cell tracked fun r => (next r).watched label (seen ++ [⟨cell, r⟩])
  | p, seen => adjust (· ++ [⟨label, seen⟩]) p

/-- What a watching program appends when its reads return nothing of interest. -/
def entry : Program Journal → Journal
  | read _ _ next => (next (.ok .undefined)).entry
  | adjust change _ => change []
  | _ => []

theorem entry_watched (p : Program Journal) (label : Nat) (seen : List Reading) :
    (p.watched label seen).entry.map (·.label) = [label] := by
  induction p generalizing seen with
  | read cell tracked next ih => exact ih _ _
  | _ => rfl

/-- A watching program knows its label. -/
theorem watched_label {label label' : Nat} {p q : Program Journal} {seen seen' : List Reading}
    (h : p.watched label seen = q.watched label' seen') : label = label' := by
  have hlabels := entry_watched p label seen
  rw [h, entry_watched] at hlabels
  exact (List.head_eq_of_cons_eq hlabels).symm

end Program

/-- The computeds of a sheet. -/
def Sheet.Computes (s : Sheet σ) (id : NodeId) : Prop := ∃ body, s.body? id = some body

/-- A reading is up to date: it shows a settled cell, or says that there is none. -/
def Graph.Fresh (g : Graph (Program σ)) (r : Reading) : Prop :=
  g.sheet.Holds r.cell ∧ g.Settled r.cell.node ∧ r.outcome = g.shown r.cell.node ∨
    ¬g.sheet.Holds r.cell ∧ r.outcome = Outcome.gone r.cell.kind

theorem Graph.Refreshed.fresh {g h : Graph (Program σ)} {P : NodeId → Prop}
    (hr : g.Refreshed P h) {r : Reading} (hf : g.Fresh r) : h.Fresh r := by
  rw [Fresh, hr.sheet]
  refine hf.imp_left fun ⟨holds, settled, shown⟩ => ?_
  obtain ⟨hset, hshown⟩ := hr.of_settled settled
  exact ⟨holds, hset, shown.trans hshown.symm⟩

namespace Engine

open Reactive.Graph

variable {F : Forecast} {depth d : Nat}

/-- A read of a cell that is not live. -/
theorem readCell_gone {refresh : NodeId → Engine σ → Option (Engine σ)} {e : Engine σ} {cell : Cell}
    (gone : ¬e.graph.sheet.Holds cell) (tracked : Bool) :
    e.readCell refresh cell tracked = some (Outcome.gone cell.kind, e) := by
  obtain ⟨kind, id⟩ := cell
  cases kind with
  | signal =>
    simp only [readCell]
    split
    next v _ _ _ _ hn => exact absurd ⟨v, value?_eq_some.2 ⟨_, hn, rfl⟩⟩ gone
    next => rfl
  | computed =>
    simp only [readCell]
    split
    next b _ _ _ _ _ hn => exact absurd ⟨b, body?_of_kind hn rfl⟩ gone
    next b _ _ _ _ _ hn => exact absurd ⟨b, body?_of_kind hn rfl⟩ gone
    next => rfl

/-- A read of any cell when nothing is in the way. -/
theorem readCell_any {refresh : NodeId → Engine σ → Option (Engine σ)} {e : Engine σ}
    (serves : Serves F d refresh) (hg : e.graph.Coherent) (hF : e.graph.sheet.Obeys F)
    (idle : e.graph.Idle e.graph.sheet.Computes) {cell : Cell}
    (covers : cell.kind = .computed → F.covers cell.node) (tracked : Bool) :
    Yields (e.graph.sheet.Holds cell → F.rank cell.node < d) (e.readCell refresh cell tracked)
      fun (o, e') => ∃ g, e.graph.Refreshed (e.graph.sheet.below F (F.rank cell.node + 1)) g ∧
        g.Coherent ∧ g.Fresh ⟨cell, o⟩ ∧
          (e' = ({ e with graph := g } : Engine σ).trackIf tracked cell.node ∧ g.sheet.Holds cell ∨
            e' = { e with graph := g } ∧ ¬g.sheet.Holds cell) := by
  by_cases holds : e.graph.sheet.Holds cell
  · have hready : Ready F (F.rank cell.node + 1) e.graph.sheet cell :=
      ⟨holds, fun hk => ⟨covers hk, Nat.lt_succ_self _⟩⟩
    refine (readCell_spec serves hg hF hready (idle.mono fun x hx => hx.1) tracked).mono
      (fun lower => lower holds) ?_
    rintro ⟨_, _⟩ ⟨g, rfl, hr, hg', hset, rfl⟩
    have holds' : g.sheet.Holds cell := hr.sheet ▸ holds
    exact ⟨g, hr, hg', .inl ⟨holds', hset, rfl⟩, .inl ⟨rfl, holds'⟩⟩
  · rw [readCell_gone holds]
    exact .some ⟨e.graph, .refl hg.shown_proper, hg, .inr ⟨holds, rfl⟩, .inr ⟨rfl, holds⟩⟩

/-- A run of a watching program appends one sighting, and what it saw is fresh in the end. It
records live cells only, and all of those that it read by tracked reads. -/
theorem exec_watched {refresh : NodeId → Engine Journal → Option (Engine Journal)}
    {e e' : Engine Journal} (serves : Serves F d refresh) (covers : ∀ x, F.covers x)
    {mode : Bool → Prop} {p : Program Journal} (reads : p.Reads mode) {label : Nat}
    {seen : List Reading} (hg : e.graph.Coherent) (hF : e.graph.sheet.Obeys F)
    (idle : e.graph.Idle e.graph.sheet.Computes) {sources : List NodeId}
    {rest : List (Option (List NodeId))} (tracking : e.tracking = some sources :: rest) {o : Outcome}
    (hexec : (p.watched label seen).exec depth refresh e = some (o, e')) :
    ∃ g readings sources', e' = { e with
        graph := g
        tracking := some sources' :: rest
        host := e.host ++ [⟨label, seen ++ readings⟩] } ∧
      e.graph.Refreshed e.graph.sheet.Computes g ∧ g.Coherent ∧ (∀ r ∈ readings, g.Fresh r) ∧
      (∀ s ∈ sources', s ∈ sources ∨ ∃ r ∈ readings, r.cell.node = s ∧ g.sheet.Holds r.cell) ∧
      (∀ s ∈ sources, s ∈ sources') ∧
      ((∀ t, mode t → t = true) → ∀ r ∈ readings, g.sheet.Holds r.cell → r.cell.node ∈ sources') := by
  induction reads generalizing e seen sources with
  | done o =>
    simp only [Program.watched, Program.exec, Option.some.injEq, Prod.mk.injEq] at hexec
    obtain ⟨rfl, rfl⟩ := hexec
    refine ⟨e.graph, [], sources, ?_, .refl hg.shown_proper, hg, by simp, fun s hs => .inl hs,
      fun s hs => hs, by simp⟩
    simp [← tracking]
  | @read cell tracked next allowed _ ih =>
    simp only [Program.watched, Program.exec, Option.bind_eq_some_iff] at hexec
    obtain ⟨⟨r, e₁⟩, hread, hexec⟩ := hexec
    obtain ⟨g, hr, hg', hfresh, hcase⟩ :=
      (readCell_any serves hg hF idle (fun _ => covers _) tracked).1 _ hread
    have hr := hr.mono fun x hx => hx.1
    have hsheet := hr.sheet
    obtain ⟨sources₁, rfl, hnew, hold, htracked⟩ : ∃ sources₁,
        e₁ = { e with graph := g, tracking := some sources₁ :: rest } ∧
        (∀ s ∈ sources₁, s ∈ sources ∨ s = cell.node ∧ g.sheet.Holds cell) ∧
        (∀ s ∈ sources, s ∈ sources₁) ∧
        (tracked = true → g.sheet.Holds cell → cell.node ∈ sources₁) := by
      rcases hcase with ⟨rfl, holds⟩ | ⟨rfl, gone⟩
      · cases tracked with
        | true =>
          refine ⟨enlist cell.node sources, by simp [trackIf, track, tracking], fun s hs => ?_,
            fun s hs => mem_enlist.2 (.inr hs), fun _ _ => mem_enlist.2 (.inl rfl)⟩
          exact (mem_enlist.1 hs).symm.imp_right fun h => ⟨h, holds⟩
        | false =>
          exact ⟨sources, by simp [trackIf, ← tracking], fun s hs => .inl hs, fun s hs => hs, by simp⟩
      · exact ⟨sources, by simp [← tracking], fun s hs => .inl hs, fun s hs => hs,
          fun _ holds => absurd holds gone⟩
    obtain ⟨g', readings, sources', rfl, hr', hg'', hfresh', hlive, hkeep, hall⟩ :=
      ih r (e := { e with graph := g, tracking := some sources₁ :: rest }) hg' (hsheet ▸ hF)
        (hsheet ▸ hr.idle idle) rfl hexec
    have hfirst := hr'.fresh hfresh
    refine ⟨g', ⟨cell, r⟩ :: readings, sources', by simp, hr.trans (hsheet ▸ hr'), hg'', ?_, ?_,
      fun s hs => hkeep s (hold s hs), fun hmode x hx holds => ?_⟩
    · rintro x (_ | ⟨_, hx⟩)
      · exact hfirst
      · exact hfresh' x hx
    · intro s hs
      rcases hlive s hs with hs | ⟨x, hx, hread⟩
      · refine (hnew s hs).imp_right fun hcell => ?_
        exact ⟨⟨cell, r⟩, by simp, hcell.1.symm, hr'.sheet ▸ hcell.2⟩
      · exact .inr ⟨x, List.mem_cons_of_mem _ hx, hread⟩
    · rcases List.mem_cons.1 hx with rfl | hx
      · exact hkeep _ (htracked (hmode _ allowed) (hr'.sheet ▸ holds))
      · exact hall hmode x hx holds

end Engine

end LiveTemplate.Reactive
