import Mathlib.Data.Nat.Find
import LiveTemplate.Proofs.Reactive.Reading

/-!
# Evaluation from scratch

What a reading program gives when nothing is remembered: a signal gives what it stores, a computed
what its body evaluates to, recursively. Only the values of the signals and the bodies of the
computeds count, which a `Sheet` lists.

A graph is ranked if no body, whatever the signals hold, reads a computed of its own rank or above;
then every computed has an outcome from scratch. A `Forecast` collects outcomes; that of a sheet
(`Sheet.forecast`) covers every computed whose evaluation ends.
-/
namespace LiveTemplate.Reactive

variable {σ : Type}

/-- The value of a signal. -/
def NodeKind.value? {β : Type} : NodeKind β → Option Value
  | .signal value => some value
  | _ => none

/-- The body of a computed. -/
def NodeKind.formula? {β : Type} : NodeKind β → Option β
  | .computed body _ _ => some body
  | _ => none

/-- What evaluation from scratch depends on. -/
structure Sheet (σ : Type) where
  value? : NodeId → Option Value
  body? : NodeId → Option (Program σ)

def Graph.sheet (g : Graph (Program σ)) : Sheet σ where
  value? id := (g.node? id).bind (·.kind.value?)
  body? id := (g.node? id).bind (·.kind.formula?)

namespace Sheet

/-- Whether a cell is live and of its kind. -/
def Holds (s : Sheet σ) (cell : Cell) : Prop :=
  match cell.kind with
  | .signal => ∃ v, s.value? cell.node = some v
  | .computed => ∃ body, s.body? cell.node = some body

/-- The outcomes of a reading program from scratch. -/
inductive Evaluates (s : Sheet σ) : Program σ → Outcome → Prop where
  | done (o : Outcome) : Evaluates s (.done o) o
  | signal {id : NodeId} {v : Value} {tracked : Bool} {next : Outcome → Program σ} {o : Outcome}
      (found : s.value? id = some v) (rest : Evaluates s (next (.ok v)) o) :
      Evaluates s (.read ⟨.signal, id⟩ tracked next) o
  | computed {id : NodeId} {body : Program σ} {r : Outcome} {tracked : Bool}
      {next : Outcome → Program σ} {o : Outcome} (found : s.body? id = some body)
      (inner : Evaluates s body r) (rest : Evaluates s (next r) o) :
      Evaluates s (.read ⟨.computed, id⟩ tracked next) o
  | goneSignal {id : NodeId} {tracked : Bool} {next : Outcome → Program σ} {o : Outcome}
      (gone : s.value? id = none)
      (rest : Evaluates s (next (.error (.reactive (.disposed .signal)))) o) :
      Evaluates s (.read ⟨.signal, id⟩ tracked next) o
  | goneComputed {id : NodeId} {tracked : Bool} {next : Outcome → Program σ} {o : Outcome}
      (gone : s.body? id = none)
      (rest : Evaluates s (next (.error (.reactive (.disposed .computed)))) o) :
      Evaluates s (.read ⟨.computed, id⟩ tracked next) o

theorem Evaluates.functional {s : Sheet σ} {p : Program σ} {o o' : Outcome}
    (h : s.Evaluates p o) (h' : s.Evaluates p o') : o = o' := by
  induction h generalizing o' with
  | done => cases h'; rfl
  | signal found _ ih => cases h' with
    | signal found' rest => exact ih (by rwa [Option.some.inj (found.symm.trans found')])
    | goneSignal gone => simp [found] at gone
  | computed found _ _ ihInner ih => cases h' with
    | computed found' inner rest =>
      cases Option.some.inj (found.symm.trans found')
      cases ihInner inner
      exact ih rest
    | goneComputed gone => simp [found] at gone
  | goneSignal gone _ ih => cases h' with
    | signal found => simp [found] at gone
    | goneSignal _ rest => exact ih rest
  | goneComputed gone _ ih => cases h' with
    | computed found => simp [found] at gone
    | goneComputed _ rest => exact ih rest

/-- What reading a cell gives from scratch. -/
inductive Gives (s : Sheet σ) : Cell → Outcome → Prop where
  | signal {id : NodeId} {v : Value} (found : s.value? id = some v) :
      Gives s ⟨.signal, id⟩ (.ok v)
  | computed {id : NodeId} {body : Program σ} {o : Outcome} (found : s.body? id = some body)
      (evaluates : s.Evaluates body o) : Gives s ⟨.computed, id⟩ o
  | goneSignal {id : NodeId} (gone : s.value? id = none) :
      Gives s ⟨.signal, id⟩ (.error (.reactive (.disposed .signal)))
  | goneComputed {id : NodeId} (gone : s.body? id = none) :
      Gives s ⟨.computed, id⟩ (.error (.reactive (.disposed .computed)))

theorem Gives.evaluates {s : Sheet σ} {cell : Cell} {o : Outcome} (h : s.Gives cell o)
    (kind : cell.kind = .computed) {body : Program σ} (found : s.body? cell.node = some body) :
    s.Evaluates body o := by
  cases h with
  | computed found' evaluates => rwa [Option.some.inj (found.symm.trans found')]
  | goneComputed gone => simp [found] at gone
  | _ => cases kind

/-- A program reads, by tracked reads, live signals and live computeds of a rank below the bound,
as far as its evaluation from scratch gets. -/
inductive Descends (s : Sheet σ) (rank : NodeId → Nat) (bound : Nat) : Program σ → Prop where
  | done (o : Outcome) : Descends s rank bound (.done o)
  | signal {id : NodeId} {v : Value} {next : Outcome → Program σ} (found : s.value? id = some v)
      (rest : Descends s rank bound (next (.ok v))) :
      Descends s rank bound (.read ⟨.signal, id⟩ true next)
  | computed {id : NodeId} {body : Program σ} {next : Outcome → Program σ}
      (found : s.body? id = some body) (lower : rank id < bound)
      (rest : ∀ r, s.Evaluates body r → Descends s rank bound (next r)) :
      Descends s rank bound (.read ⟨.computed, id⟩ true next)

/-- The same signals and bodies, with values of any kind in the signals. -/
def Revalued (s t : Sheet σ) : Prop :=
  t.body? = s.body? ∧ (∀ id, (t.value? id).isSome = (s.value? id).isSome) ∧
    ∀ id v, t.value? id = some v → v.Proper

/-- The computeds can be ranked so that each body, whatever the signals hold, only reads signals and
computeds of lower rank. -/
def Ranked (s : Sheet σ) : Prop :=
  ∃ rank : NodeId → Nat, ∀ t, s.Revalued t →
    ∀ id body, t.body? id = some body → t.Descends rank (rank id) body

/-- An evaluation that reads live cells only, by tracked reads, and goes through at most so many levels
of computeds. -/
inductive Ends (s : Sheet σ) : Nat → Program σ → Outcome → Prop where
  | done {k : Nat} (o : Outcome) : Ends s k (.done o) o
  | signal {k : Nat} {id : NodeId} {v : Value} {next : Outcome → Program σ} {o : Outcome}
      (found : s.value? id = some v) (rest : Ends s k (next (.ok v)) o) :
      Ends s k (.read ⟨.signal, id⟩ true next) o
  | computed {k : Nat} {id : NodeId} {body : Program σ} {r : Outcome} {next : Outcome → Program σ}
      {o : Outcome} (found : s.body? id = some body) (inner : Ends s k body r)
      (rest : Ends s (k + 1) (next r) o) : Ends s (k + 1) (.read ⟨.computed, id⟩ true next) o

theorem Ends.evaluates {s : Sheet σ} {k : Nat} {p : Program σ} {o : Outcome} (h : s.Ends k p o) :
    s.Evaluates p o := by
  induction h with
  | done o => exact .done o
  | signal found _ ih => exact .signal found ih
  | computed found _ _ ihInner ih => exact .computed found ihInner ih

theorem Ends.mono {s : Sheet σ} {k l : Nat} {p : Program σ} {o : Outcome} (h : s.Ends k p o)
    (deeper : k ≤ l) : s.Ends l p o := by
  induction h generalizing l with
  | done o => exact .done o
  | signal found _ ih => exact .signal found (ih deeper)
  | @computed k _ _ _ _ _ found _ _ ihInner ih =>
    obtain ⟨l, rfl⟩ : ∃ m, l = m + 1 := ⟨l - 1, by omega⟩
    exact .computed found (ihInner (by omega)) (ih deeper)

theorem Descends.ends {s : Sheet σ} {rank : NodeId → Nat} {bound : Nat} {p : Program σ}
    (h : s.Descends rank bound p)
    (below : ∀ id body, s.body? id = some body → rank id < bound → ∃ r, s.Ends (rank id) body r) :
    ∃ o, s.Ends bound p o := by
  induction h with
  | done o => exact ⟨o, .done o⟩
  | signal found _ ih =>
    obtain ⟨o, ho⟩ := ih
    exact ⟨o, .signal found ho⟩
  | @computed id _ _ found lower _ ih =>
    obtain ⟨r, hr⟩ := below _ _ found lower
    obtain ⟨o, ho⟩ := ih r hr.evaluates
    obtain ⟨b, rfl⟩ : ∃ b, bound = b + 1 := ⟨bound - 1, by omega⟩
    exact ⟨o, .computed found (hr.mono (by omega)) ho⟩

/-- In a sheet that a ranking fits every computed has an outcome. -/
theorem exists_ends {s : Sheet σ} {rank : NodeId → Nat}
    (fits : ∀ id body, s.body? id = some body → s.Descends rank (rank id) body) {id : NodeId}
    {body : Program σ} (found : s.body? id = some body) : ∃ o, s.Ends (rank id) body o := by
  induction hk : rank id using Nat.strongRecOn generalizing id body with
  | ind k ih =>
    subst hk
    exact (fits id body found).ends fun id' _ found' lower => ih _ lower found' rfl

end Sheet

/-! ## Forecasts -/

/-- For each node it covers, its outcome from scratch, with a rank above the ranks of all computeds
that go into it. -/
structure Forecast where
  covers : NodeId → Prop
  rank : NodeId → Nat
  outcome : NodeId → Outcome

/-- A forecast is right: each covered computed ends as forecast when its reads are answered as
forecast, and reads only live signals and covered computeds of lower rank. -/
structure Sheet.Obeys (s : Sheet σ) (F : Forecast) : Prop where
  signal : ∀ {id : NodeId} {v : Value}, s.value? id = some v → F.outcome id = .ok v
  computed : ∀ {id : NodeId} {body : Program σ}, F.covers id → s.body? id = some body →
    body.result F.outcome = F.outcome id
  holds : ∀ {id : NodeId} {body : Program σ}, F.covers id → s.body? id = some body →
    ∀ cell ∈ body.cells F.outcome, s.Holds cell
  lower : ∀ {id : NodeId} {body : Program σ}, F.covers id → s.body? id = some body →
    ∀ cell ∈ body.cells F.outcome, cell.kind = .computed →
      F.covers cell.node ∧ F.rank cell.node < F.rank id

namespace Sheet

open Classical in
/-- The outcome of a node from scratch, if it has one. -/
noncomputable def outcome (s : Sheet σ) (id : NodeId) : Outcome :=
  match s.value? id with
  | some v => .ok v
  | none =>
    if h : ∃ o body, s.body? id = some body ∧ s.Evaluates body o then h.choose else .ok .undefined

theorem outcome_signal {s : Sheet σ} {id : NodeId} {v : Value} (h : s.value? id = some v) :
    s.outcome id = .ok v := by
  simp [outcome, h]

theorem outcome_computed {s : Sheet σ} {id : NodeId} {body : Program σ} {o : Outcome}
    (signal : s.value? id = none) (found : s.body? id = some body) (h : s.Evaluates body o) :
    s.outcome id = o := by
  have hex : ∃ o body, s.body? id = some body ∧ s.Evaluates body o := ⟨o, body, found, h⟩
  obtain ⟨body', found', h'⟩ := hex.choose_spec
  obtain rfl := Option.some.inj (found.symm.trans found')
  simp only [outcome, signal, dif_pos hex]
  exact h'.functional h

open Classical in
/-- The forecast of all that ends. -/
noncomputable def forecast (s : Sheet σ) : Forecast where
  covers id := ∀ body, s.body? id = some body → ∃ k o, s.Ends k body o
  rank id := if h : ∃ k body o, s.body? id = some body ∧ s.Ends k body o then Nat.find h else 0
  outcome := s.outcome

theorem forecast_rank {s : Sheet σ} {id : NodeId} {body : Program σ} {k : Nat} {o : Outcome}
    (found : s.body? id = some body) (ends : s.Ends k body o) :
    s.forecast.rank id ≤ k ∧ s.Ends (s.forecast.rank id) body o := by
  classical
  have hex : ∃ k body o, s.body? id = some body ∧ s.Ends k body o := ⟨k, body, o, found, ends⟩
  have hrank : s.forecast.rank id = Nat.find hex := by simp only [forecast, dif_pos hex]
  obtain ⟨body', o', found', ends'⟩ := Nat.find_spec hex
  obtain rfl := Option.some.inj (found.symm.trans found')
  rw [hrank, ends.evaluates.functional ends'.evaluates]
  exact ⟨Nat.find_min' hex ⟨body, o, found, ends⟩, ends'⟩

theorem Ends.foretold {s : Sheet σ} (apart : ∀ id body, s.body? id = some body → s.value? id = none)
    {k : Nat} {p : Program σ} {o : Outcome} (h : s.Ends k p o) :
    p.result s.outcome = o ∧ ∀ cell ∈ p.cells s.outcome, s.Holds cell ∧
      (cell.kind = .computed → s.forecast.covers cell.node ∧ s.forecast.rank cell.node < k) := by
  induction h with
  | done => exact ⟨rfl, by simp [Program.cells]⟩
  | signal found _ ih =>
    simp only [Program.result, Program.cells, outcome_signal found, List.mem_cons,
      forall_eq_or_imp]
    exact ⟨ih.1, ⟨⟨_, found⟩, by simp⟩, ih.2⟩
  | @computed k id body r _ _ found inner _ _ ih =>
    simp only [Program.result, Program.cells,
      outcome_computed (apart _ _ found) found inner.evaluates, List.mem_cons, forall_eq_or_imp]
    refine ⟨ih.1, ⟨⟨_, found⟩, fun _ => ⟨fun body' found' => ?_, ?_⟩⟩, ih.2⟩
    · obtain rfl := Option.some.inj (found.symm.trans found')
      exact ⟨k, r, inner⟩
    · exact Nat.lt_succ_of_le (forecast_rank found inner).1

theorem obeys_forecast {s : Sheet σ} (apart : ∀ id body, s.body? id = some body → s.value? id = none) :
    s.Obeys s.forecast := by
  have each {id : NodeId} {body : Program σ} (covered : s.forecast.covers id)
      (found : s.body? id = some body) :
      body.result s.outcome = s.outcome id ∧ ∀ cell ∈ body.cells s.outcome, s.Holds cell ∧
        (cell.kind = .computed → s.forecast.covers cell.node ∧
          s.forecast.rank cell.node < s.forecast.rank id) := by
    obtain ⟨k, o, hends⟩ := covered body found
    obtain ⟨hresult, hcells⟩ := (forecast_rank found hends).2.foretold apart
    exact ⟨hresult.trans (outcome_computed (apart _ _ found) found hends.evaluates).symm, hcells⟩
  exact
    { signal := outcome_signal
      computed := fun covered found => (each covered found).1
      holds := fun covered found cell hc => ((each covered found).2 cell hc).1
      lower := fun covered found cell hc hk => ((each covered found).2 cell hc).2 hk }

theorem gives_forecast {s : Sheet σ} (apart : ∀ id body, s.body? id = some body → s.value? id = none)
    {cell : Cell} (holds : s.Holds cell)
    (covered : cell.kind = .computed → s.forecast.covers cell.node) :
    s.Gives cell (s.forecast.outcome cell.node) := by
  obtain ⟨kind, id⟩ := cell
  cases kind with
  | signal =>
    obtain ⟨v, hv⟩ := holds
    simp only [forecast, outcome_signal hv]
    exact .signal hv
  | computed =>
    obtain ⟨body, hbody⟩ := holds
    obtain ⟨_, _, ends⟩ := covered rfl body hbody
    simp only [forecast, outcome_computed (apart _ _ hbody) hbody ends.evaluates]
    exact .computed hbody ends.evaluates

end Sheet

end LiveTemplate.Reactive
