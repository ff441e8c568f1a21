import Mathlib
import LiveTemplate.Proofs.Reactive.Showing

/-!
# Following chains of handles

Where reads do not change what cells answer, a value begins a chain: a handle leads to what the read of
its cell answers, and so on. The chain arrives at a value that is no handle, or fails at a read, or comes
back to a cell, and does one of these only (`Chain.Circles.met_of_stuck`): from a cell that it comes back
to it goes round for ever. Following the value finds out which, and reads no cell twice on the way
(`Engine.Reliable.follow`); so it reads no more than all cells that there are, and one that is gone.
-/
namespace LiveTemplate.Reactive

/-! ## Chains -/

namespace Chain

variable {table : Cell → Outcome} {u v w : Value} {cells cells' more : List Cell} {c d : Cell}
  {f g : Fault}

/-- By the answers of these cells the chain gets from one value to the other. -/
inductive Leads (table : Cell → Outcome) : Value → List Cell → Value → Prop where
  | here (v : Value) : Leads table v [] v
  | next {c : Cell} {v w : Value} {cells : List Cell} (answer : table c = .ok v)
      (rest : Leads table v cells w) : Leads table (.cell c) (c :: cells) w

/-- The chain gets to a value that is no handle. -/
def Arrives (table : Cell → Outcome) (v w : Value) : Prop :=
  w.isReactive = false ∧ ∃ cells, Leads table v cells w

/-- The chain gets to a cell that was not met before, and its read fails. -/
def Fails (table : Cell → Outcome) (v : Value) (f : Fault) : Prop :=
  ∃ cells c, Leads table v cells (.cell c) ∧ c.node ∉ cells.map Cell.node ∧ table c = .error f

/-- The chain gets to a cell that was met before. -/
def Circles (table : Cell → Outcome) (v : Value) : Prop :=
  ∃ cells c, Leads table v cells (.cell c) ∧ c.node ∈ cells.map Cell.node

/-- The chain does not go on from the value. -/
def Stuck (table : Cell → Outcome) (w : Value) : Prop := ∀ c v, w = .cell c → table c ≠ .ok v

theorem stuck_of_plain (plain : w.isReactive = false) : Stuck table w := by
  rintro c v rfl
  cases plain

theorem stuck_of_error (answer : table c = .error f) : Stuck table (.cell c) := by
  rintro _ v ⟨⟩ ok
  cases answer.symm.trans ok

theorem Leads.append (h : Leads table v cells w) (h' : Leads table w more u) :
    Leads table v (cells ++ more) u := by
  induction h with
  | here => exact h'
  | next answer _ ih => exact .next answer (ih h')

/-- Of two stretches of a chain, one goes on where the other ends. -/
theorem Leads.compare (h : Leads table v cells w) (h' : Leads table v cells' u) :
    (∃ more, Leads table w more u ∧ cells' = cells ++ more) ∨
      ∃ more, Leads table u more w ∧ cells = cells' ++ more := by
  induction h generalizing cells' with
  | here => exact .inl ⟨cells', h', rfl⟩
  | next answer rest ih =>
    cases h' with
    | here => exact .inr ⟨_, .next answer rest, rfl⟩
    | next answer' rest' =>
      obtain rfl := Except.ok.inj (answer.symm.trans answer')
      rcases ih rest' with ⟨more, hmore, rfl⟩ | ⟨more, hmore, rfl⟩
      · exact .inl ⟨more, hmore, rfl⟩
      · exact .inr ⟨more, hmore, rfl⟩

theorem Leads.eq_of_stuck (h : Leads table w more u) (stuck : Stuck table w) : more = [] ∧ u = w := by
  cases h with
  | here => exact ⟨rfl, rfl⟩
  | next answer => exact absurd answer (stuck _ _ rfl)

/-- A chain gets stuck in one place only. -/
theorem Leads.end_unique (h : Leads table v cells w) (stuck : Stuck table w)
    (h' : Leads table v cells' u) (stuck' : Stuck table u) : w = u := by
  rcases h.compare h' with ⟨more, hmore, -⟩ | ⟨more, hmore, -⟩
  · exact (hmore.eq_of_stuck stuck).2.symm
  · exact (hmore.eq_of_stuck stuck').2

/-- A chain that gets to the end of some cells has met each of them. -/
theorem Leads.split (h : Leads table v cells w) (mem : c ∈ cells) :
    (∃ u, table c = .ok u) ∧ ∃ rest, Leads table (.cell c) (c :: rest) w := by
  induction h with
  | here => cases mem
  | next answer rest ih =>
    rcases List.mem_cons.1 mem with rfl | mem
    · exact ⟨⟨_, answer⟩, _, .next answer rest⟩
    · exact ih mem

/-- From a cell that leads back to itself the chain never gets stuck. -/
theorem Leads.endless {rest more : List Cell} (circle : Leads table (.cell c) (c :: rest) (.cell c))
    (h : Leads table (.cell c) more w) : ¬ Stuck table w := by
  intro stuck
  rcases h.compare circle with ⟨back, hback, -⟩ | ⟨more', hmore, rfl⟩
  · obtain ⟨-, rfl⟩ := hback.eq_of_stuck stuck
    cases circle with
    | next answer => exact stuck _ _ rfl answer
  · exact circle.endless hmore stuck
termination_by more.length

/-- Cells of one node are one cell, if they answer. -/
def Single (table : Cell → Outcome) : Prop :=
  ∀ ⦃c d : Cell⦄ ⦃v w : Value⦄, table c = .ok v → table d = .ok w → c.node = d.node → c = d

/-- A chain that comes back gets stuck, if at all, at a cell that it met before. -/
theorem Circles.met_of_stuck (single : Single table) (circles : Circles table v)
    (h : Leads table v cells w) (stuck : Stuck table w) :
    ∃ c, w = .cell c ∧ c.node ∈ cells.map Cell.node := by
  obtain ⟨round, c, hround, met⟩ := circles
  rcases hround.compare h with ⟨more, hmore, rfl⟩ | ⟨more, hmore, rfl⟩
  · cases hmore with
    | here => exact ⟨c, rfl, by simpa using met⟩
    | next answer rest =>
      obtain ⟨d, hd, same⟩ := List.mem_map.1 met
      obtain ⟨⟨_, answer'⟩, back, hback⟩ := hround.split hd
      obtain rfl := single answer' answer same
      exact absurd stuck (hback.endless (.next answer rest))
  · obtain ⟨rfl, rfl⟩ := hmore.eq_of_stuck stuck
    exact ⟨c, rfl, by simpa using met⟩

theorem Arrives.unique (h : Arrives table v w) (h' : Arrives table v u) : w = u := by
  obtain ⟨plain, cells, leads⟩ := h
  obtain ⟨plain', cells', leads'⟩ := h'
  exact leads.end_unique (stuck_of_plain plain) leads' (stuck_of_plain plain')

theorem Fails.unique (h : Fails table v f) (h' : Fails table v g) : f = g := by
  obtain ⟨cells, c, leads, -, answer⟩ := h
  obtain ⟨cells', d, leads', -, answer'⟩ := h'
  obtain ⟨⟩ := leads.end_unique (stuck_of_error answer) leads' (stuck_of_error answer')
  exact Except.error.inj (answer.symm.trans answer')

theorem Arrives.not_fails (h : Arrives table v w) : ¬ Fails table v f := by
  rintro ⟨cells', c, leads', -, answer⟩
  obtain ⟨plain, cells, leads⟩ := h
  obtain rfl := leads.end_unique (stuck_of_plain plain) leads' (stuck_of_error answer)
  cases plain

theorem Circles.not_arrives (single : Single table) (h : Circles table v) : ¬ Arrives table v w := by
  rintro ⟨plain, cells, leads⟩
  obtain ⟨c, rfl, -⟩ := h.met_of_stuck single leads (stuck_of_plain plain)
  cases plain

theorem Circles.not_fails (single : Single table) (h : Circles table v) : ¬ Fails table v f := by
  rintro ⟨cells, c, leads, unmet, answer⟩
  obtain ⟨_, ⟨⟩, met⟩ := h.met_of_stuck single leads (stuck_of_error answer)
  exact unmet met

end Chain

/-! ## Reads -/

variable {σ : Type}

namespace Engine

variable {e e' e₁ : Engine σ} {N : Naming} {table : Cell → Outcome} {c d : Cell} {o r : Outcome}
  {v : Value} {reads : List (Engine σ × Cell)}

/-- With enough depth, a recorded read of the cell answers so and leaves this state. -/
def Records (e : Engine σ) (c : Cell) (o : Outcome) (e' : Engine σ) : Prop :=
  ∃ enough, ∀ depth, enough ≤ depth → run depth (.get c) e = some (o, e')

/-- States with names for their identities in which every read answers as the table does, and leads to
such a state again. -/
structure Confirms (table : Cell → Outcome) (I : Naming → Engine σ → Prop) : Prop where
  fits : ∀ {N e}, I N e → e.Fits N
  read : ∀ {N e}, I N e → ∀ c, ∃ o e' N', e.Records c o e' ∧ o.Matches N'.Names (table c) ∧
    Later e N e' N' ∧ I N' e'

/-- Reads have no side effects on the values of cells: whatever was read before, they answer as the table
does. -/
def Reliable (e : Engine σ) (N : Naming) (table : Cell → Outcome) : Prop :=
  ∃ I, Confirms table I ∧ I N e

theorem Reliable.read (h : e.Reliable N table) (c : Cell) : ∃ o e' N', e.Records c o e' ∧
    o.Matches N'.Names (table c) ∧ Later e N e' N' ∧ e'.Reliable N' table :=
  have ⟨I, confirms, now⟩ := h
  have ⟨o, e', N', records, answers, later, now'⟩ := confirms.read now c
  ⟨o, e', N', records, answers, later, I, confirms, now'⟩

theorem run_get_eq (depth : Nat) (c : Cell) (e : Engine σ) :
    run depth (.get c) e = e.readCell (refreshWithin depth) c true := by
  simp [run, Program.get, Program.exec]

theorem records_iff : e.Records c o e' ↔ ∃ enough, ∀ depth, enough ≤ depth →
    e.readCell (refreshWithin depth) c true = some (o, e') := by
  simp only [Records, run_get_eq]

/-- A state that shows a table shows it after a recorded read, too. -/
theorem Shows.records (h : e.Shows N table) (c : Cell) : ∃ o e' N', e.Records c o e' ∧
    o.Matches N'.Names (table c) ∧ Later e N e' N' ∧ e'.Shows N' table := by
  by_cases idle : e.standing c = .idle
  · obtain ⟨o, e', N', read, answers, later, -, shows⟩ := h.tracked idle
    exact ⟨o, e', N', records_iff.2 read, answers, later, shows⟩
  · obtain ⟨o, e', N', ⟨enough, replies⟩, answers, later, -, shows⟩ := h.read c
    have refused := replies enough le_rfl
    rw [run_peek_eq, readCell_refused idle] at refused
    obtain ⟨rfl, rfl⟩ := Prod.mk.inj (Option.some.inj refused)
    exact ⟨_, e, N', records_iff.2 ⟨0, fun _ _ => readCell_refused idle⟩, answers, later, shows⟩

/-- A state that shows a table has reliable reads. -/
theorem Shows.reliable (h : e.Shows N table) : e.Reliable N table :=
  ⟨fun N e => e.Shows N table, ⟨fun now => now.fits, fun now => now.records⟩, h⟩

theorem Records.refused (h : e.Records c o e') (busy : e.standing c ≠ .idle) :
    o = (e.standing c).refusal c ∧ e' = e := by
  obtain ⟨enough, ran⟩ := h
  have := ran enough le_rfl
  rw [run_get_eq, readCell_refused busy] at this
  obtain ⟨rfl, rfl⟩ := Prod.mk.inj (Option.some.inj this)
  exact ⟨rfl, rfl⟩

theorem Records.idle_of_ok {w : Value} (h : e.Records c (.ok w) e') : e.standing c = .idle := by
  by_contra busy
  cases (h.refused busy).1

theorem Reliable.idle (h : e.Reliable N table) (answer : table c = .ok v) : e.standing c = .idle := by
  obtain ⟨o, e', N', records, answers, -, -⟩ := h.read c
  rw [answer] at answers
  cases o with
  | error => exact answers.elim
  | ok => exact records.idle_of_ok

/-- A node is a signal or a computed, so one of its cells only can be idle. -/
theorem eq_of_idle (hc : e.standing c = .idle) (hd : e.standing d = .idle) (same : c.node = d.node) :
    c = d := by
  obtain ⟨kind, id⟩ := c
  obtain ⟨kind', _⟩ := d
  obtain rfl : id = _ := same
  revert hc hd
  unfold standing
  dsimp only
  generalize e.graph.node? id = node
  rcases kind <;> rcases kind' <;> rcases node with _ | ⟨_ | ⟨_, _ | _, _⟩ | _, _, _, _, _⟩ <;>
    intro hc hd <;> first | rfl | (cases hc; done) | cases hd

theorem Reliable.single (h : e.Reliable N table) : Chain.Single table :=
  fun _ _ _ _ hc hd same => eq_of_idle (h.idle hc) (h.idle hd) same

/-- Recorded reads that follow a value, each in the state that the one before left, with the last
answer. -/
inductive Reads : Engine σ → Value → List (Engine σ × Cell) → Outcome → Engine σ → Prop where
  | none (e : Engine σ) (v : Value) : Reads e v [] (.ok v) e
  | fault {e e' : Engine σ} {c : Cell} {f : Fault} (records : e.Records c (.error f) e') :
      Reads e (.cell c) [(e, c)] (.error f) e'
  | next {e e₁ e' : Engine σ} {c : Cell} {w : Value} {reads : List (Engine σ × Cell)} {r : Outcome}
      (records : e.Records c (.ok w) e₁) (rest : Reads e₁ w reads r e') :
      Reads e (.cell c) ((e, c) :: reads) r e'

/-- Only the last read can be refused. -/
theorem Reads.idle (h : e.Reads v reads r e') : ∀ x ∈ reads.dropLast, x.1.standing x.2 = .idle := by
  induction h with
  | none => exact nofun
  | fault => exact nofun
  | @next e e₁ e' c w reads r records _ ih =>
    cases reads with
    | nil => exact nofun
    | cons x reads => exact List.forall_mem_cons.2 ⟨records.idle_of_ok, ih⟩

theorem tracking_trackAll {f : Engine σ} (same : e.tracking = f.tracking) (cells : List Cell) :
    (e.trackAll cells).tracking = (f.trackAll cells).tracking := by
  induction cells generalizing e f with
  | nil => exact same
  | cons c cells ih =>
    rw [trackAll_cons, trackAll_cons]
    refine ih ?_
    simp only [trackIf, if_true, track, same]
    split <;> first | rfl | exact same

theorem trackAll_append (e : Engine σ) (cells more : List Cell) :
    e.trackAll (cells ++ more) = (e.trackAll cells).trackAll more := by
  simp [trackAll]

/-- A read of an idle cell is recorded in the innermost frame. -/
theorem Records.tracking (h : e.Records c o e') (idle : e.standing c = .idle) :
    e'.tracking = (e.trackIf true c.node).tracking := by
  obtain ⟨enough, ran⟩ := h
  have now := ran enough le_rfl
  rw [run_get_eq, readCell_tracked idle] at now
  obtain ⟨⟨o, e₁⟩, hread, heq⟩ := Option.map_eq_some_iff.1 now
  obtain ⟨-, rfl⟩ := Prod.mk.inj heq
  have htracking : e₁.tracking = e.tracking :=
    (readCell_tracking (unframed_refreshWithin enough) hread).elim id id
  exact tracking_trackAll htracking [c]

/-- The cells that were idle when they were read. -/
def tracked (reads : List (Engine σ × Cell)) : List Cell :=
  (reads.filter fun x => x.1.standing x.2 = .idle).map Prod.snd

theorem Reads.tracking (h : e.Reads v reads r e') :
    e'.tracking = (e.trackAll (tracked reads)).tracking := by
  induction h with
  | none => rfl
  | @fault e e' c f records =>
    by_cases idle : e.standing c = .idle
    · have htracked : tracked [(e, c)] = [c] := by simp [tracked, idle]
      rw [htracked, records.tracking idle]
      rfl
    · obtain ⟨-, rfl⟩ := records.refused idle
      have htracked : tracked [(e', c)] = [] := by simp [tracked, idle]
      rw [htracked]
      rfl
  | @next e e₁ e' c w reads r records _ ih =>
    have idle := records.idle_of_ok
    have htracked : tracked ((e, c) :: reads) = c :: tracked reads := by simp [tracked, idle]
    rw [htracked, trackAll_cons, ih]
    exact tracking_trackAll (records.tracking idle) _

/-! ## Following a chain -/

/-- The value is the other one, or is one of the table that has names for its identities. -/
def Means (N : Naming) (w' w : Value) : Prop := w' = w ∨ w'.Matches N.Names w

theorem Means.isReactive {w' w : Value} (h : Means N w' w) : w'.isReactive = w.isReactive := by
  rcases h with rfl | h
  · rfl
  · exact h.isReactive

theorem Means.eq_cell {w : Value} (h : Means N (.cell c) w) : w = .cell c := by
  rcases h with h | h
  · exact h.symm
  · exact h.eq_cell

/-- How the last answer and the result of following a value come from its chain. -/
inductive Concludes (table : Cell → Outcome) (v : Value) (N : Naming) : Outcome → Outcome → Prop where
  | arrives {w w' : Value} (arrives : Chain.Arrives table v w) (means : Means N w' w) :
      Concludes table v N (.ok w') (.ok w')
  | fails {f : Fault} (fails : Chain.Fails table v f) : Concludes table v N (.error f) (.error f)
  | circles {c : Cell} (circles : Chain.Circles table v) :
      Concludes table v N (.ok (.cell c)) (.error (.reactive .cyclic))

namespace Concludes

variable (single : Chain.Single table) (h : Concludes table v N r o)
include single h

/-- There is a value exactly if the chain arrives at one. -/
theorem value : (∃ w', r = .ok w' ∧ o = .ok w') ↔ ∃ w, Chain.Arrives table v w := by
  cases h with
  | @arrives w w' arrives => exact iff_of_true ⟨w', rfl, rfl⟩ ⟨w, arrives⟩
  | fails fails =>
    refine iff_of_false ?_ ?_
    · rintro ⟨_, ⟨⟩, -⟩
    · rintro ⟨w, arrives⟩
      exact arrives.not_fails fails
  | circles circles =>
    refine iff_of_false ?_ ?_
    · rintro ⟨_, -, ⟨⟩⟩
    · rintro ⟨w, arrives⟩
      exact circles.not_arrives single arrives

theorem failure (f : Fault) : (r = .error f ∧ o = .error f) ↔ Chain.Fails table v f := by
  cases h with
  | arrives arrives =>
    refine iff_of_false ?_ arrives.not_fails
    rintro ⟨⟨⟩, -⟩
  | fails fails =>
    constructor
    · rintro ⟨⟨⟩, -⟩
      exact fails
    · intro fails'
      rw [fails.unique fails']
      exact ⟨rfl, rfl⟩
  | circles circles =>
    refine iff_of_false ?_ (circles.not_fails single)
    rintro ⟨⟨⟩, -⟩

theorem circle :
    (∃ c, r = .ok (.cell c) ∧ o = .error (.reactive .cyclic)) ↔ Chain.Circles table v := by
  cases h with
  | arrives arrives =>
    refine iff_of_false ?_ fun circles => circles.not_arrives single arrives
    rintro ⟨_, -, ⟨⟩⟩
  | fails fails =>
    refine iff_of_false ?_ fun circles => circles.not_fails single fails
    rintro ⟨_, ⟨⟩, -⟩
  | @circles c circles => exact iff_of_true ⟨c, rfl, rfl⟩ circles

omit single in
theorem means {w w' : Value} (result : o = .ok w') (arrives : Chain.Arrives table v w) :
    Means N w' w := by
  cases h with
  | arrives arrives' means =>
    cases result
    exact arrives'.unique arrives ▸ means
  | fails | circles => cases result

omit single in
theorem plain {w : Value} (result : o = .ok w) : w.isReactive = false := by
  cases h with
  | arrives arrives means =>
    cases result
    exact means.isReactive.trans arrives.1
  | fails | circles => cases result

/-- The chain does one of the three. -/
theorem one :
    (∃ w, Chain.Arrives table v w) ∧ (¬ ∃ f, Chain.Fails table v f) ∧ ¬ Chain.Circles table v ∨
    (¬ ∃ w, Chain.Arrives table v w) ∧ (∃ f, Chain.Fails table v f) ∧ ¬ Chain.Circles table v ∨
    (¬ ∃ w, Chain.Arrives table v w) ∧ (¬ ∃ f, Chain.Fails table v f) ∧ Chain.Circles table v := by
  simp only [not_exists]
  cases h with
  | arrives arrives =>
    exact .inl ⟨⟨_, arrives⟩, fun _ => arrives.not_fails,
      fun circles => circles.not_arrives single arrives⟩
  | fails fails =>
    exact .inr (.inl ⟨fun _ arrives => arrives.not_fails fails, ⟨_, fails⟩,
      fun circles => circles.not_fails single fails⟩)
  | circles circles =>
    exact .inr (.inr ⟨fun _ => circles.not_arrives single, fun _ => circles.not_fails single, circles⟩)

end Concludes

/-- Following a value goes along its chain; the cells met before are the visited ones. -/
theorem Reliable.follow {e : Engine σ} {N : Naming} (h : e.Reliable N table) {keys : List NodeId}
    (all : ∀ c w, table c = .ok w → c.node ∈ keys) {v u u' : Value} {before : List Cell}
    (leads : Chain.Leads table v before u) (means : Means N u' u) (visited : List NodeId)
    (met : visited = (before.map Cell.node).reverse) :
    ∃ reads r o e' N', e.Reads u' reads r e' ∧ Concludes table v N' r o ∧
      reads.length ≤ (keys.filter (· ∉ visited)).length + 1 ∧ Later e N e' N' ∧ e'.Reliable N' table ∧
      ∃ enough, ∀ depth steps, enough ≤ depth → e.follow (refreshWithin depth) steps visited u' =
        if reads.length ≤ steps then some (o, e') else none := by
  cases hu : u'.isReactive with
  | false =>
    have plain : u.isReactive = false := means.isReactive ▸ hu
    exact ⟨[], _, _, e, N, .none e u', .arrives ⟨plain, before, leads⟩ means, Nat.zero_le _, .refl e N, h,
      0, fun _ _ _ => follow_plain hu⟩
  | true =>
    obtain ⟨c, rfl⟩ : ∃ c, u' = .cell c := by cases u' <;> first | exact ⟨_, rfl⟩ | cases hu
    obtain rfl := means.eq_cell
    by_cases again : c.node ∈ visited
    · have circles : Chain.Circles table v := ⟨before, c, leads, by simpa [met] using again⟩
      exact ⟨[], _, _, e, N, .none e _, .circles circles, Nat.zero_le _, .refl e N, h, 0,
        fun _ _ _ => by rw [follow_cell, if_pos again]; rfl⟩
    obtain ⟨o, e₁, N₁, records, answers, later, reliable⟩ := h.read c
    obtain ⟨enough, ran⟩ := records_iff.1 records
    cases o with
    | error f =>
      cases hanswer : table c with
      | ok => exact (hanswer ▸ answers :).elim
      | error g =>
        obtain rfl : f = g := (hanswer ▸ answers :)
        have fails : Chain.Fails table v f := ⟨before, c, leads, by simpa [met] using again, hanswer⟩
        refine ⟨_, _, _, e₁, N₁, .fault records, .fails fails, Nat.le_add_left _ _, later, reliable,
          enough, fun depth steps le => ?_⟩
        cases steps with
        | zero => rw [follow_cell, if_neg again]; rfl
        | succ steps => exact (follow_read again (ran depth le)).trans (if_pos (Nat.le_add_left _ _)).symm
    | ok w' =>
      cases hanswer : table c with
      | error => exact (hanswer ▸ answers :).elim
      | ok w =>
        have values : Means N₁ w' w := .inr (hanswer ▸ answers :)
        have fewer := length_unmet_lt (all c w hanswer) again
        obtain ⟨reads, r, o, e', N', hreads, concludes, few, later', reliable', enough', ran'⟩ :=
          reliable.follow all (leads.append (.next hanswer (.here w))) values (c.node :: visited)
            (by simp [met])
        refine ⟨_, r, o, e', N', .next records hreads, concludes, ?_, later.trans later', reliable',
          max enough enough', fun depth steps le => ?_⟩
        · rw [List.length_cons]
          omega
        · cases steps with
          | zero => rw [follow_cell, if_neg again, if_neg (by simp)]
          | succ steps =>
            refine (follow_read again (ran depth (by omega))).trans ?_
            simp only [ran' depth steps (by omega), List.length_cons, Nat.add_le_add_iff_right]
termination_by (keys.filter (· ∉ visited)).length
decreasing_by exact fewer

/-- The nodes of the cells that are there. -/
def liveCells (e : Engine σ) : Set NodeId := {id | ∃ kind, e.standing ⟨kind, id⟩ ≠ .gone}

theorem finite_liveCells (e : Engine σ) : e.liveCells.Finite := by
  obtain ⟨keys, hkeys⟩ := e.graph.nodes.exists_keys
  refine (List.finite_toSet keys).subset ?_
  rintro id ⟨kind, live⟩
  refine hkeys id ?_
  by_contra hnone
  have hgone : e.graph.node? id = none := by simpa [Graph.node?] using hnone
  exact live (by simp [standing, hgone])

/-- Following a value along its chain: the reads that it makes, their last answer, and the result. -/
structure Unwraps (table : Cell → Outcome) (e : Engine σ) (v : Value) (reads : List (Engine σ × Cell))
    (r o : Outcome) (e' : Engine σ) (N' : Naming) : Prop where
  /-- The reads go along the chain, to the state at the end. -/
  along : e.Reads v reads r e'
  /-- They are all made, and no others: with fewer steps there is no result. -/
  follows : ∃ enough, ∀ depth steps, enough ≤ depth → e.follow (refreshWithin depth) steps [] v =
    if reads.length ≤ steps then some (o, e') else none
  ends : ∃ enough, ∀ depth, enough ≤ depth → run depth (.settle v) e = some (o, e')
  /-- There is a value if the chain arrives at one, and it is this one. -/
  value : (∃ w', r = .ok w' ∧ o = .ok w') ↔ ∃ w, Chain.Arrives table v w
  means : ∀ w w', o = .ok w' → Chain.Arrives table v w → Means N' w' w
  /-- The last read fails, and the failure is passed on, if the chain fails so. -/
  failure : ∀ f, (r = .error f ∧ o = .error f) ↔ Chain.Fails table v f
  /-- No read fails, but the last answer is no value, if the chain comes back to a cell. -/
  circle : (∃ c, r = .ok (.cell c) ∧ o = .error (.reactive .cyclic)) ↔ Chain.Circles table v
  /-- The chain does one of the three. -/
  one : (∃ w, Chain.Arrives table v w) ∧ (¬ ∃ f, Chain.Fails table v f) ∧ ¬ Chain.Circles table v ∨
    (¬ ∃ w, Chain.Arrives table v w) ∧ (∃ f, Chain.Fails table v f) ∧ ¬ Chain.Circles table v ∨
    (¬ ∃ w, Chain.Arrives table v w) ∧ (¬ ∃ f, Chain.Fails table v f) ∧ Chain.Circles table v
  plain : ∀ w, o = .ok w → w.isReactive = false
  few : reads.length ≤ e.liveCells.ncard + 1
  /-- All cells that were read are recorded, but for a last one that was not idle. -/
  tracking : e'.tracking = (e.trackAll (tracked reads)).tracking
  idle : ∀ x ∈ reads.dropLast, x.1.standing x.2 = .idle

/-- Where reads have no side effects on the values of cells, following any value ends: in the value that
its chain arrives at, the failure that the chain meets first, or a failure of its own because the chain
comes back to a cell. -/
theorem Reliable.unwraps (h : e.Reliable N table) (v : Value) : ∃ reads r o e' N',
    Unwraps table e v reads r o e' N' ∧ Later e N e' N' ∧ e'.Reliable N' table := by
  have all : ∀ c w, table c = .ok w → c.node ∈ e.finite_liveCells.toFinset.toList := by
    intro c w answer
    rw [Finset.mem_toList, Set.Finite.mem_toFinset]
    exact ⟨c.kind, by rw [h.idle answer]; decide⟩
  obtain ⟨reads, r, o, e', N', along, concludes, few, later, reliable, enough, follows⟩ :=
    h.follow all (.here v) (.inl rfl) [] rfl
  have ends : ∃ enough, ∀ depth, enough ≤ depth → run depth (.settle v) e = some (o, e') := by
    refine ⟨max enough reads.length, fun depth le => ?_⟩
    have now := follows depth depth (by omega)
    rw [if_pos (by omega)] at now
    rw [run, Program.settle, Program.exec, now]
    rfl
  have few : reads.length ≤ e.liveCells.ncard + 1 := by
    rw [Set.ncard_eq_toFinset_card _ e.finite_liveCells]
    simpa using few
  exact ⟨reads, r, o, e', N', {
    along, ends, few
    follows := ⟨enough, follows⟩
    value := concludes.value h.single
    means := fun _ _ => concludes.means
    failure := concludes.failure h.single
    circle := concludes.circle h.single
    one := concludes.one h.single
    plain := fun _ => concludes.plain
    tracking := along.tracking
    idle := along.idle }, later, reliable⟩

namespace Turning

/-- The signal with the number holds the value. -/
def handle (i : Nat) : Cell := ⟨.signal, i, 0⟩

/-- One signal holds a text, the next one its handle, and two more hold each other's handles. -/
def state : Engine Unit :=
  let hold (g : Graph (Program Unit)) (v : Value) := (g.insertNode (.signal v) .clean none).2
  { start .default () with
    graph := [.text "end", .cell (handle 0), .cell (handle 3), .cell (handle 2)].foldl hold .empty }

theorem shows : state.Shows (fun _ => none) state.answer := by
  have plain : PlainSignals state.graph :=
    (((plainSignals_empty.insert rfl).insert rfl).insert rfl).insert rfl
  refine plain.shows ⟨?_, ?_⟩
  · rintro i j n ⟨⟩
  · rintro i n ⟨⟩

theorem reliable : state.Reliable (fun _ => none) state.answer := shows.reliable

theorem arrives : Chain.Arrives state.answer (.cell (handle 1)) (.text "end") :=
  ⟨rfl, _, .next rfl (.next rfl (.here _))⟩

theorem circles : Chain.Circles state.answer (.cell (handle 2)) :=
  ⟨_, handle 2, .next rfl (.next rfl (.here _)), by decide⟩

end Turning

open Turning in
theorem unwraps_turning : state.Reliable (fun _ => none) state.answer ∧
    (∃ reads r o e' N', Unwraps state.answer state (.cell (handle 1)) reads r o e' N' ∧
      o = .ok (.text "end")) ∧
    ∃ reads r o e' N', Unwraps state.answer state (.cell (handle 2)) reads r o e' N' ∧
      o = .error (.reactive .cyclic) := by
  refine ⟨reliable, ?_, ?_⟩
  · obtain ⟨reads, r, o, e', N', unwraps, -⟩ := reliable.unwraps (.cell (handle 1))
    obtain ⟨w, -, rfl⟩ := unwraps.value.2 ⟨_, arrives⟩
    have means := unwraps.means _ w rfl arrives
    obtain rfl : w = .text "end" := by
      rcases means with rfl | same
      · rfl
      · cases same
        rfl
    exact ⟨_, _, _, _, _, unwraps, rfl⟩
  · obtain ⟨reads, r, o, e', N', unwraps, -⟩ := reliable.unwraps (.cell (handle 2))
    obtain ⟨c, -, rfl⟩ := unwraps.circle.2 circles
    exact ⟨_, _, _, _, _, unwraps, rfl⟩

end Engine

end LiveTemplate.Reactive
