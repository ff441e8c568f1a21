import Mathlib
import LiveTemplate.Proofs.Expr.Parametric
import LiveTemplate.Proofs.Reactive.Frames
import LiveTemplate.Proofs.Reactive.Moments

/-!
# What a state shows

A state shows a table if every read, whatever was read before, answers as the table does: reads have no
side effects on the values of cells (`Engine.Shows`). A read can bring a computed up to date and so
build arrays and objects; the table has names for identities, and the identities that a read gives out
are named by it. A state with all its computeds up to date shows what it holds (`Engine.shows_current`).

Two states that show tables with the same entries answer alike, read by read, along the relation that
links identities of one name (`Engine.Abreast`). That a cell is gone or in the middle of a run is not an
entry: a read that is refused for it is not recorded either.
-/
namespace LiveTemplate.Reactive

variable {σ : Type}

/-- Whether a cell can be read. -/
inductive Standing where
  | gone
  | running
  | idle
  deriving DecidableEq

/-- What a read of a cell that is not idle fails with. -/
def Standing.refusal (s : Standing) (c : Cell) : Outcome :=
  .error (.reactive (if s = .running then .cyclic else
    .disposed (match c.kind with | .signal => .signal | .computed => .computed)))

/-- Names for some of the identities. -/
abbrev Naming := Nat → Option Nat

def Naming.Names (N : Naming) (i n : Nat) : Prop := N i = some n

namespace Engine

variable {e e' : Engine σ} {c : Cell} {o : Outcome}

def standing (e : Engine σ) (c : Cell) : Standing :=
  match c.kind, e.graph.node? c.node with
  | .signal, some ⟨.signal _, _, _, _, _⟩ => .idle
  | .computed, some ⟨.computed _ true _, _, _, _, _⟩ => .running
  | .computed, some ⟨.computed _ false _, _, _, _, _⟩ => .idle
  | _, _ => .gone

theorem readCell_refused {refresh : NodeId → Engine σ → Option (Engine σ)} {tracked : Bool}
    (busy : e.standing c ≠ .idle) :
    e.readCell refresh c tracked = some ((e.standing c).refusal c, e) := by
  revert busy
  unfold standing readCell Standing.refusal
  generalize c.kind = kind, e.graph.node? c.node = node
  rcases kind <;> rcases node with _ | ⟨_ | ⟨_, _ | _, _⟩ | _, _, _, _, _⟩ <;> intro busy <;>
    first | rfl | exact absurd rfl busy

/-- A read of an idle cell is recorded if it is tracked, and that is all the difference. -/
theorem readCell_tracked {refresh : NodeId → Engine σ → Option (Engine σ)}
    (idle : e.standing c = .idle) : e.readCell refresh c true =
      (e.readCell refresh c false).map fun (o, e') => (o, e'.track c.node) := by
  revert idle
  unfold standing readCell
  generalize c.kind = kind, e.graph.node? c.node = node
  rcases kind <;> rcases node with _ | ⟨_ | ⟨_, _ | _, _⟩ | _, _, _, _, _⟩ <;> intro idle <;>
    first | rfl | (cases idle; done) | (dsimp only; rw [Option.map_map]; rfl)

theorem readCell_agree {depth depth' : Nat} {tracked : Bool} {o' : Outcome} {e₁ e₂ : Engine σ}
    (h : e.readCell (refreshWithin depth) c tracked = some (o, e₁))
    (h' : e.readCell (refreshWithin depth') c tracked = some (o', e₂)) : o = o' ∧ e₁ = e₂ := by
  revert h h'
  unfold readCell
  generalize c.kind = kind, e.graph.node? c.node = node
  rcases kind <;> rcases node with _ | ⟨_ | ⟨_, _ | _, _⟩ | _, _, _, _, _⟩ <;> intro h h' <;>
    try exact Prod.mk.inj (Option.some.inj (h.symm.trans h'))
  obtain ⟨e₁', hrefresh, heq⟩ := Option.map_eq_some_iff.1 h
  obtain ⟨e₂', hrefresh', heq'⟩ := Option.map_eq_some_iff.1 h'
  obtain rfl := refreshWithin_agree hrefresh hrefresh'
  exact Prod.mk.inj (heq.symm.trans heq')

/-! ## Runs that come to an end -/

section Completes

variable {p : Program σ} {o' : Outcome} {e₁ : Engine σ} {v : Value} {f : Fault}
  {next : Value → Program σ}

/-- With enough depth, the program ends so and leaves this state. -/
def Completes (e : Engine σ) (p : Program σ) (o : Outcome) (e' : Engine σ) : Prop :=
  ∃ enough, ∀ depth, enough ≤ depth → run depth p e = some (o, e')

theorem run_bind (depth : Nat) (p : Program σ) (next : Value → Program σ) (e : Engine σ) :
    run depth (p.bind next) e = (run depth p e).bind fun
      | (.ok v, e) => run depth (next v) e
      | (.error f, e) => some (.error f, e) :=
  Program.exec_bind ..

/-- Following a value that is no handle ends at once. -/
theorem run_settle_plain (plain : v.isReactive = false) (depth : Nat) (e : Engine σ) :
    run depth (.settle v) e = some (.ok v, e) := by
  rw [run, Program.settle, Program.exec, follow_plain plain]
  rfl

theorem Completes.of_run (enough : Nat)
    (ran : ∀ depth, run (depth + enough) p e = some (o, e')) : e.Completes p o e' := by
  refine ⟨enough, fun depth le => ?_⟩
  obtain ⟨more, rfl⟩ := Nat.exists_eq_add_of_le' le
  exact ran more

theorem Completes.unique (h : e.Completes p o e') (h' : e.Completes p o' e₁) : o = o' ∧ e' = e₁ := by
  obtain ⟨enough, ran⟩ := h
  obtain ⟨enough', ran'⟩ := h'
  have hran := ran (max enough enough') (by omega)
  rw [ran' _ (by omega)] at hran
  grind

theorem Completes.bind (h : e.Completes p (.ok v) e₁) (rest : e₁.Completes (next v) o e') :
    e.Completes (p.bind next) o e' := by
  obtain ⟨enough, ran⟩ := h
  obtain ⟨enough', ran'⟩ := rest
  refine ⟨max enough enough', fun depth le => ?_⟩
  rw [run_bind, ran depth (by omega)]
  exact ran' depth (by omega)

theorem Completes.bind_error (h : e.Completes p (.error f) e') :
    e.Completes (p.bind next) (.error f) e' := by
  obtain ⟨enough, ran⟩ := h
  refine ⟨enough, fun depth le => ?_⟩
  rw [run_bind, ran depth le]
  rfl

theorem Completes.done (e : Engine σ) (o : Outcome) : e.Completes (.done o) o e :=
  ⟨0, fun _ _ => rfl⟩

theorem Completes.fresh {next : Nat → Program σ}
    (rest : { e with identities := e.identities + 1 }.Completes (next e.identities) o e') :
    e.Completes (.fresh next) o e' :=
  rest

end Completes

section FollowsTo

variable {visited : List NodeId} {v w : Value} {e₁ : Engine σ} {f : Fault}

/-- With enough depth and steps, following the value ends so and leaves this state. -/
def FollowsTo (e : Engine σ) (visited : List NodeId) (v : Value) (o : Outcome) (e' : Engine σ) : Prop :=
  ∃ enough, ∀ depth steps, enough ≤ depth → enough ≤ steps →
    e.follow (refreshWithin depth) steps visited v = some (o, e')

theorem FollowsTo.plain (plain : v.isReactive = false) : e.FollowsTo visited v (.ok v) e :=
  ⟨0, fun _ _ _ _ => follow_plain plain⟩

theorem FollowsTo.met (met : c.node ∈ visited) :
    e.FollowsTo visited (.cell c) (.error (.reactive .cyclic)) e :=
  ⟨0, fun _ _ _ _ => by rw [follow_cell, if_pos met]⟩

theorem FollowsTo.fault (unmet : c.node ∉ visited)
    (read : ∃ enough, ∀ depth, enough ≤ depth →
      e.readCell (refreshWithin depth) c true = some (.error f, e')) :
    e.FollowsTo visited (.cell c) (.error f) e' := by
  obtain ⟨enough, ran⟩ := read
  refine ⟨enough + 1, fun depth steps hdepth hsteps => ?_⟩
  obtain ⟨steps, rfl⟩ := Nat.exists_eq_add_of_le' (Nat.le_of_add_left_le hsteps)
  exact follow_read unmet (ran depth (by omega))

theorem FollowsTo.next (unmet : c.node ∉ visited)
    (read : ∃ enough, ∀ depth, enough ≤ depth →
      e.readCell (refreshWithin depth) c true = some (.ok w, e₁))
    (rest : e₁.FollowsTo (c.node :: visited) w o e') : e.FollowsTo visited (.cell c) o e' := by
  obtain ⟨enough, ran⟩ := read
  obtain ⟨enough', ran'⟩ := rest
  refine ⟨max enough enough' + 1, fun depth steps hdepth hsteps => ?_⟩
  obtain ⟨steps, rfl⟩ := Nat.exists_eq_add_of_le' (Nat.le_of_add_left_le hsteps)
  rw [follow_read unmet (ran depth (by omega))]
  exact ran' depth steps (by omega) (by omega)

theorem FollowsTo.completes {next : Outcome → Program σ} {r : Outcome} (h : e.FollowsTo [] v r e₁)
    (rest : e₁.Completes (next r) o e') : e.Completes (.unwrap v next) o e' := by
  obtain ⟨enough, ran⟩ := h
  obtain ⟨enough', ran'⟩ := rest
  refine ⟨max enough enough', fun depth hdepth => ?_⟩
  rw [run, Program.exec, ran depth depth (by omega) (by omega), Option.bind_some]
  exact ran' depth (by omega)

end FollowsTo

/-- With enough depth, a read of the cell answers so and leaves this state. -/
def Replies (e : Engine σ) (c : Cell) (o : Outcome) (e' : Engine σ) : Prop :=
  ∃ enough, ∀ depth, enough ≤ depth → run depth (.peek c) e = some (o, e')

theorem run_peek_eq (depth : Nat) (c : Cell) (e : Engine σ) :
    run depth (.peek c) e = e.readCell (refreshWithin depth) c false := by
  simp [run, Program.peek, Program.exec]

/-! ## Tables -/

/-- One name for each identity, of those that have been given out. -/
structure Fits (e : Engine σ) (N : Naming) : Prop where
  injective : ∀ ⦃i j n⦄, N i = some n → N j = some n → i = j
  given : ∀ ⦃i n⦄, N i = some n → i < e.identities

/-- A later naming in a later state: only identities given out in between have new names. -/
structure Later (e : Engine σ) (N : Naming) (e' : Engine σ) (N' : Naming) : Prop where
  names : ∀ i < e.identities, N' i = N i
  identities : e.identities ≤ e'.identities

theorem Later.refl (e : Engine σ) (N : Naming) : Later e N e N :=
  ⟨fun _ _ => rfl, le_rfl⟩

theorem Later.trans {e e₁ e' : Engine σ} {N N₁ N' : Naming} (h : Later e N e₁ N₁)
    (h' : Later e₁ N₁ e' N') : Later e N e' N' :=
  ⟨fun i hi => (h'.names i (hi.trans_le h.identities)).trans (h.names i hi),
    h.identities.trans h'.identities⟩

theorem Later.names_le {N N' : Naming} (h : Later e N e' N') (fits : e.Fits N) {i n : Nat}
    (name : N i = some n) : N' i = some n :=
  (h.names i (fits.given name)).trans name

/-- States with names for their identities in which every read answers as the table does, and leads to
such a state again. -/
structure Shown (table : Cell → Outcome) (I : Naming → Engine σ → Prop) : Prop where
  fits : ∀ {N e}, I N e → e.Fits N
  frames : ∀ {N e}, I N e → ∀ t, I N { e with tracking := t }
  identity : ∀ {N e}, I N e → I N { e with identities := e.identities + 1 }
  read : ∀ {N e}, I N e → ∀ c, ∃ o e' N', e.Replies c o e' ∧ o.Matches N'.Names (table c) ∧
    Later e N e' N' ∧ (∀ d, e'.standing d = e.standing d) ∧ I N' e'

/-- Every read of a cell, in this state or after other reads, answers as the table does. -/
def Shows (e : Engine σ) (N : Naming) (table : Cell → Outcome) : Prop :=
  ∃ I, Shown table I ∧ I N e

section Shows

variable {N : Naming} {table : Cell → Outcome}

theorem Shows.fits (h : e.Shows N table) : e.Fits N :=
  have ⟨_, shown, now⟩ := h
  shown.fits now

theorem Shows.frames (h : e.Shows N table) (t : Stack) : { e with tracking := t }.Shows N table :=
  have ⟨I, shown, now⟩ := h
  ⟨I, shown, shown.frames now t⟩

theorem Shows.identity (h : e.Shows N table) :
    { e with identities := e.identities + 1 }.Shows N table :=
  have ⟨I, shown, now⟩ := h
  ⟨I, shown, shown.identity now⟩

theorem Shows.read (h : e.Shows N table) (c : Cell) : ∃ o e' N', e.Replies c o e' ∧
    o.Matches N'.Names (table c) ∧ Later e N e' N' ∧ (∀ d, e'.standing d = e.standing d) ∧
    e'.Shows N' table :=
  have ⟨I, shown, now⟩ := h
  have ⟨o, e', N', replies, answers, later, standing, now'⟩ := shown.read now c
  ⟨o, e', N', replies, answers, later, standing, I, shown, now'⟩

theorem Shows.track (h : e.Shows N table) (id : NodeId) : (e.track id).Shows N table := by
  unfold Engine.track
  split
  · exact h.frames _
  · exact h

theorem standing_track (e : Engine σ) (id : NodeId) (d : Cell) :
    (e.track id).standing d = e.standing d := by
  unfold Engine.track
  split <;> rfl

theorem identities_track (e : Engine σ) (id : NodeId) : (e.track id).identities = e.identities := by
  unfold Engine.track
  split <;> rfl

/-- A recorded read of an idle cell: with enough depth it answers as the table says. -/
theorem Shows.tracked (h : e.Shows N table) (idle : e.standing c = .idle) : ∃ o e' N',
    (∃ enough, ∀ depth, enough ≤ depth → e.readCell (refreshWithin depth) c true = some (o, e')) ∧
      o.Matches N'.Names (table c) ∧ Later e N e' N' ∧ (∀ d, e'.standing d = e.standing d) ∧
      e'.Shows N' table := by
  obtain ⟨o, e', N', ⟨enough, replies⟩, answers, later, standing, shows⟩ := h.read c
  refine ⟨o, e'.track c.node, N', ⟨enough, fun depth hdepth => ?_⟩, answers, ?_, fun d => ?_,
    shows.track _⟩
  · have hreplies := replies depth hdepth
    rw [run_peek_eq] at hreplies
    rw [readCell_tracked idle, hreplies]
    rfl
  · exact ⟨later.names, by rw [identities_track]; exact later.identities⟩
  · rw [standing_track, standing]

/-- What a cell of a state with nothing out of date answers. -/
def answer (e : Engine σ) (c : Cell) : Outcome :=
  match c.kind, e.graph.node? c.node with
  | .signal, some ⟨.signal v, _, _, _, _⟩ => .ok v
  | .computed, some ⟨.computed _ false _, _, _, _, _⟩ => e.shownOutcome c.node
  | _, _ => (e.standing c).refusal c

theorem refreshOver_clean {depth : Nat} {refresh : NodeId → Engine σ → Option (Engine σ)} {id : NodeId}
    (clean : e.graph.freshness? id = some .clean) : refreshOver depth refresh id e = some e := by
  obtain ⟨n, hn, hclean⟩ := Option.map_eq_some_iff.1 clean
  simp [refreshOver, hn, hclean, clean]

theorem readCell_clean {depth : Nat} (clean : ∀ n, e.graph.node? c.node = some n → n.freshness = .clean) :
    e.readCell (refreshWithin (depth + 1)) c false = some (e.answer c, e) := by
  by_cases idle : e.standing c = .idle
  · have hrefresh (n : Node (Program σ)) (found : e.graph.node? c.node = some n) :
        refreshWithin (depth + 1) c.node e = some e :=
      refreshOver_clean (by rw [Graph.freshness?, found, Option.map_some, clean n found])
    revert idle hrefresh
    unfold standing readCell answer
    generalize c.kind = kind, e.graph.node? c.node = node
    rcases kind <;> rcases node with _ | ⟨_ | ⟨_, _ | _, _⟩ | _, _, _, _, _⟩ <;>
      intro idle hrefresh <;> first
      | rfl
      | (cases idle; done)
      | (dsimp only; rw [hrefresh _ rfl]; rfl)
  · rw [readCell_refused idle]
    congr 2
    revert idle
    unfold standing answer
    generalize hkind : c.kind = kind, hnode : e.graph.node? c.node = node
    rcases kind <;> rcases node with _ | ⟨_ | ⟨_, _ | _, _⟩ | _, _, _, _, _⟩ <;> intro idle <;>
      first | exact absurd rfl idle | simp [standing, hkind, hnode]

/-- A state in which nothing is out of date shows what it holds. -/
theorem shows_current {N : Naming} {table : Cell → Outcome}
    (clean : ∀ id n, e.graph.node? id = some n → n.freshness = .clean) (fits : e.Fits N)
    (answers : ∀ c, (e.answer c).Matches N.Names (table c)) : e.Shows N table := by
  refine ⟨fun M f => M = N ∧ ∃ t k, f = { e with tracking := t, identities := e.identities + k }, ?_,
    rfl, e.tracking, 0, rfl⟩
  constructor
  · rintro _ _ ⟨rfl, t, k, rfl⟩
    exact ⟨fits.injective, fun _ _ name => (fits.given name).trans_le (Nat.le_add_right _ _)⟩
  · rintro _ _ ⟨rfl, t, k, rfl⟩ t'
    exact ⟨rfl, t', k, rfl⟩
  · rintro _ _ ⟨rfl, t, k, rfl⟩
    exact ⟨rfl, t, k + 1, rfl⟩
  · rintro M _ ⟨rfl, t, k, rfl⟩ c
    refine ⟨e.answer c, _, M, ⟨1, fun depth hdepth => ?_⟩, answers c, .refl _ _, fun _ => rfl, rfl, t, k,
      rfl⟩
    obtain ⟨depth, rfl⟩ := Nat.exists_eq_add_of_le' hdepth
    rw [run_peek_eq]
    exact readCell_clean fun n found => clean _ n found

/-! ### Signals alone -/

/-- Signals up to date that hold no arrays and no objects. -/
def PlainSignals (g : Graph (Program σ)) : Prop :=
  ∀ id n, g.node? id = some n → n.freshness = .clean ∧ ∃ v : Value, n.kind = .signal v ∧ v.identity? = none

theorem plainSignals_empty : PlainSignals (.empty : Graph (Program σ)) :=
  fun _ _ found => by simp [Graph.node?, Graph.empty, Arena.get?, Arena.empty] at found

theorem PlainSignals.insert {g : Graph (Program σ)} (h : PlainSignals g) {v : Value}
    (free : v.identity? = none) : PlainSignals (g.insertNode (.signal v) .clean none).2 := by
  intro id n found
  rw [Graph.node?_insertNode] at found
  split at found
  · obtain rfl := Option.some.inj found
    exact ⟨rfl, v, rfl, free⟩
  · exact h id n found

theorem PlainSignals.shows {N : Naming} (h : PlainSignals e.graph) (fits : e.Fits N) :
    e.Shows N e.answer := by
  refine shows_current (fun id n found => (h id n found).1) fits fun c => ?_
  unfold answer
  split
  next v _ _ _ _ _ found =>
    obtain ⟨-, w, hw, free⟩ := h _ _ found
    cases hw
    exact .scalar free
  next found =>
    obtain ⟨-, w, hw, -⟩ := h _ _ found
    cases hw
  next => exact rfl

/-! ## Reading on to the end -/

theorem length_unmet_lt {α : Type} [DecidableEq α] {x : α} {keys visited : List α} (known : x ∈ keys)
    (unmet : x ∉ visited) :
    (keys.filter (· ∉ x :: visited)).length < (keys.filter (· ∉ visited)).length := by
  have hfilter : keys.filter (· ∉ x :: visited) = (keys.filter (· ∉ visited)).filter (· ≠ x) := by
    simp [List.filter_filter, List.mem_cons, not_or]
  rw [hfilter, List.length_filter_lt_length_iff_exists]
  exact ⟨x, by simp [known, unmet], by simp⟩

/-- Following a value comes to an end: every cell on the way is an idle one that was not met before. -/
theorem Shows.follow {N : Naming} {e : Engine σ} (h : e.Shows N table) {keys : List NodeId}
    (all : ∀ c, e.standing c = .idle → c.node ∈ keys) (visited : List NodeId) (v : Value) :
    ∃ o e' N', e.FollowsTo visited v o e' ∧ (∀ d, e'.standing d = e.standing d) ∧
      e'.Shows N' table := by
  cases hv : v.isReactive with
  | false => exact ⟨_, e, N, .plain hv, fun _ => rfl, h⟩
  | true =>
    obtain ⟨c, rfl⟩ : ∃ c, v = .cell c := by cases v <;> first | exact ⟨_, rfl⟩ | cases hv
    by_cases met : c.node ∈ visited
    · exact ⟨_, e, N, .met met, fun _ => rfl, h⟩
    by_cases idle : e.standing c = .idle
    · obtain ⟨o, e₁, N₁, read, -, -, standing, shows⟩ := h.tracked idle
      cases o with
      | error fault => exact ⟨.error fault, e₁, N₁, .fault met read, standing, shows⟩
      | ok value =>
        have fewer := length_unmet_lt (all c idle) met
        obtain ⟨o, e', N', rest, standing', shows'⟩ :=
          shows.follow (fun d hd => all d (standing d ▸ hd)) (c.node :: visited) value
        exact ⟨o, e', N', .next met read rest, fun d => (standing' d).trans (standing d), shows'⟩
    · exact ⟨(e.standing c).refusal c, e, N, .fault met ⟨0, fun _ _ => readCell_refused idle⟩,
        fun _ => rfl, h⟩
termination_by (keys.filter (· ∉ visited)).length
decreasing_by exact fewer

theorem exists_idle (e : Engine σ) : ∃ keys : List NodeId, ∀ c, e.standing c = .idle → c.node ∈ keys := by
  obtain ⟨keys, hkeys⟩ := e.graph.nodes.exists_keys
  refine ⟨keys, fun c idle => hkeys _ ?_⟩
  by_contra hnone
  have hgone : e.graph.node? c.node = none := by simpa [Graph.node?] using hnone
  simp [standing, hgone] at idle

/-- A program that only follows cells and asks for identities comes to an end. -/
theorem Shows.exec {R : Nat → Nat → Prop} {p q : Program σ} (matched : p.Matched R q) (along : R = Eq)
    (h : e.Shows N table) : ∃ o e', e.Completes p o e' := by
  induction matched generalizing N e with
  | done => exact ⟨_, e, .done e _⟩
  | @unwrap R v w next next' values rest ih =>
    obtain ⟨keys, all⟩ := e.exists_idle
    obtain ⟨o, e₁, N₁, follows, -, shows⟩ := h.follow all [] v
    have self : o.Matches Eq o := by
      cases o with
      | error fault => exact rfl
      | ok v => exact v.matches_self
    obtain ⟨o', e', completes⟩ :=
      ih Eq (along ▸ le_rfl) (fun _ _ _ _ h h' => by rw [h, h']) o o self rfl shows
    exact ⟨o', e', follows.completes completes⟩
  | @fresh R next next' rest ih =>
    obtain ⟨o', e', completes⟩ := ih Eq (along ▸ le_rfl) (fun _ _ _ _ h h' => by rw [h, h'])
      e.identities _ rfl rfl h.identity
    exact ⟨o', e', .fresh completes⟩

end Shows

/-! ## Two states side by side -/

/-- Identities with one name, and pairs that have no name on either side. -/
def Linked (M N : Naming) (pairs : Nat → Nat → Prop) (i j : Nat) : Prop :=
  (∃ n, M i = some n ∧ N j = some n) ∨ pairs i j

/-- The pairs are identities that were given out on both sides and have no names. -/
def Nameless (M N : Naming) (pairs : Nat → Nat → Prop) (e f : Engine σ) : Prop :=
  ∀ ⦃i j⦄, pairs i j → M i = none ∧ i < e.identities ∧ N j = none ∧ j < f.identities

section Linked

variable {M N M' N' : Naming} {pairs : Nat → Nat → Prop} {f f' : Engine σ}

theorem Nameless.oneToOne (h : Nameless M N pairs e f) (left : e.Fits M) (right : f.Fits N)
    (unique : OneToOne pairs) : OneToOne (Linked M N pairs) := by
  rintro i j i' j' (⟨n, hi, hj⟩ | hpair) (⟨n', hi', hj'⟩ | hpair')
  · constructor
    · rintro rfl
      obtain rfl := Option.some.inj (hi.symm.trans hi')
      exact right.injective hj hj'
    · rintro rfl
      obtain rfl := Option.some.inj (hj.symm.trans hj')
      exact left.injective hi hi'
  · obtain ⟨hnone, -, hnone', -⟩ := h hpair'
    constructor <;> rintro rfl <;> simp_all
  · obtain ⟨hnone, -, hnone', -⟩ := h hpair
    constructor <;> rintro rfl <;> simp_all
  · exact unique hpair hpair'

theorem Nameless.later (h : Nameless M N pairs e f) (left : Later e M e' M') (right : Later f N f' N') :
    Nameless M' N' pairs e' f' := by
  intro i j hpair
  obtain ⟨hi, hlt, hj, hlt'⟩ := h hpair
  exact ⟨(left.names i hlt).trans hi, hlt.trans_le left.identities,
    (right.names j hlt').trans hj, hlt'.trans_le right.identities⟩

/-- The pairs and the identities that are given out next. -/
def NextPair (pairs : Nat → Nat → Prop) (e f : Engine σ) (i j : Nat) : Prop :=
  pairs i j ∨ i = e.identities ∧ j = f.identities

theorem Nameless.fresh (h : Nameless M N pairs e f) (left : e.Fits M) (right : f.Fits N) :
    Nameless M N (NextPair pairs e f) { e with identities := e.identities + 1 }
      { f with identities := f.identities + 1 } := by
  rintro i j (hpair | ⟨rfl, rfl⟩)
  · obtain ⟨hi, hlt, hj, hlt'⟩ := h hpair
    exact ⟨hi, Nat.lt_succ_of_lt hlt, hj, Nat.lt_succ_of_lt hlt'⟩
  · refine ⟨?_, Nat.lt_succ_self _, ?_, Nat.lt_succ_self _⟩
    · exact Option.eq_none_iff_forall_ne_some.2 fun n hn => Nat.lt_irrefl _ (left.given hn)
    · exact Option.eq_none_iff_forall_ne_some.2 fun n hn => Nat.lt_irrefl _ (right.given hn)

theorem Nameless.unique_fresh (h : Nameless M N pairs e f) (unique : OneToOne pairs) :
    OneToOne (NextPair pairs e f) := by
  rintro i j i' j' (hpair | ⟨rfl, rfl⟩) (hpair' | ⟨rfl, rfl⟩)
  · exact unique hpair hpair'
  · obtain ⟨-, hlt, -, hlt'⟩ := h hpair
    omega
  · obtain ⟨-, hlt, -, hlt'⟩ := h hpair'
    omega
  · exact iff_of_true rfl rfl

end Linked

/-- Two states that show tables, with the same cells in the same standing and the same reads collected.
The pairs are identities that were given out on both sides at once. -/
structure Abreast (a b : Cell → Outcome) (M N : Naming) (pairs : Nat → Nat → Prop)
    (e f : Engine σ) : Prop where
  left : e.Shows M a
  right : f.Shows N b
  standing : ∀ c, e.standing c = f.standing c
  collecting : ∃ xs, e.tracking.head? = some (some xs) ∧ f.tracking.head? = some (some xs)
  nameless : ∀ ⦃i j⦄, pairs i j → M i = none ∧ i < e.identities ∧ N j = none ∧ j < f.identities
  unique : OneToOne pairs

section Abreast

variable {a b : Cell → Outcome} {M N M' N' : Naming} {pairs pairs' : Nat → Nat → Prop}
  {f f' : Engine σ}

theorem Abreast.oneToOne (h : Abreast a b M N pairs e f) : OneToOne (Linked M N pairs) :=
  Nameless.oneToOne h.nameless h.left.fits h.right.fits h.unique

theorem head?_track (e : Engine σ) (id : NodeId) {xs : List NodeId}
    (head : e.tracking.head? = some (some xs)) :
    (e.track id).tracking.head? = some (some (enlist id xs)) := by
  unfold Engine.track
  split
  next sources rest htracking =>
    rw [htracking] at head
    obtain rfl := Option.some.inj (Option.some.inj head)
    rfl
  next hno =>
    obtain ⟨rest, hrest⟩ := List.head?_eq_some_iff.1 head
    exact absurd hrest (hno xs rest)

theorem collected_of_head? {xs : List NodeId} (head : e.tracking.head? = some (some xs)) :
    e.collected = xs := by
  obtain ⟨rest, hrest⟩ := List.head?_eq_some_iff.1 head
  simp [Engine.collected, hrest]

theorem head?_readCell {depth : Nat} (idle : e.standing c = .idle)
    (ran : e.readCell (refreshWithin depth) c true = some (o, e')) {xs : List NodeId}
    (head : e.tracking.head? = some (some xs)) :
    e'.tracking.head? = some (some (enlist c.node xs)) := by
  rw [readCell_tracked idle] at ran
  obtain ⟨⟨o, e₁⟩, hread, heq⟩ := Option.map_eq_some_iff.1 ran
  obtain ⟨-, rfl⟩ := Prod.mk.inj heq
  have htracking : e₁.tracking = e.tracking :=
    (readCell_tracking (unframed_refreshWithin depth) hread).elim id id
  exact head?_track e₁ c.node (htracking ▸ head)

/-- Two states have gone on side by side. -/
structure Advance (a b : Cell → Outcome) (M N : Naming) (pairs : Nat → Nat → Prop) (e f : Engine σ)
    (M' N' : Naming) (pairs' : Nat → Nat → Prop) (e' f' : Engine σ) : Prop where
  abreast : Abreast a b M' N' pairs' e' f'
  left : Later e M e' M'
  right : Later f N f' N'
  paired : pairs ≤ pairs'
  new : ∀ ⦃i j⦄, pairs' i j → pairs i j ∨ e.identities ≤ i ∧ f.identities ≤ j

theorem Abreast.advance_refl (h : Abreast a b M N pairs e f) :
    Advance a b M N pairs e f M N pairs e f :=
  ⟨h, .refl e M, .refl f N, le_rfl, fun _ _ => .inl⟩

theorem Advance.trans {M₁ N₁ : Naming} {pairs₁ : Nat → Nat → Prop} {e₁ f₁ : Engine σ}
    (h : Advance a b M N pairs e f M₁ N₁ pairs₁ e₁ f₁)
    (h' : Advance a b M₁ N₁ pairs₁ e₁ f₁ M' N' pairs' e' f') :
    Advance a b M N pairs e f M' N' pairs' e' f' := by
  refine ⟨h'.abreast, h.left.trans h'.left, h.right.trans h'.right, h.paired.trans h'.paired, ?_⟩
  intro i j hpair
  rcases h'.new hpair with hpair | ⟨hi, hj⟩
  · exact h.new hpair
  · exact .inr ⟨h.left.identities.trans hi, h.right.identities.trans hj⟩

theorem Advance.linked (h : Abreast a b M N pairs e f)
    (advance : Advance a b M N pairs e f M' N' pairs' e' f') :
    Linked M N pairs ≤ Linked M' N' pairs' := by
  rintro i j (⟨n, hi, hj⟩ | hpair)
  · exact .inl ⟨n, advance.left.names_le h.left.fits hi, advance.right.names_le h.right.fits hj⟩
  · exact .inr (advance.paired i j hpair)

/-- The answers of one entry match. -/
theorem matches_of_entry {o o' entry : Outcome} (h : o.Matches M.Names entry)
    (h' : o'.Matches N.Names entry) : o.Matches (Linked M N pairs) o' := by
  cases entry with
  | error fault =>
    cases o <;> cases o' <;> try contradiction
    exact Eq.trans h (Eq.symm h')
  | ok v =>
    cases o <;> cases o' <;> try contradiction
    exact Value.Matches.mono (Value.Matches.trans_symm h h') fun _ _ => .inl

/-- Reading a cell on both sides: a cell that is recorded has one entry in the two tables, and one that
is not is refused on both sides. -/
theorem Abreast.readCell (h : Abreast a b M N pairs e f) {depth : Nat}
    (ran : e.readCell (refreshWithin depth) c true = some (o, e'))
    (same : c.node ∈ e'.collected → a c = b c) :
    ∃ M' N' o' f', Advance a b M N pairs e f M' N' pairs e' f' ∧ o.Matches (Linked M' N' pairs) o' ∧
      ∃ enough, ∀ depth, enough ≤ depth → f.readCell (refreshWithin depth) c true = some (o', f') := by
  by_cases idle : e.standing c = .idle
  · obtain ⟨xs, hleft, hright⟩ := h.collecting
    obtain ⟨o₁, e₁, M', ⟨enough₁, ran₁⟩, answers, later, standing, shows⟩ := h.left.tracked idle
    obtain ⟨rfl, rfl⟩ := readCell_agree ran (ran₁ enough₁ le_rfl)
    have idle' : f.standing c = .idle := h.standing c ▸ idle
    obtain ⟨o', f', N', ⟨enough, ran'⟩, answers', later', standing', shows'⟩ := h.right.tracked idle'
    have head := head?_readCell idle ran hleft
    have head' := head?_readCell idle' (ran' enough le_rfl) hright
    rw [collected_of_head? head] at same
    rw [← same (mem_enlist.2 (.inl rfl))] at answers'
    refine ⟨M', N', o', f', ⟨⟨shows, shows', fun d => ?_, ⟨_, head, head'⟩,
      Nameless.later h.nameless later later', h.unique⟩, later, later', le_rfl, fun _ _ => .inl⟩,
      matches_of_entry answers answers', enough, ran'⟩
    rw [standing, standing', h.standing]
  · obtain ⟨rfl, rfl⟩ := Prod.mk.inj (Option.some.inj ((readCell_refused idle).symm.trans ran))
    have busy : f.standing c ≠ .idle := h.standing c ▸ idle
    refine ⟨M, N, _, f, h.advance_refl, ?_, 0, fun depth _ => readCell_refused busy⟩
    rw [h.standing]
    exact rfl

/-- Following matching values on both sides. -/
theorem Abreast.follow {M N : Naming} {e f : Engine σ} (h : Abreast a b M N pairs e f)
    {depth steps : Nat} {visited : List NodeId} {v w : Value} (values : v.Matches (Linked M N pairs) w)
    (ran : e.follow (refreshWithin depth) steps visited v = some (o, e'))
    (same : ∀ c : Cell, c.node ∈ e'.collected → a c = b c) :
    ∃ M' N' o' f', Advance a b M N pairs e f M' N' pairs e' f' ∧ o.Matches (Linked M' N' pairs) o' ∧
      f.FollowsTo visited w o' f' := by
  cases hv : v.isReactive with
  | false =>
    obtain ⟨rfl, rfl⟩ := Prod.mk.inj (Option.some.inj ((follow_plain hv).symm.trans ran))
    exact ⟨M, N, .ok w, f, h.advance_refl, values, .plain (values.isReactive ▸ hv)⟩
  | true =>
    obtain ⟨c, rfl⟩ : ∃ c, v = .cell c := by cases v <;> first | exact ⟨_, rfl⟩ | cases hv
    obtain rfl := values.eq_cell
    rw [follow_cell] at ran
    by_cases met : c.node ∈ visited
    · rw [if_pos met] at ran
      obtain ⟨rfl, rfl⟩ := Prod.mk.inj (Option.some.inj ran)
      exact ⟨M, N, .error (.reactive .cyclic), f, h.advance_refl, rfl, .met met⟩
    rw [if_neg met] at ran
    cases steps with
    | zero => cases ran
    | succ steps =>
      obtain ⟨⟨r, e₁⟩, hread, hrest⟩ := Option.bind_eq_some_iff.1 ran
      have kept : e₁.collected ⊆ e'.collected := by
        cases r with
        | error fault =>
          obtain ⟨-, rfl⟩ := Prod.mk.inj (Option.some.inj hrest)
          exact List.Subset.refl _
        | ok value => exact (follow_framed (unframed_refreshWithin depth) hrest).kept
      obtain ⟨M₁, N₁, r', f₁, advance, matching, read'⟩ :=
        h.readCell hread fun hc => same c (kept hc)
      cases r <;> cases r' <;> try contradiction
      · obtain ⟨rfl, rfl⟩ := Prod.mk.inj (Option.some.inj hrest)
        exact ⟨M₁, N₁, _, f₁, advance, matching, .fault met read'⟩
      next value value' =>
        obtain ⟨M', N', o', f', advance', matching', rest'⟩ :=
          advance.abreast.follow matching hrest same
        exact ⟨M', N', o', f', advance.trans advance', matching', .next met read' rest'⟩

/-- Giving out an identity on both sides. -/
theorem Abreast.fresh (h : Abreast a b M N pairs e f) :
    Advance a b M N pairs e f M N (NextPair pairs e f)
      { e with identities := e.identities + 1 } { f with identities := f.identities + 1 } where
  abreast := ⟨h.left.identity, h.right.identity, h.standing, h.collecting,
    Nameless.fresh h.nameless h.left.fits h.right.fits, Nameless.unique_fresh h.nameless h.unique⟩
  left := ⟨fun _ _ => rfl, Nat.le_succ _⟩
  right := ⟨fun _ _ => rfl, Nat.le_succ _⟩
  paired := fun _ _ => .inl
  new := by
    rintro i j (hpair | ⟨rfl, rfl⟩)
    · exact .inl hpair
    · exact .inr ⟨le_rfl, le_rfl⟩

/-- Running matching programs on both sides. -/
theorem Abreast.exec {R : Nat → Nat → Prop} {p q : Program σ} (matched : p.Matched R q)
    (h : Abreast a b M N pairs e f) (along : R = Linked M N pairs) {depth : Nat}
    (ran : run depth p e = some (o, e')) (same : ∀ c : Cell, c.node ∈ e'.collected → a c = b c) :
    ∃ M' N' pairs' o' f', Advance a b M N pairs e f M' N' pairs' e' f' ∧
      o.Matches (Linked M' N' pairs') o' ∧ f.Completes q o' f' := by
  induction matched generalizing M N pairs e f with
  | @done R o₁ o' ends =>
    obtain ⟨rfl, rfl⟩ := Prod.mk.inj (Option.some.inj ran)
    exact ⟨M, N, pairs, o', f, h.advance_refl, along ▸ ends, .done f o'⟩
  | @unwrap R v w next next' values rest ih =>
    obtain ⟨⟨r, e₁⟩, hfollow, hrest⟩ := Option.bind_eq_some_iff.1 ran
    have kept : e₁.collected ⊆ e'.collected :=
      (Program.exec_framed (unframed_refreshWithin depth) hrest).kept
    obtain ⟨M₁, N₁, r', f₁, advance, matching, follows⟩ :=
      h.follow (along ▸ values) hfollow fun c hc => same c (kept hc)
    obtain ⟨M', N', pairs', o', f', advance', matching', completes⟩ :=
      ih _ (along ▸ advance.linked h) advance.abreast.oneToOne r r' matching advance.abreast rfl hrest
    exact ⟨M', N', pairs', o', f', advance.trans advance', matching', follows.completes completes⟩
  | @fresh R next next' rest ih =>
    obtain ⟨M', N', pairs', o', f', advance', matching', completes⟩ :=
      ih _ (along ▸ h.fresh.linked h) h.fresh.abreast.oneToOne e.identities f.identities
        (.inr (.inr ⟨rfl, rfl⟩)) h.fresh.abreast rfl ran
    exact ⟨M', N', pairs', o', f', h.fresh.trans advance', matching', .fresh completes⟩

end Abreast

end Engine

end LiveTemplate.Reactive
