import Mathlib
import LiveTemplate.Proofs.Reactive.Chains

/-!
# Two states that show one table

Two states that show the same table answer every read alike, whatever each of them has read before: their
identities are linked by their names in the table, and identities that are given out on both sides at once
stand for each other. So two programs that follow matching values and ask for identities come to matching
ends, each in its own state (`Duo.Shows.exec`). One side can go on alone in between
(`Duo.Onward.of_left`).
-/
namespace LiveTemplate.Reactive

open Engine

variable {σ : Type}

/-- Two states with names for their identities. -/
structure Duo (σ : Type) where
  left : Engine σ
  right : Engine σ
  leftNames : Naming
  rightNames : Naming
  /-- Identities without names that stand for each other. -/
  pairs : Nat → Nat → Prop

namespace Duo

variable {table : Cell → Outcome} {d d' d₁ : Duo σ}

/-- The identities of the two states that are the same to their tables. -/
def linked (d : Duo σ) : Nat → Nat → Prop := Linked d.leftNames d.rightNames d.pairs

structure Shows (table : Cell → Outcome) (d : Duo σ) : Prop where
  left : d.left.Shows d.leftNames table
  right : d.right.Shows d.rightNames table
  nameless : Nameless d.leftNames d.rightNames d.pairs d.left d.right
  unique : OneToOne d.pairs

theorem Shows.oneToOne (h : d.Shows table) : OneToOne d.linked :=
  h.nameless.oneToOne h.left.fits h.right.fits h.unique

/-- Both sides show the table again, later on. What stands for each other since then is new on both
sides. -/
structure Onward (table : Cell → Outcome) (d d' : Duo σ) : Prop where
  shows : d'.Shows table
  left : Later d.left d.leftNames d'.left d'.leftNames
  right : Later d.right d.rightNames d'.right d'.rightNames
  paired : d.pairs ≤ d'.pairs
  new : ∀ ⦃i j⦄, d'.pairs i j → d.pairs i j ∨ d.left.identities ≤ i ∧ d.right.identities ≤ j

theorem Shows.onward_refl (h : d.Shows table) : Onward table d d :=
  ⟨h, .refl _ _, .refl _ _, le_rfl, fun _ _ => .inl⟩

theorem Onward.trans (h : Onward table d d₁) (h' : Onward table d₁ d') : Onward table d d' := by
  refine ⟨h'.shows, h.left.trans h'.left, h.right.trans h'.right, h.paired.trans h'.paired, ?_⟩
  intro i j hpair
  rcases h'.new hpair with hpair | ⟨hi, hj⟩
  · exact h.new hpair
  · exact .inr ⟨h.left.identities.trans hi, h.right.identities.trans hj⟩

theorem Onward.linked (onward : Onward table d d') (h : d.Shows table) : d.linked ≤ d'.linked := by
  rintro i j (⟨n, hi, hj⟩ | hpair)
  · exact .inl ⟨n, onward.left.names_le h.left.fits hi, onward.right.names_le h.right.fits hj⟩
  · exact .inr (onward.paired i j hpair)

/-- Both sides go on, and no identities are paired. -/
theorem Shows.later {e f : Engine σ} {M N : Naming} (h : d.Shows table) (left : e.Shows M table)
    (right : f.Shows N table) (later : Later d.left d.leftNames e M)
    (later' : Later d.right d.rightNames f N) : Onward table d ⟨e, f, M, N, d.pairs⟩ :=
  ⟨⟨left, right, h.nameless.later later later', h.unique⟩, later, later', le_rfl, fun _ _ => .inl⟩

/-- The left side has gone on alone. -/
theorem Onward.of_left (onward : Onward table d d') (h : d.Shows table) :
    Onward table d ⟨d'.left, d.right, d'.leftNames, d.rightNames, d.pairs⟩ :=
  h.later onward.shows.left h.right onward.left (.refl _ _)

/-- Reading a cell on both sides. -/
theorem Shows.read (h : d.Shows table) (c : Cell) : ∃ o o' d', d.left.Records c o d'.left ∧
    d.right.Records c o' d'.right ∧ Onward table d d' ∧ o.Matches d'.linked o' ∧
      ∀ v, o = .ok v → ∃ w, table c = .ok w := by
  obtain ⟨o, e', M', records, answers, later, shows⟩ := h.left.records c
  obtain ⟨o', f', N', records', answers', later', shows'⟩ := h.right.records c
  refine ⟨o, o', ⟨e', f', M', N', d.pairs⟩, records, records', h.later shows shows' later later',
    matches_of_entry answers answers', ?_⟩
  rintro v rfl
  cases entry : table c with
  | error => exact (entry ▸ answers :).elim
  | ok w => exact ⟨w, rfl⟩

/-- Following matching values on both sides. -/
theorem Shows.follow {d : Duo σ} (h : d.Shows table) {keys : List NodeId}
    (all : ∀ c w, table c = .ok w → c.node ∈ keys) (visited : List NodeId) {v w : Value}
    (values : v.Matches d.linked w) : ∃ o o' d', d.left.FollowsTo visited v o d'.left ∧
      d.right.FollowsTo visited w o' d'.right ∧ Onward table d d' ∧ o.Matches d'.linked o' := by
  cases hv : v.isReactive with
  | false => exact ⟨.ok v, .ok w, d, .plain hv, .plain (values.isReactive ▸ hv), h.onward_refl, values⟩
  | true =>
    obtain ⟨c, rfl⟩ : ∃ c, v = .cell c := by cases v <;> first | exact ⟨_, rfl⟩ | cases hv
    obtain rfl := values.eq_cell
    by_cases met : c.node ∈ visited
    · exact ⟨_, _, d, .met met, .met met, h.onward_refl, rfl⟩
    obtain ⟨o, o', d₁, read, read', onward, matching, entry⟩ := h.read c
    rw [records_iff] at read read'
    cases o <;> cases o' <;> try contradiction
    · exact ⟨_, _, d₁, .fault met read, .fault met read', onward, matching⟩
    next value value' =>
      obtain ⟨w, answer⟩ := entry value rfl
      have fewer := length_unmet_lt (all c w answer) met
      obtain ⟨o, o', d', rest, rest', onward', matching'⟩ :=
        onward.shows.follow all (c.node :: visited) matching
      exact ⟨o, o', d', .next met read rest, .next met read' rest', onward.trans onward', matching'⟩
termination_by (keys.filter (· ∉ visited)).length
decreasing_by exact fewer

/-- Giving out an identity on both sides. -/
theorem Shows.fresh (h : d.Shows table) : Onward table d
    ⟨{ d.left with identities := d.left.identities + 1 },
      { d.right with identities := d.right.identities + 1 }, d.leftNames, d.rightNames,
      NextPair d.pairs d.left d.right⟩ where
  shows := ⟨h.left.identity, h.right.identity, h.nameless.fresh h.left.fits h.right.fits,
    h.nameless.unique_fresh h.unique⟩
  left := ⟨fun _ _ => rfl, Nat.le_succ _⟩
  right := ⟨fun _ _ => rfl, Nat.le_succ _⟩
  paired := fun _ _ => .inl
  new := by
    rintro i j (hpair | ⟨rfl, rfl⟩)
    · exact .inl hpair
    · exact .inr ⟨le_rfl, le_rfl⟩

/-- Matching programs come to matching ends, whatever each side has read and built before. -/
theorem Shows.exec {R : Nat → Nat → Prop} {p q : Program σ} (matched : p.Matched R q)
    (h : d.Shows table) (along : R = d.linked) : ∃ o o' d', d.left.Completes p o d'.left ∧
      d.right.Completes q o' d'.right ∧ Onward table d d' ∧ o.Matches d'.linked o' := by
  induction matched generalizing d with
  | @done R o o' ends => exact ⟨o, o', d, .done _ o, .done _ o', h.onward_refl, along ▸ ends⟩
  | @unwrap R v w next next' values rest ih =>
    obtain ⟨keys, idle⟩ := d.left.exists_idle
    have all (c : Cell) (w : Value) (answer : table c = .ok w) : c.node ∈ keys :=
      idle c (h.left.reliable.idle answer)
    obtain ⟨r, r', d₁, follows, follows', onward, matching⟩ := h.follow all [] (along ▸ values)
    obtain ⟨o, o', d', completes, completes', onward', ends⟩ :=
      ih _ (along ▸ onward.linked h) onward.shows.oneToOne r r' matching onward.shows rfl
    exact ⟨o, o', d', follows.completes completes, follows'.completes completes',
      onward.trans onward', ends⟩
  | @fresh R next next' rest ih =>
    obtain ⟨o, o', d', completes, completes', onward, ends⟩ := ih _ (along ▸ h.fresh.linked h)
      h.fresh.shows.oneToOne d.left.identities d.right.identities (.inr (.inr ⟨rfl, rfl⟩))
      h.fresh.shows rfl
    exact ⟨o, o', d', .fresh completes, .fresh completes', h.fresh.trans onward, ends⟩

/-! ## From one state -/

/-- One state on both sides, where every identity that has been given out stands for itself. -/
def twice (e : Engine σ) (N : Naming) : Duo σ :=
  ⟨e, e, N, N, fun i j => i = j ∧ i < e.identities ∧ N i = none⟩

section Twice

variable {e : Engine σ} {N : Naming} {i j : Nat}

theorem shows_twice (h : e.Shows N table) : (twice e N).Shows table where
  left := h
  right := h
  nameless := by
    rintro i j ⟨rfl, given, nameless⟩
    exact ⟨nameless, given, nameless, given⟩
  unique := by
    rintro i j i' j' ⟨rfl, -⟩ ⟨rfl, -⟩
    rfl

theorem linked_twice (given : i < e.identities) : (twice e N).linked i i := by
  cases name : N i with
  | none => exact .inr ⟨rfl, given, name⟩
  | some n => exact .inl ⟨n, name, name⟩

/-- Both sides have gone on from one state: what was given out before stands for itself still, and what
was given out since stands for nothing that was given out before. -/
theorem Onward.apart (onward : Onward table (twice e N) d) (h : e.Shows N table)
    (link : d.linked i j) : i = j ∧ i < e.identities ∨ e.identities ≤ i ∧ e.identities ≤ j := by
  have linked {k : Nat} (given : k < e.identities) : d.linked k k :=
    onward.linked (shows_twice h) k k (linked_twice given)
  have left (given : i < e.identities) : i = j :=
    (onward.shows.oneToOne (linked given) link).1 rfl
  have right (given : j < e.identities) : i = j :=
    ((onward.shows.oneToOne (linked given) link).2 rfl).symm
  by_cases given : i < e.identities
  · exact .inl ⟨left given, given⟩
  · exact .inr (by grind)

end Twice

end Duo

end LiveTemplate.Reactive
