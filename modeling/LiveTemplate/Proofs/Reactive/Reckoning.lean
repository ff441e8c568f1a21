import LiveTemplate.Proofs.Binding.Steadiness
import LiveTemplate.Proofs.Reactive.Coherence

/-!
# Programs reckoned on given values

A program that only follows signals and asks for identities can be reckoned without an engine, from
what the signals hold and from the first identity it is given. An engine that holds the same runs it to
the same outcome and records the signals that it follows (`Program.Reckons.exec`). Only what these hold
counts (`Program.Reckons.congr`), and a steady program comes to the same content whatever identities it
is given (`Program.Akin.reckons`).
-/
namespace LiveTemplate.Reactive

/-- What each signal holds. -/
abbrev Holdings := NodeId → Option Value

namespace Program

variable {σ : Type} {held held' : Holdings} {p q : Program σ} {cs ds : List Cell} {o o' : Outcome}
  {i j i' j' : Nat}

/-- The cells that a program follows and its outcome, between the first identity that it is given and
the first that is left after it. -/
inductive Reckons (held : Holdings) : Program σ → Nat → List Cell → Outcome → Nat → Prop where
  | done (o : Outcome) (i : Nat) : Reckons held (.done o) i [] o i
  | reached {v : Value} {next : Outcome → Program σ} {cs : List Cell} {o : Outcome} {i j : Nat}
      (free : v.isReactive = false) (rest : Reckons held (next (.ok v)) i cs o j) :
      Reckons held (unwrap v next) i cs o j
  | follow {id : NodeId} {v : Value} {next : Outcome → Program σ} {cs : List Cell} {o : Outcome}
      {i j : Nat} (found : held id = some v) (rest : Reckons held (next (.ok v)) i cs o j) :
      Reckons held (unwrap (.signal id) next) i (⟨.signal, id⟩ :: cs) o j
  | fresh {next : Nat → Program σ} {cs : List Cell} {o : Outcome} {i j : Nat}
      (rest : Reckons held (next i) (i + 1) cs o j) : Reckons held (fresh next) i cs o j

theorem Reckons.functional (h : p.Reckons held i cs o j) (h' : p.Reckons held i ds o' j') :
    cs = ds ∧ o = o' ∧ j = j' := by
  induction h generalizing ds with
  | done => cases h'; exact ⟨rfl, rfl, rfl⟩
  | reached free _ ih => cases h' with
    | reached _ rest => exact ih rest
    | follow => cases free
  | follow found _ ih => cases h' with
    | reached free => cases free
    | follow found' rest =>
      obtain rfl := Option.some.inj (found.symm.trans found')
      obtain ⟨rfl, same⟩ := ih rest
      exact ⟨rfl, same⟩
  | fresh _ ih => cases h' with
    | fresh rest => exact ih rest

/-- Only what the followed signals hold counts. -/
theorem Reckons.congr (h : p.Reckons held i cs o j)
    (same : ∀ c ∈ cs, held' c.node = held c.node) : p.Reckons held' i cs o j := by
  induction h with
  | done => exact .done _ _
  | reached free _ ih => exact .reached free (ih same)
  | follow found _ ih =>
    obtain ⟨hfirst, hrest⟩ := List.forall_mem_cons.1 same
    exact .follow (hfirst.trans found) (ih hrest)
  | fresh _ ih => exact .fresh (ih same)

theorem Reckons.bind {v : Value} {f : Value → Program σ} (h : p.Reckons held i cs (.ok v) j)
    (next : (f v).Reckons held j ds o i') : (p.bind f).Reckons held i (cs ++ ds) o i' := by
  generalize ho : Except.ok v = r at h
  induction h with
  | done => subst ho; exact next
  | reached free _ ih => exact .reached free (ih next ho)
  | follow found _ ih => exact .follow found (ih next ho)
  | fresh _ ih => exact .fresh (ih next ho)

/-- The identities that are left come after those that were there. -/
theorem Reckons.le (h : p.Reckons held i cs o j) : i ≤ j := by
  induction h with
  | done => exact le_rfl
  | reached _ _ ih | follow _ _ ih => exact ih
  | fresh _ ih => exact (Nat.le_succ _).trans ih

/-- What is followed are live signals. -/
theorem Reckons.live (h : p.Reckons held i cs o j) :
    ∀ c ∈ cs, c.kind = .signal ∧ ∃ v, held c.node = some v := by
  induction h with
  | done => simp
  | reached _ _ ih | fresh _ ih => exact ih
  | follow found _ ih => exact List.forall_mem_cons.2 ⟨⟨rfl, _, found⟩, ih⟩

section Akin

variable {k a b : Nat} {offers : Cell → Prop} {V : Nat → Nat → Value → Value → Prop}

/-- How two programs are reckoned that follow the same cells. -/
theorem Akin.reckons (h : p.Akin k offers V a b q)
    (live : ∀ c, offers c → c.kind = .signal ∧ ∃ v, held c.node = some v ∧ v.Plain k)
    (left : a ≤ i) (right : b ≤ j) :
    ∃ cs o o' i' j', p.Reckons held i cs o i' ∧ q.Reckons held j cs o' j' ∧
      ((∃ v w a' b', o = .ok v ∧ o' = .ok w ∧ V a' b' v w) ∨
        ∃ fault, o = .error fault ∧ o' = .error fault) := by
  induction h generalizing i j with
  | done related =>
    exact ⟨_, _, _, _, _, .done _ _, .done _ _, .inl ⟨_, _, _, _, rfl, rfl, related⟩⟩
  | failed fault => exact ⟨_, _, _, _, _, .done _ _, .done _ _, .inr ⟨fault, rfl, rfl⟩⟩
  | reached free _ ih =>
    obtain ⟨_, _, _, _, _, hp, hq, ends⟩ := ih left right
    exact ⟨_, _, _, _, _, .reached free hp, .reached free hq, ends⟩
  | @follow _ _ c _ _ offered _ ih =>
    obtain ⟨kind, id⟩ := c
    obtain ⟨rfl, u, hu, plain⟩ := live _ offered
    obtain ⟨_, _, _, _, _, hp, hq, ends⟩ :=
      ih (.ok u) (fun _ h => Except.ok.inj h ▸ plain) left right
    exact ⟨_, _, _, _, _, .follow hu hp, .follow hu hq, ends⟩
  | fresh _ ih =>
    obtain ⟨_, _, _, _, _, hp, hq, ends⟩ := ih i j left right le_rfl le_rfl
    exact ⟨_, _, _, _, _, .fresh hp, .fresh hq, ends⟩

end Akin

/-! ## On an engine -/

section Engine

open Engine

variable {e : Engine σ} {seen : List NodeId} {rest : List (Option (List NodeId))} {depth : Nat}
  {refresh : NodeId → Engine σ → Option (Engine σ)}

theorem readCell_signal {id : NodeId} {v : Value} (found : e.graph.sheet.value? id = some v)
    (tracked : Bool) :
    e.readCell refresh ⟨.signal, id⟩ tracked = some (.ok v, e.trackIf tracked id) := by
  obtain ⟨⟨kind, _, _, _, _⟩, hn, rfl⟩ := Graph.value?_eq_some.1 found
  simp only [readCell, hn]

theorem follow_signal {id : NodeId} {v : Value} (found : e.graph.sheet.value? id = some v)
    (plain : v.isReactive = false) :
    e.follow refresh (depth + 1) [] (.signal id) = some (.ok v, e.track id) := by
  rw [Value.signal, follow_read (by simp) (readCell_signal found true)]
  exact follow_plain plain

/-- An engine with the same values runs a program as it is reckoned. -/
theorem Reckons.exec (h : p.Reckons e.graph.sheet.value? i cs o j)
    (plain : ∀ id v, e.graph.sheet.value? id = some v → v.isReactive = false)
    (frame : e.tracking = some seen :: rest) (identities : e.identities = i) :
    p.exec (depth + 1) refresh e =
      some (o, { e with tracking := some (record seen cs) :: rest, identities := j }) := by
  generalize hheld : e.graph.sheet.value? = held at h
  induction h generalizing e seen with
  | done o i =>
    subst identities
    rw [Program.exec, record_nil, ← frame]
  | reached free _ ih =>
    rw [Program.exec, follow_plain free]
    exact ih plain frame identities hheld
  | @follow id v next cs o i j found _ ih =>
    have hvalue : e.graph.sheet.value? id = some v := hheld ▸ found
    have htrack : e.track id = { e with tracking := some (enlist id seen) :: rest } := by
      rw [track, frame]
    rw [Program.exec, follow_signal hvalue (plain _ _ hvalue), htrack]
    exact ih (e := { e with tracking := some (enlist id seen) :: rest }) plain rfl identities hheld
  | fresh _ ih =>
    subst identities
    rw [Program.exec]
    exact ih (e := { e with identities := e.identities + 1 }) plain frame rfl hheld

end Engine

end Program

end LiveTemplate.Reactive
