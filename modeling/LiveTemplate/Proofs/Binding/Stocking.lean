import LiveTemplate.Proofs.Binding.Shadow

/-!
# Graphs that grow

A client makes new signals and bindings, attaches sinks and writes to signals. Whatever it does, the
bodies that there are stay, and so do the signals, with other values at most (`Sheet.Within`). So what a
body may follow it may follow from then on, and a new binding, which may follow anything that there is,
gets a rank above all others (`Sheet.Stocked.grow`). The shadow of a graph with a stocked sheet is ranked
(`Graph.ranked_shadow`).
-/
namespace LiveTemplate.Reactive

variable {σ : Type} {B k k' : Nat} {rank rank' : NodeId → Nat}

namespace Sheet

variable {s t : Sheet σ} {cell : Cell} {bound : Nat}

/-- The second sheet lists the cells of the first one, though its signals can have other values. -/
structure Within (s t : Sheet σ) : Prop where
  value : ∀ {id : NodeId} {v : Value}, s.value? id = some v → ∃ w, t.value? id = some w
  body : ∀ {id : NodeId} {body : Program σ}, s.body? id = some body → t.body? id = some body

theorem Offers.grow (h : s.Offers rank bound cell) (within : s.Within t)
    (agree : ∀ {id body}, s.body? id = some body → rank' id = rank id) : t.Offers rank' bound cell := by
  obtain ⟨kind, id⟩ := cell
  cases kind with
  | signal =>
    obtain ⟨v, hv⟩ := h
    exact within.value hv
  | computed =>
    obtain ⟨lower, body, hbody, tells⟩ := h
    exact ⟨(agree hbody).symm ▸ lower, body, within.body hbody, tells⟩

theorem Stocked.grow (h : s.Stocked k rank) (within : s.Within t)
    (agree : ∀ {id body}, s.body? id = some body → rank' id = rank id) (le : k ≤ k')
    (plain : ∀ {id v}, t.value? id = some v → v.Plain k')
    (new : ∀ {id body}, t.body? id = some body → s.body? id = some body ∨
      body.Steady k' (t.Offers rank' (rank' id))) : t.Stocked k' rank' where
  plain := plain
  steady {id body} found := by
    rcases new found with old | steady
    · rw [agree old]
      exact (h.steady old).mono le fun cell offered => offered.grow within agree
    · exact steady

/-- The cells that a new binding may follow: the signals, and the computeds that show texts. -/
def Lists (s : Sheet σ) (cell : Cell) : Prop :=
  match cell.kind with
  | .signal => ∃ v, s.value? cell.node = some v
  | .computed => ∃ body, s.body? cell.node = some body ∧ body.Tells

theorem Lists.offers (h : s.Lists cell) (within : s.Within t)
    (below : ∀ {id body}, s.body? id = some body → rank' id < bound) : t.Offers rank' bound cell := by
  obtain ⟨kind, id⟩ := cell
  cases kind with
  | signal =>
    obtain ⟨v, hv⟩ := h
    exact within.value hv
  | computed =>
    obtain ⟨body, hbody, tells⟩ := h
    exact ⟨below hbody, body, within.body hbody, tells⟩

end Sheet

namespace Program

variable {V : Nat → Nat → Value → Value → Prop} {a b : Nat} {p q : Program σ}

/-- The shadow of a program reads live cells of lower rank, whatever the signals hold. -/
theorem Akin.descends {s : Sheet σ} {t : Sheet Unit} {bound : Nat}
    (akin : p.Akin B (s.Offers rank bound) V a b q)
    (value : ∀ {id v}, s.value? id = some v → ∃ w, t.value? id = some w)
    (body : ∀ {id body}, s.body? id = some body → t.body? id = some (body.shadow B B)) :
    t.Descends rank bound (q.shadow B b) := by
  induction akin with
  | done =>
    rw [shadow]
    split <;> exact .done _
  | failed => exact .done _
  | @reached a b v next next' free _ ih =>
    cases v with
    | cell => cases free
    | _ => exact ih
  | @follow a b c next next' offered _ ih =>
    obtain ⟨kind, id⟩ := c
    rw [shadow]
    cases kind with
    | signal =>
      obtain ⟨v, hv⟩ := offered
      obtain ⟨w, hw⟩ := value hv
      exact .signal hw (ih _ fun _ => plain_hear)
    | computed =>
      obtain ⟨lower, body', hbody, -⟩ := offered
      exact .computed (body hbody) lower fun r _ => ih _ fun _ => plain_hear
  | @fresh a b next next' _ ih => exact ih a b (Nat.le_refl _) (Nat.le_refl _)

end Program

namespace Graph

variable {g : Graph (Program σ)}

theorem value?_shadow {id : NodeId} {v : Value} (found : g.sheet.value? id = some v) :
    (g.shadow B).sheet.value? id = some (.text v.token) := by
  obtain ⟨n, hn, hk⟩ := value?_eq_some.1 found
  refine value?_eq_some.2 ⟨_, find_shadow hn, ?_⟩
  rw [Node.kind_recast, hk]
  rfl

theorem body?_shadow {id : NodeId} {body : Program σ} (found : g.sheet.body? id = some body) :
    (g.shadow B).sheet.body? id = some (body.shadow B B) := by
  obtain ⟨n, running, last, hn, hk⟩ := body?_eq_some.1 found
  refine body?_eq_some.2 ⟨_, running, last.map Outcome.erase, find_shadow hn, ?_⟩
  rw [Node.kind_recast, hk]
  rfl

theorem exists_body?_of_shadow {id : NodeId} {p : Program Unit}
    (found : (g.shadow B).sheet.body? id = some p) :
    ∃ body, g.sheet.body? id = some body ∧ p = body.shadow B B := by
  obtain ⟨n, running, last, hn, hk⟩ := body?_eq_some.1 found
  obtain ⟨m, hm, rfl⟩ := Option.map_eq_some_iff.1 ((node?_recast _ _ _).symm.trans hn)
  obtain ⟨kind, _, _, _, _⟩ := m
  cases kind <;> cases hk
  rename_i body _
  exact ⟨body, body?_of_kind hm rfl, rfl⟩

theorem fits_shadow (stocked : g.sheet.Stocked k rank) (bound : k ≤ B) {t : Sheet Unit}
    (revalued : (g.shadow B).sheet.Revalued t) {id : NodeId} {p : Program Unit}
    (found : t.body? id = some p) : t.Descends rank (rank id) p := by
  rw [revalued.1] at found
  obtain ⟨body, hbody, rfl⟩ := exists_body?_of_shadow found
  refine (stocked.steady hbody B B B bound (Nat.le_refl _) (Nat.le_refl _)).descends
    (fun {id v} hv => ?_) fun hb => ?_
  · rw [← Option.isSome_iff_exists, revalued.2.1 id, value?_shadow hv]
    rfl
  · rw [revalued.1]
    exact body?_shadow hb

theorem ranked_shadow (stocked : g.sheet.Stocked k rank) (bound : k ≤ B) : (g.shadow B).sheet.Ranked :=
  ⟨rank, fun _ revalued _ _ found => fits_shadow stocked bound revalued found⟩

/-- An effect that hands on what a binding shows gets an answer, whatever the signals hold. -/
theorem grounded_get (stocked : g.sheet.Stocked k rank) (bound : k ≤ B) {c : NodeId} {body : Program σ}
    (found : g.sheet.body? c = some body) :
    (g.shadow B).sheet.Grounded (.get ⟨.computed, c⟩) := by
  intro t revalued
  have hfound : t.body? c = some (body.shadow B B) := revalued.1 ▸ body?_shadow found
  obtain ⟨o, ends⟩ := Sheet.exists_ends (fun _ _ hb => fits_shadow stocked bound revalued hb) hfound
  exact ⟨_, o, .computed hfound ends (.done o)⟩

/-- The ranks of the bodies have a bound. -/
theorem exists_above (g : Graph (Program σ)) (rank : NodeId → Nat) :
    ∃ bound, ∀ {id body}, g.sheet.body? id = some body → rank id < bound := by
  obtain ⟨keys, hkeys⟩ := g.nodes.exists_keys
  obtain ⟨bound, hbound⟩ := Engine.exists_bound rank keys
  refine ⟨bound, fun {id body} found => hbound id (hkeys id ?_)⟩
  obtain ⟨n, _, _, hn, -⟩ := body?_eq_some.1 found
  exact Option.isSome_iff_exists.2 ⟨n, hn⟩

section Insert

variable {kind : NodeKind (Program σ)} {freshness : Freshness} {owner : Option ScopeId}

theorem within_insertNode (g : Graph (Program σ)) (kind : NodeKind (Program σ)) (freshness : Freshness)
    (owner : Option ScopeId) : g.sheet.Within (g.insertNode kind freshness owner).2.sheet where
  value {_ v} hv := by
    obtain ⟨n, hn, hk⟩ := value?_eq_some.1 hv
    exact ⟨v, value?_eq_some.2 ⟨n, (insertNode_live hn).2, hk⟩⟩
  body hb := by
    obtain ⟨n, _, _, hn, hk⟩ := body?_eq_some.1 hb
    exact body?_of_kind (insertNode_live hn).2 hk

theorem stocked_insertSignal (stocked : g.sheet.Stocked k rank) {v : Value} (plain : v.Plain k) :
    (g.insertNode (.signal v) freshness owner).2.sheet.Stocked k rank := by
  refine stocked.grow (within_insertNode g _ _ _) (fun _ => rfl) (Nat.le_refl _) (fun hw => ?_)
    fun hb => .inl ?_
  · rw [value?_insertNode] at hw
    split at hw
    · exact Option.some.inj hw ▸ plain
    · exact stocked.plain hw
  · rw [body?_insertNode] at hb
    split at hb
    · cases hb
    · exact hb

/-- The body of a new computed ranks above all others. -/
theorem stocked_insertComputed (stocked : g.sheet.Stocked k rank) {p : Program σ}
    (steady : p.Steady k g.sheet.Lists) :
    ∃ rank', (g.insertNode (.computed p false none) freshness owner).2.sheet.Stocked k rank' := by
  obtain ⟨bound, hbound⟩ := g.exists_above rank
  let rank' (id : NodeId) : Nat :=
    if id = (g.insertNode (.computed p false none) freshness owner).1 then bound else rank id
  have hold {id : NodeId} {body : Program σ} (hb : g.sheet.body? id = some body) : rank' id = rank id := by
    obtain ⟨n, _, _, hn, -⟩ := body?_eq_some.1 hb
    exact if_neg (insertNode_live hn).1
  have hwithin := within_insertNode g (.computed p false none) freshness owner
  refine ⟨rank', stocked.grow hwithin hold (Nat.le_refl _) (fun hw => ?_) fun {id body} hb => ?_⟩
  · rw [value?_insertNode] at hw
    split at hw
    · cases hw
    · exact stocked.plain hw
  · rw [body?_insertNode] at hb
    split at hb
    next hid =>
      obtain rfl := Option.some.inj hb
      have hnew : rank' id = bound := if_pos hid
      refine .inr (steady.mono (Nat.le_refl _) fun cell listed => ?_)
      exact hnew ▸ listed.offers hwithin fun hb => (hold hb).trans_lt (hbound hb)
    next => exact .inl hb

/-- A new node remembers nothing yet. -/
theorem Faithful.insertNode {E E' : NodeId → Program σ → Prop} (hs : g.Faithful g.sheet E)
    (blank : ∀ body running o, kind ≠ .computed body running (some o))
    (wider : ∀ {y p n}, g.node? y = some n → E y p → E' y p)
    (effect : ∀ p running, kind = .effect p running → E' (g.insertNode kind freshness owner).1 p) :
    (g.insertNode kind freshness owner).2.Faithful (g.insertNode kind freshness owner).2.sheet E' := by
  refine ⟨rfl, fun x body running o hx => ?_, fun x p running hx => ?_⟩
  all_goals
    obtain ⟨n, hn, hk⟩ := Option.map_eq_some_iff.1 hx
    rcases insertNode_origin hn with ⟨rfl, rfl⟩ | hn
  · exact absurd hk (blank _ _ _)
  · exact hs.told (by rw [hn, Option.map_some, hk])
  · exact effect p running hk
  · exact wider hn (hs.effects (by rw [hn, Option.map_some, hk]))

end Insert

end Graph

end LiveTemplate.Reactive
