import LiveTemplate.Proofs.Binding.Shadow

/-!
# Engines go along with their shadows

When the shadow of an engine of bindings has brought a computed up to date, then so has the engine, one
level of nesting deeper, and its shadow is what the shadow has come to (`Engine.refresh_mirrored`). The
statements follow the engine: what a body reads and how it runs, with a way to refresh that goes along
with its shadow; the depth enters at the end, by induction.
-/
namespace LiveTemplate.Reactive

variable {σ : Type}

namespace Engine

open Reactive.Graph

variable {B k : Nat} {s : Sheet σ} {E : NodeId → Program σ → Prop} {rank : NodeId → Nat} {e e₁ e' : Engine σ} {m m' : Engine Unit}

/-- The engine has come to have this shadow, and only its graph and the count of its identities have
changed. -/
structure Mirrored (B : Nat) (s : Sheet σ) (E : NodeId → Program σ → Prop) (e e' : Engine σ)
    (m : Engine Unit) : Prop where
  shadow : e'.shadow B = m
  faithful : e'.graph.Faithful s E
  identities : e.identities ≤ e'.identities
  host : e'.host = e.host

theorem Mirrored.refl (faithful : e.graph.Faithful s E) : Mirrored B s E e e (e.shadow B) :=
  ⟨rfl, faithful, Nat.le_refl _, rfl⟩

theorem Mirrored.trans (h : Mirrored B s E e e₁ m) (h' : Mirrored B s E e₁ e' m') : Mirrored B s E e e' m' :=
  ⟨h'.shadow, h'.faithful, h.identities.trans h'.identities, h'.host.trans h.host⟩

theorem node?_shadow {id : NodeId} {n : Node (Program σ)} (found : e.graph.node? id = some n) :
    (e.shadow B).graph.node? id = some (n.recast (shade σ B)) :=
  find_shadow found

theorem shadow_trackIf (e : Engine σ) (tracked : Bool) (id : NodeId) :
    (e.trackIf tracked id).shadow B = (e.shadow B).trackIf tracked id := by
  cases tracked with
  | false => rfl
  | true =>
    simp only [trackIf, track, if_true, Engine.shadow]
    split <;> rfl

theorem Mirrored.trackIf (h : Mirrored B s E e e' m) (tracked : Bool) (id : NodeId) :
    Mirrored B s E e (e'.trackIf tracked id) (m.trackIf tracked id) := by
  obtain ⟨tracking, heq⟩ := trackIf_eq e' tracked id
  refine ⟨by rw [shadow_trackIf, h.shadow], ?_, ?_, ?_⟩ <;> rw [heq]
  · exact h.faithful
  · exact h.identities
  · exact h.host

/-- The first way to bring computeds up to date goes along with the second, which does it to shadows. -/
def Mirrors (B k : Nat) (s : Sheet σ) (E : NodeId → Program σ → Prop)
    (refresh : NodeId → Engine σ → Option (Engine σ))
    (refresh' : NodeId → Engine Unit → Option (Engine Unit)) : Prop :=
  ∀ ⦃e : Engine σ⦄ ⦃id : NodeId⦄ ⦃body : Program σ⦄ ⦃m : Engine Unit⦄, e.graph.Faithful s E →
    k ≤ e.identities → s.body? id = some body → refresh' id (e.shadow B) = some m →
      ∃ e', refresh id e = some e' ∧ Mirrored B s E e e' m

variable {refresh : NodeId → Engine σ → Option (Engine σ)}
  {refresh' : NodeId → Engine Unit → Option (Engine Unit)}

/-! ## Reads -/

/-- A computed that is not running is brought up to date and shows what its shadow shows. -/
theorem readComputed_mirrored (mirrors : Mirrors B k s E refresh refresh') (faithful : e.graph.Faithful s E)
    (known : k ≤ e.identities) {id : NodeId} {body : Program σ} (found : s.body? id = some body)
    (idle : ∀ n, e.graph.node? id = some n → n.isRunning = false) {o : Outcome}
    (read : (e.shadow B).readCell refresh' ⟨.computed, id⟩ true = some (o, m)) :
    ∃ o' e', e.readCell refresh ⟨.computed, id⟩ true = some (o', e') ∧ o'.erase = o ∧
      m.graph.shown id = o ∧
      (∀ v, o' = .ok v → v.Proper ∧ (body.Tells → v = .undefined ∨ ∃ t, v = .text t)) ∧
      Mirrored B s E e e' m := by
  obtain ⟨⟨_, f, sources, subscribers, owner⟩, running, last, hn, rfl⟩ :=
    body?_eq_some.1 (faithful.sheet ▸ found)
  obtain rfl : running = false := idle _ hn
  have hn' := node?_shadow (B := B) hn
  simp only [Node.recast, NodeKind.recast] at hn'
  simp only [readCell, hn'] at read
  obtain ⟨m₁, hm, heq⟩ := Option.map_eq_some_iff.1 read
  obtain ⟨rfl, rfl⟩ := Prod.mk.inj heq
  obtain ⟨e₁, he, hmirrored⟩ := mirrors faithful known found hm
  obtain rfl := hmirrored.shadow
  obtain ⟨⟨_, f₁, sources₁, subscribers₁, owner₁⟩, running₁, last₁, hn₁, rfl⟩ :=
    body?_eq_some.1 (hmirrored.faithful.sheet ▸ found)
  have hn₁' := node?_shadow (B := B) hn₁
  simp only [Node.recast, NodeKind.recast] at hn₁'
  have hread : e.readCell refresh ⟨.computed, id⟩ true =
      some (e₁.shownOutcome id, e₁.trackIf true id) := by
    simp only [readCell, hn, he, Option.map_some]
  refine ⟨_, _, hread, ?_, ?_, fun v hv => ?_, hmirrored.trackIf true id⟩
  · simp only [shownOutcome, hn₁, hn₁']
    cases last₁ <;> rfl
  · rw [graph_trackIf, shown_eq hn₁']
    simp only [shownOutcome, hn₁']
    cases last₁ <;> rfl
  · simp only [shownOutcome, hn₁] at hv
    obtain _ | o := last₁
    · obtain rfl := Except.ok.inj hv
      exact ⟨.undefined, fun _ => .inl rfl⟩
    · have hkind : (e₁.graph.node? id).map (·.kind) = some (.computed body running₁ (some o)) := by
        rw [hn₁]; rfl
      obtain ⟨proper, told⟩ := hmirrored.faithful.told hkind v hv
      exact ⟨proper, fun tells => .inr (told tells)⟩

theorem read_mirrored (mirrors : Mirrors B k s E refresh refresh') (stocked : s.Stocked k rank)
    (bound : k ≤ B) (faithful : e.graph.Faithful s E) (known : k ≤ e.identities) {cell : Cell} {r : Nat}
    (offered : s.Offers rank r cell) {o : Outcome}
    (read : (e.shadow B).readCell refresh' cell true = some (o, m)) :
    ∃ e', e.readCell refresh cell true = some (hear B cell.kind o, e') ∧
      (∀ v, hear B cell.kind o = .ok v → v.Plain k) ∧ Mirrored B s E e e' m := by
  obtain ⟨kind, id⟩ := cell
  cases kind with
  | signal =>
    obtain ⟨v, hv⟩ := offered
    obtain ⟨⟨_, f, sources, subscribers, owner⟩, hn, rfl⟩ := value?_eq_some.1 (faithful.sheet ▸ hv)
    have hn' := node?_shadow (B := B) hn
    simp only [Node.recast, NodeKind.recast] at hn'
    simp only [readCell, hn', Option.some.injEq, Prod.mk.injEq] at read
    obtain ⟨rfl, rfl⟩ := read
    have hplain := (stocked.plain hv).mono bound fun _ h => h
    refine ⟨e.trackIf true id, ?_, fun w hw => ?_, (Mirrored.refl faithful).trackIf true id⟩
    · simp only [readCell, hn, shade, hear_token hplain]
    · rw [shade, hear_token hplain] at hw
      exact Except.ok.inj hw ▸ stocked.plain hv
  | computed =>
    obtain ⟨-, body, hbody, tells⟩ := offered
    obtain ⟨n, running, last, hn, hkind⟩ := body?_eq_some.1 (faithful.sheet ▸ hbody)
    cases running with
    | true =>
      have hn' := node?_shadow (B := B) hn
      obtain ⟨_, f, sources, subscribers, owner⟩ := n
      subst hkind
      simp only [Node.recast, NodeKind.recast] at hn'
      simp only [readCell, hn', Option.some.injEq, Prod.mk.injEq] at read
      obtain ⟨rfl, rfl⟩ := read
      exact ⟨e, by simp only [readCell, hn, hear], (fun _ h => by cases h), .refl faithful⟩
    | false =>
      have hidle (n' : Node (Program σ)) (hn' : e.graph.node? id = some n') : n'.isRunning = false := by
        obtain rfl := Option.some.inj (hn.symm.trans hn')
        simp [Node.isRunning, hkind]
      obtain ⟨o', e', hread, rfl, -, fit, hmirrored⟩ :=
        readComputed_mirrored mirrors faithful known hbody hidle read
      have htold := fun v hv => (fit v hv).2 tells
      exact ⟨e', by rw [erase_of_told htold, hear_told htold, hread], fun _ => plain_hear_computed,
        hmirrored⟩

/-! ## Runs -/

theorem follow_settled {steps : Nat} {c : Cell} {o : Outcome}
    (read : e.readCell refresh c true = some (o, e')) (plain : ∀ v, o = .ok v → v.isReactive = false) :
    e.follow refresh (steps + 1) [] (.cell c) = some (o, e') := by
  rw [follow_read List.not_mem_nil read]
  cases o with
  | error fault => rfl
  | ok v => exact follow_plain (plain v rfl)

theorem isReactive_of_plain {v : Value} (plain : v.Plain k) : v.isReactive = false := by
  cases plain with
  | cell h => exact h.elim
  | _ => rfl

/-- A body runs as its shadow does, if the identities that it is given are new. -/
theorem exec_mirrored (mirrors : Mirrors B k s E refresh refresh') (stocked : s.Stocked k rank)
    (bound : k ≤ B) {depth r a b : Nat} {p q : Program σ}
    (akin : p.Akin k (s.Offers rank r) (fun _ _ v w => v.erase = w.erase ∧ v.Proper ∧ w.Proper) a b q)
    (faithful : e.graph.Faithful s E) (known : k ≤ a) (later : a ≤ e.identities) {o : Outcome}
    (ran : (q.shadow B b).exec depth refresh' (e.shadow B) = some (o, m)) :
    ∃ o' e', p.exec (depth + 1) refresh e = some (o', e') ∧ o'.erase = o ∧
      (∀ v, o' = .ok v → v.Proper) ∧ Mirrored B s E e e' m := by
  induction akin generalizing e with
  | @done a b v w related =>
    obtain ⟨content, left, right⟩ := related
    rw [Program.shadow, if_pos right, Program.exec, Option.some.injEq, Prod.mk.injEq] at ran
    obtain ⟨rfl, rfl⟩ := ran
    refine ⟨.ok v, e, rfl, by rw [Outcome.erase, content], ?_, .refl faithful⟩
    rintro _ ⟨⟩
    exact left
  | failed fault =>
    obtain ⟨rfl, rfl⟩ := Prod.mk.inj (Option.some.inj ran)
    exact ⟨.error fault, e, rfl, rfl, (fun _ h => by cases h), .refl faithful⟩
  | @reached a b v next next' free _ ih =>
    have hshadow : (Program.unwrap v next').shadow B b = (next' (.ok v)).shadow B b := by
      cases v with
      | cell c => cases free
      | _ => rfl
    rw [hshadow] at ran
    obtain ⟨o', e', hran, hrest⟩ := ih faithful known later ran
    refine ⟨o', e', ?_, hrest⟩
    rw [Program.exec, follow_plain free]
    exact hran
  | @follow a b c next next' offered _ ih =>
    rw [Program.shadow, Program.exec] at ran
    obtain ⟨⟨answer, m₁⟩, hread, hnext⟩ := Option.bind_eq_some_iff.1 ran
    obtain ⟨e₁, hread', plain, hmirrored⟩ := read_mirrored mirrors stocked bound faithful
      (known.trans later) offered hread
    obtain rfl := hmirrored.shadow
    obtain ⟨o', e', hran, hend, hproper, hmirrored'⟩ := ih _ plain hmirrored.faithful known
      (later.trans hmirrored.identities) hnext
    refine ⟨o', e', ?_, hend, hproper, hmirrored.trans hmirrored'⟩
    rw [Program.exec, follow_settled hread' fun v hv => isReactive_of_plain (plain v hv)]
    exact hran
  | fresh _ ih =>
    rw [Program.shadow] at ran
    obtain ⟨o', e', hran, hend, hproper, hmirrored⟩ := ih e.identities _ later (Nat.le_refl _)
      (e := { e with identities := e.identities + 1 }) faithful (by omega) (Nat.le_refl _) ran
    exact ⟨o', e', hran, hend, hproper, hmirrored.shadow, hmirrored.faithful,
      (Nat.le_succ _).trans hmirrored.identities, hmirrored.host⟩

theorem shadow_beginRun (e : Engine σ) (id : NodeId) (kind : NodeKind (Program σ)) :
    (e.beginRun id kind).shadow B = (e.shadow B).beginRun id (kind.recast (shade σ B)) := by
  simp only [Engine.shadow, beginRun, pushFrame]
  congr 1
  exact (begun_recast _ _ id kind).symm

theorem shadow_storeOutcome (e : Engine σ) (id : NodeId) (o : Outcome) :
    ((e.closeRun id).storeOutcome id o).shadow B =
      ((e.shadow B).closeRun id).storeOutcome id o.erase := by
  rw [storeOutcome_closeRun, storeOutcome_closeRun]
  simp only [Engine.shadow]
  congr 1
  exact (finished_recast (shade σ B) e.graph id e.collected o).symm

theorem run_mirrored (mirrors : Mirrors B k s E refresh refresh') (stocked : s.Stocked k rank)
    (bound : k ≤ B) {depth : Nat} (faithful : e.graph.Faithful s E) (known : k ≤ e.identities)
    {id : NodeId} {body : Program σ} (found : s.body? id = some body)
    (ran : runNode depth refresh' id (e.shadow B) = some m) :
    ∃ e', runNode (depth + 1) refresh id e = some e' ∧ Mirrored B s E e e' m := by
  obtain ⟨n, running, last, hn, hkind⟩ := body?_eq_some.1 (faithful.sheet ▸ found)
  have hbegun (idle : running = false) := faithful.begun hn (idle ▸ hkind)
  obtain ⟨_, f, sources, subscribers, owner⟩ := n
  subst hkind
  have hn' := node?_shadow (B := B) hn
  simp only [Node.recast, NodeKind.recast] at hn'
  cases running with
  | true =>
    simp only [runNode, hn', Option.some.injEq] at ran
    exact ⟨e, by simp only [runNode, hn], ran ▸ .refl faithful⟩
  | false =>
    simp only [runNode, hn'] at ran
    obtain ⟨⟨o, m₁⟩, hran, rfl⟩ := Option.map_eq_some_iff.1 ran
    have hshadow := shadow_beginRun (B := B) e id (.computed body true last)
    simp only [NodeKind.recast] at hshadow
    rw [← hshadow] at hran
    obtain ⟨o', e₁, hran', rfl, hproper, hmirrored⟩ := exec_mirrored mirrors stocked bound
      (stocked.steady found k e.identities B (Nat.le_refl _) known bound)
      (e := e.beginRun id (.computed body true last)) (hbegun rfl) known (Nat.le_refl _) hran
    refine ⟨(e₁.closeRun id).storeOutcome id o', by simp only [runNode, hn, hran', Option.map_some],
      ?_, ?_, ?_, ?_⟩
    · rw [shadow_storeOutcome, hmirrored.shadow]
    all_goals rw [storeOutcome_closeRun]
    · refine hmirrored.faithful.finished found (fun v hv => ⟨hproper v hv, fun tells => ?_⟩) _
      exact tells (hv ▸ hran')
    · exact hmirrored.identities
    · exact hmirrored.host

theorem ask_mirrored (mirrors : Mirrors B k s E refresh refresh') (faithful : e.graph.Faithful s E)
    (known : k ≤ e.identities) {id : NodeId} {sources : List NodeId}
    (asked : askSources refresh' id sources (e.shadow B) = some m) :
    ∃ e', askSources refresh id sources e = some e' ∧ Mirrored B s E e e' m := by
  induction sources generalizing e with
  | nil =>
    obtain rfl := Option.some.inj asked
    exact ⟨e, rfl, .refl faithful⟩
  | cons source rest ih =>
    rw [askSources] at asked
    obtain ⟨m₁, hfirst, hrest⟩ := Option.bind_eq_some_iff.1 asked
    have hidle : ((e.shadow B).graph.node? source).any Node.isIdleComputed =
        (e.graph.node? source).any Node.isIdleComputed := anyIdleComputed_recast _ _ _
    obtain ⟨e₁, hfirst', hmirrored⟩ : ∃ e₁, (if (e.graph.node? source).any Node.isIdleComputed then
        refresh source e else some e) = some e₁ ∧ Mirrored B s E e e₁ m₁ := by
      rw [hidle] at hfirst
      split at hfirst
      next hcase =>
        rw [if_pos hcase]
        obtain ⟨n, body, last, hn, hkind⟩ := node_of_isIdleComputed hcase
        exact mirrors faithful known (faithful.sheet ▸ body?_of_kind hn hkind) hfirst
      next hcase =>
        obtain rfl := Option.some.inj hfirst
        exact ⟨e, if_neg hcase, .refl faithful⟩
    obtain rfl := hmirrored.shadow
    have hfresh : (e₁.shadow B).graph.freshness? id = e₁.graph.freshness? id :=
      freshness?_recast _ _ _
    rw [askSources, hfirst', Option.bind_some]
    rw [hfresh] at hrest
    split at hrest
    next hdirty =>
      obtain rfl := Option.some.inj hrest
      exact ⟨e₁, if_pos hdirty, hmirrored⟩
    next hdirty =>
      obtain ⟨e', hrest', hmirrored'⟩ := ih hmirrored.faithful (known.trans hmirrored.identities) hrest
      exact ⟨e', (if_neg hdirty).trans hrest', hmirrored.trans hmirrored'⟩

theorem freshness?_shadow (e : Engine σ) (id : NodeId) :
    (e.shadow B).graph.freshness? id = e.graph.freshness? id :=
  freshness?_recast _ _ _

theorem shadow_setFreshness (g : Graph (Program σ)) (id : NodeId) (f : Freshness) :
    (g.setFreshness id f).shadow B = (g.shadow B).setFreshness id f :=
  (setFreshness_recast _ g id f).symm

theorem askStale_mirrored (mirrors : Mirrors B k s E refresh refresh') (faithful : e.graph.Faithful s E)
    (known : k ≤ e.identities) {id : NodeId} (asked : askStale refresh' id (e.shadow B) = some m) :
    ∃ e', askStale refresh id e = some e' ∧ Mirrored B s E e e' m := by
  have hnode : (e.shadow B).graph.node? id = (e.graph.node? id).map (Node.recast (shade σ B)) :=
    node?_recast _ _ _
  unfold askStale at asked ⊢
  rw [hnode] at asked
  cases hn : e.graph.node? id with
  | none =>
    rw [hn] at asked
    obtain rfl := Option.some.inj asked
    exact ⟨e, rfl, .refl faithful⟩
  | some n =>
    rw [hn] at asked
    replace asked : (if n.freshness = .stale then askSources refresh' id n.sources (e.shadow B) else
      some (e.shadow B)) = some m := asked
    simp only
    by_cases hstale : n.freshness = .stale
    · rw [if_pos hstale] at asked ⊢
      exact ask_mirrored mirrors faithful known asked
    · rw [if_neg hstale] at asked ⊢
      obtain rfl := Option.some.inj asked
      exact ⟨e, rfl, .refl faithful⟩

theorem refreshOver_mirrored (mirrors : Mirrors B k s E refresh refresh') (stocked : s.Stocked k rank)
    (bound : k ≤ B) (depth : Nat) :
    Mirrors B k s E (refreshOver (depth + 1) refresh) (refreshOver depth refresh') := by
  intro e id body m faithful known found refreshed
  rw [refreshOver_eq] at refreshed ⊢
  obtain ⟨m₁, hasked, hrest⟩ := Option.bind_eq_some_iff.1 refreshed
  obtain ⟨e₁, hasked', hmirrored⟩ := askStale_mirrored mirrors faithful known hasked
  obtain rfl := hmirrored.shadow
  rw [hasked', Option.bind_some]
  rw [freshness?_shadow] at hrest
  rcases hfresh : e₁.graph.freshness? id with _ | _ | _ | _ <;> simp only [hfresh] at hrest ⊢
  · obtain rfl := Option.some.inj hrest
    exact ⟨e₁, rfl, hmirrored⟩
  · obtain rfl := Option.some.inj hrest
    exact ⟨e₁, rfl, hmirrored⟩
  · obtain rfl := Option.some.inj hrest
    refine ⟨_, rfl, ?_, hmirrored.faithful.setFreshness id .clean, hmirrored.identities, hmirrored.host⟩
    simp only [Engine.shadow, shadow_setFreshness]
  · obtain ⟨e', hran, hmirrored'⟩ := run_mirrored mirrors stocked bound hmirrored.faithful
      (known.trans hmirrored.identities) found hrest
    exact ⟨e', hran, hmirrored.trans hmirrored'⟩

/-- Bringing a computed up to date goes along with bringing its shadow up to date. -/
theorem refresh_mirrored (stocked : s.Stocked k rank) (bound : k ≤ B) (depth : Nat) :
    Mirrors B k s E (refreshWithin (depth + 1)) (refreshWithin depth) := by
  induction depth with
  | zero => exact fun _ _ _ _ _ _ _ h => nomatch h
  | succ depth ih => exact refreshOver_mirrored ih stocked bound depth

end Engine

end LiveTemplate.Reactive
