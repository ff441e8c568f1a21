import LiveTemplate.Proofs.Reactive.Nodes

/-!
# Effects that do not miss a change

An effect minds a source if a mark on the source is going to reach it (`Graph.Minds`): while the
effect is clean, the source is settled. It heeds a reading (`Graph.Heeds`) if it is going to notice
when the cell changes: it minds the cell and, unless it is dirty, the cell still shows what the
effect saw.

Which readings are to be heeded is a matter of the journal (`Duty`): those of the last sighting of an
effect, say. A run replaces what its effect is to heed by what it saw, and everything else that
happens to the graph leaves heeded what was.
-/
namespace LiveTemplate.Reactive

/-- What an effect saw in its last run. -/
def Journal.latest (journal : Journal) (label : Nat) : List Reading :=
  ((journal.filter fun s => s.label = label).getLast?.map (·.readings)).getD []

theorem Journal.latest_append (journal : Journal) (s : Sighting) (label : Nat) :
    latest (journal ++ [s]) label = if s.label = label then s.readings else latest journal label := by
  unfold latest
  split
  next h => simp [List.filter_append, h]
  next h => simp [List.filter_append, h]

theorem Journal.mem_latest {journal : Journal} {label : Nat} {r : Reading}
    (h : r ∈ journal.latest label) : ∃ s ∈ journal, s.label = label ∧ r ∈ s.readings := by
  unfold latest at h
  cases hlast : (journal.filter fun s => s.label = label).getLast? with
  | none => simp [hlast] at h
  | some s =>
    have hmem := List.mem_of_getLast? hlast
    simp only [List.mem_filter, decide_eq_true_eq] at hmem
    exact ⟨s, hmem.1, hmem.2, by simpa [hlast] using h⟩

/-- What did not run since saw last what it saw last before. -/
theorem Journal.latest_of_unseen {journal recs : Journal} {label : Nat}
    (unseen : ∀ s ∈ recs, s.label ≠ label) :
    latest (journal ++ recs) label = latest journal label := by
  have hnone : recs.filter (fun s => s.label = label) = [] :=
    List.filter_eq_nil_iff.2 fun s hs => by simpa using unseen s hs
  simp [latest, List.filter_append, hnone]

/-- Of which effects, named by their labels, which readings are to be heeded. A sighting replaces
those of its effect. -/
structure Duty where
  owes : Journal → Nat → Reading → Prop
  base : Journal
  append : ∀ {journal : Journal} {s : Sighting} {label : Nat} {r : Reading}, base <+: journal →
    owes (journal ++ [s]) label r →
      s.label = label ∧ r ∈ s.readings ∨ s.label ≠ label ∧ owes journal label r

/-- Every effect is to heed what it saw last. -/
def Duty.latest : Duty where
  owes journal label r := r ∈ journal.latest label
  base := []
  append {journal s label r} _ h := by
    rw [Journal.latest_append] at h
    split at h
    next hlabel => exact .inl ⟨hlabel, h⟩
    next hlabel => exact .inr ⟨hlabel, h⟩

/-- One effect is to heed one reading until it runs. -/
def Duty.single (base : Journal) (label : Nat) (r : Reading) : Duty where
  owes journal label' r' :=
    label' = label ∧ r' = r ∧ ∃ recs, journal = base ++ recs ∧ ∀ s ∈ recs, s.label ≠ label
  base := base
  append {journal s label' r'} started h := by
    obtain ⟨rfl, rfl, recs, hrecs, hnone⟩ := h
    obtain ⟨recs', rfl⟩ := started
    obtain rfl : recs' ++ [s] = recs := List.append_cancel_left (by rw [← hrecs, List.append_assoc])
    refine .inr ⟨hnone s (by simp), rfl, rfl, recs', rfl, fun s' hs' => hnone s' (by simp [hs'])⟩

namespace Graph

/-- The effect recorded the source, and a mark on the source is going to reach it. -/
structure Minds (g : Graph (Program Journal)) (id s : NodeId) : Prop where
  source : ∀ {n : Node (Program Journal)}, g.node? id = some n → s ∈ n.sources
  settled : ∀ {n : Node (Program Journal)}, g.node? id = some n → n.freshness = .clean → g.Settled s

/-- The effect is going to notice if the cell changes from what the effect saw. -/
structure Heeds (g : Graph (Program Journal)) (id : NodeId) (r : Reading) : Prop
    extends g.Minds id r.cell.node where
  holds : g.sheet.Holds r.cell
  alike : ∀ {n : Node (Program Journal)}, g.node? id = some n → n.freshness ≠ .dirty →
    (g.shown r.cell.node).Alike r.outcome

/-- The effect heeds the reading, or there was nothing to read and there is not now. -/
def Answers (g : Graph (Program Journal)) (id : NodeId) (r : Reading) : Prop :=
  g.Heeds id r ∨ ¬g.sheet.Holds r.cell ∧ r.outcome = Outcome.gone r.cell.kind

/-- All that is owed to a journal is heeded. -/
def Pays (D : Duty) (g : Graph (Program Journal)) (journal : Journal) : Prop :=
  ∀ {id : NodeId} {label : Nat} {r : Reading}, g.EffectAt id label → D.owes journal label r →
    g.Answers id r

/-- Every effect minds all its sources. -/
def Minding (g : Graph (Program Journal)) : Prop :=
  ∀ {x s : NodeId} {n : Node (Program Journal)}, g.node? x = some n → n.isEffect = true →
    s ∈ n.sources → g.Minds x s

/-- The live cells of what an effect saw last are among its sources. -/
def Recalls (g : Graph (Program Journal)) (journal : Journal) : Prop :=
  ∀ {id : NodeId} {label : Nat} {r : Reading}, g.EffectAt id label → r ∈ journal.latest label →
    g.sheet.Holds r.cell → ∀ {n : Node (Program Journal)}, g.node? id = some n →
      r.cell.node ∈ n.sources

/-- Every late effect is queued, but for one. -/
def QueuesBut (g : Graph (Program Journal)) (id : Option NodeId) : Prop :=
  ∀ {x : NodeId} {n : Node (Program Journal)}, g.node? x = some n → n.isEffect = true →
    n.freshness ≠ .clean → x ∈ g.pending ∨ some x = id

variable {mode : Bool → Prop} {D : Duty} {g h : Graph (Program Journal)} {id : NodeId} {r : Reading}

theorem EffectAt.label_unique {label label' : Nat} (h : g.EffectAt id label)
    (h' : g.EffectAt id label') : label = label' := by
  obtain ⟨n, p, running, hn, hk⟩ := h
  obtain ⟨n', p', running', hn', hk'⟩ := h'
  obtain rfl := Option.some.inj (hn.symm.trans hn')
  obtain ⟨hbody, -⟩ := NodeKind.effect.inj (hk.symm.trans hk')
  exact Program.watched_label hbody

theorem EffectAt.not_computes {label : Nat} (h : g.EffectAt id label) : ¬g.sheet.Computes id := by
  obtain ⟨n, p, running, hn, hk⟩ := h
  rintro ⟨body, hbody⟩
  simp [sheet, hn, hk, NodeKind.formula?] at hbody

theorem Answers.congr (ha : g.Answers id r) (sheet : h.sheet = g.sheet)
    (heeds : g.Heeds id r → h.Heeds id r) : h.Answers id r :=
  ha.imp heeds fun ⟨gone, outcome⟩ => ⟨sheet ▸ gone, outcome⟩

/-! ## Bringing nodes up to date -/

theorem Refreshed.kept {P : NodeId → Prop} (hr : g.Refreshed P h) (far : ¬P id)
    {m : Node (Program Journal)} (hm : h.node? id = some m) : ∃ n, g.node? id = some n ∧ n.Kept m := by
  obtain ⟨n, hn, hkept | ⟨hp, -⟩⟩ := hr.origin hm
  · exact ⟨n, hn, hkept⟩
  · exact absurd hp far

theorem Minds.refreshed {P : NodeId → Prop} {s : NodeId} (hh : g.Minds id s)
    (hr : g.Refreshed P h) (far : ¬P id) : h.Minds id s := by
  refine ⟨fun hm => ?_, fun hm hclean => ?_⟩
  · obtain ⟨n, hn, hk⟩ := hr.kept far hm
    exact hk.sources ▸ hh.source hn
  · obtain ⟨n, hn, hk⟩ := hr.kept far hm
    exact hr.settled (hh.settled hn (hk.clean_iff.1 hclean))

theorem Heeds.refreshed {P : NodeId → Prop} (hh : g.Heeds id r) (hr : g.Refreshed P h)
    (far : ¬P id) : h.Heeds id r := by
  refine ⟨hh.toMinds.refreshed hr far, hr.sheet ▸ hh.holds, fun {m} hm hdirty => ?_⟩
  obtain ⟨n, hn, hk⟩ := hr.kept far hm
  have hsame : m.freshness = n.freshness := hk.freshness.resolve_right fun h => hdirty h.2
  have halike := hh.alike hn (hsame ▸ hdirty)
  cases hcase : m.freshness with
  | clean =>
    obtain ⟨-, hshown⟩ := hr.of_settled (hh.settled hn (hsame ▸ hcase))
    rwa [hshown]
  | stale => exact (hr.steady hn hm (hsame ▸ hcase) hcase _ (hh.source hn)).symm.trans halike
  | dirty => exact absurd hcase hdirty

/-- What passed over did not change. -/
theorem Minds.passed {s : NodeId} (hh : g.Minds id s) (hp : Engine.Passed id g h)
    {n : Node (Program Journal)} (hn : g.node? id = some n) : h.Minds id s := by
  by_cases hclean : n.freshness = .clean
  · obtain rfl := hp.same hn hclean
    exact hh
  · obtain ⟨-, hsources⟩ := hp.steady hn hclean
    exact ⟨fun hm => hp.sources hn hm ▸ hh.source hn, fun _ _ => (hsources s (hh.source hn)).1⟩

theorem Heeds.passed (hh : g.Heeds id r) (hp : Engine.Passed id g h) (sheet : h.sheet = g.sheet)
    {n : Node (Program Journal)} (hn : g.node? id = some n) : h.Heeds id r := by
  refine ⟨hh.toMinds.passed hp hn, sheet ▸ hh.holds, fun hm hdirty => ?_⟩
  by_cases hclean : n.freshness = .clean
  · obtain rfl := hp.same hn hclean
    exact hh.alike hm hdirty
  · obtain ⟨hstale, hsources⟩ := hp.steady hn hclean
    exact (hsources _ (hh.source hn)).2.symm.trans (hh.alike hn (by simp [hstale]))

theorem Minds.of_saw {readings : List Reading} (saw : Engine.Saw mode id readings g)
    {n : Node (Program Journal)} (hn : g.node? id = some n) {s : NodeId} (hs : s ∈ n.sources) :
    g.Minds id s := by
  refine ⟨fun hm => ?_, fun _ _ => ?_⟩
  · rwa [← Option.some.inj (hn.symm.trans hm)]
  · obtain ⟨r, hr, rfl, holds⟩ := saw.sources hn s hs
    exact (saw.fresh r hr).elim (fun h => h.2.1) fun h => absurd holds h.1

theorem Heeds.of_saw (coherent : g.Coherent) {readings : List Reading}
    (saw : Engine.Saw mode id readings g) (tracked : ∀ t, mode t → t = true) (hr : r ∈ readings) :
    g.Answers id r := by
  have hrecorded := saw.recorded tracked r hr
  rcases saw.fresh r hr with ⟨holds, settled, shown⟩ | gone
  · refine .inl ⟨⟨fun hm => hrecorded holds hm, fun _ _ => settled⟩, holds, fun _ _ => ?_⟩
    rw [shown]
    exact .refl (coherent.shown_proper _)
  · exact .inr gone

theorem Pays.attended {e e' : Engine Journal} {label : Nat} (hs : e.graph.Sound mode)
    (pays : e.graph.Pays D e.host) (attended : Engine.Attended mode id label e e')
    (at_id : e.graph.EffectAt id label) (base : D.base <+: e.host)
    (tracked : ∀ t, mode t → t = true) : e'.graph.Pays D e'.host := by
  have hsheet := attended.refreshed.sheet
  have hat {x : NodeId} {l : Nat} : e'.graph.EffectAt x l ↔ e.graph.EffectAt x l :=
    effectAt_of_skeleton (skeleton_of_refreshed attended.refreshed)
  have hother {x : NodeId} {l : Nat} {r : Reading} (hx : e.graph.EffectAt x l) (hne : x ≠ id)
      (howes : D.owes e.host l r) : e'.graph.Answers x r := by
    refine (pays hx howes).congr hsheet fun hheeds => hheeds.refreshed attended.refreshed ?_
    rintro (hcomputes | rfl)
    · exact hx.not_computes hcomputes
    · exact hne rfl
  intro x l r hx' howes
  have hx := hat.1 hx'
  rcases attended.ending with ⟨hhost, hpassed⟩ | ⟨readings, hhost, hsaw⟩
  · rw [hhost] at howes
    by_cases hxid : x = id
    · subst hxid
      obtain ⟨n, hn, -⟩ := at_id.isEffect
      exact (pays hx howes).congr hsheet fun hheeds => hheeds.passed hpassed hsheet hn
    · exact hother hx hxid howes
  · rw [hhost] at howes
    rcases D.append base howes with ⟨rfl, hmem⟩ | ⟨hlabel, howes⟩
    · obtain rfl : x = id := hs.distinct hx at_id
      exact Heeds.of_saw attended.coherent hsaw tracked hmem
    · refine hother hx (fun hxid => ?_) howes
      subst hxid
      exact hlabel (at_id.label_unique hx)

theorem QueuesBut.attended {e e' : Engine Journal} {label : Nat}
    (queues : e.graph.QueuesBut (some id)) (attended : Engine.Attended mode id label e e') :
    e'.graph.QueuesBut none := by
  intro x m hm heffect hlate
  obtain ⟨n, hn, hcase⟩ := attended.refreshed.origin hm
  refine .inl ?_
  rw [attended.refreshed.pending]
  have hne : x ≠ id := by
    rintro rfl
    exact hlate (attended.clean hm)
  rcases hcase with hkept | ⟨-, hup⟩
  · refine (queues hn (by rwa [Node.isEffect, ← hkept.kind])
      fun hclean => hlate (hkept.clean_iff.2 hclean)).resolve_right fun h => hne (Option.some.inj h)
  · exact absurd hup.clean hlate

theorem not_computes_of_isEffect {x : NodeId} {n : Node (Program Journal)} (hn : g.node? x = some n)
    (heffect : n.isEffect = true) : ¬g.sheet.Computes x := by
  rintro ⟨body, hbody⟩
  obtain ⟨n', _, _, hn', hk⟩ := body?_eq_some.1 hbody
  obtain rfl := Option.some.inj (hn.symm.trans hn')
  simp [Node.isEffect, hk] at heffect

theorem isEffect_of_skeleton {n m : Node (Program Journal)}
    (skeleton : m.kind.skeleton = n.kind.skeleton) : m.isEffect = n.isEffect := by
  cases hn : n.kind <;> cases hm : m.kind <;> simp_all [NodeKind.skeleton, Node.isEffect]

theorem Minding.attended {e e' : Engine Journal} {label : Nat} (minding : e.graph.Minding)
    (attended : Engine.Attended mode id label e e') (at_id : e.graph.EffectAt id label) :
    e'.graph.Minding := by
  intro x s m hm heffect hs
  obtain ⟨n, hn, -⟩ := attended.refreshed.origin hm
  have heffect' : n.isEffect = true := by
    have hskeleton := skeleton_of_refreshed attended.refreshed x
    simp only [hm, hn, Option.map_some, Option.some.injEq] at hskeleton
    rwa [← isEffect_of_skeleton hskeleton]
  by_cases hx : x = id
  · subst hx
    rcases attended.ending with ⟨-, hpassed⟩ | ⟨readings, -, hsaw⟩
    · exact (minding hn heffect' (hpassed.sources hn hm ▸ hs)).passed hpassed hn
    · exact .of_saw hsaw hm hs
  · have hfar : ¬(e.graph.sheet.Computes x ∨ x = id) :=
      fun h => h.elim (not_computes_of_isEffect hn heffect') hx
    obtain ⟨n', hn', hkept⟩ := attended.refreshed.kept hfar hm
    obtain rfl := Option.some.inj (hn.symm.trans hn')
    exact (minding hn heffect' (hkept.sources ▸ hs)).refreshed attended.refreshed hfar

theorem Recalls.attended {e e' : Engine Journal} {label : Nat} (hs : e.graph.Sound mode)
    (recalls : e.graph.Recalls e.host) (attended : Engine.Attended mode id label e e')
    (at_id : e.graph.EffectAt id label) (tracked : ∀ t, mode t → t = true) :
    e'.graph.Recalls e'.host := by
  have hsheet := attended.refreshed.sheet
  have hat {x : NodeId} {l : Nat} : e'.graph.EffectAt x l ↔ e.graph.EffectAt x l :=
    effectAt_of_skeleton (skeleton_of_refreshed attended.refreshed)
  have hother {x : NodeId} {l : Nat} {r : Reading} (hx : e.graph.EffectAt x l) (hne : x ≠ id)
      (hr : r ∈ e.host.latest l) (holds : e'.graph.sheet.Holds r.cell) {m : Node (Program Journal)}
      (hm : e'.graph.node? x = some m) : r.cell.node ∈ m.sources := by
    obtain ⟨n, hn, hkept⟩ := attended.refreshed.kept
      (fun h => h.elim hx.not_computes hne) hm
    exact hkept.sources ▸ recalls hx hr (hsheet ▸ holds) hn
  intro x l r hx' hr holds m hm
  have hx := hat.1 hx'
  rcases attended.ending with ⟨hhost, hpassed⟩ | ⟨readings, hhost, hsaw⟩
  · rw [hhost] at hr
    by_cases hxid : x = id
    · subst hxid
      obtain ⟨n, hn, -⟩ := hx.isEffect
      exact hpassed.sources hn hm ▸ recalls hx hr (hsheet ▸ holds) hn
    · exact hother hx hxid hr holds hm
  · rw [hhost, Journal.latest_append] at hr
    split at hr
    next hlabel =>
      subst hlabel
      obtain rfl : x = id := hs.distinct hx at_id
      exact hsaw.recorded tracked r hr holds hm
    next hlabel =>
      refine hother hx (fun hxid => ?_) hr holds hm
      subst hxid
      exact hlabel (at_id.label_unique hx)

/-! ## Computeds only -/

theorem Pays.refreshed {P : NodeId → Prop} {journal : Journal} (pays : g.Pays D journal)
    (hr : g.Refreshed P h) (computeds : ∀ x, P x → g.sheet.Computes x) : h.Pays D journal := by
  intro x l r hx howes
  have hx := (effectAt_of_skeleton (skeleton_of_refreshed hr)).1 hx
  exact (pays hx howes).congr hr.sheet fun hheeds =>
    hheeds.refreshed hr fun hp => hx.not_computes (computeds x hp)

theorem QueuesBut.refreshed {P : NodeId → Prop} (queues : g.QueuesBut none)
    (hr : g.Refreshed P h) : h.QueuesBut none := by
  intro x m hm heffect hlate
  obtain ⟨n, hn, hcase⟩ := hr.origin hm
  rw [hr.pending]
  rcases hcase with hkept | ⟨-, hup⟩
  · exact queues hn (by rwa [Node.isEffect, ← hkept.kind])
      fun hclean => hlate (hkept.clean_iff.2 hclean)
  · exact absurd hup.clean hlate

theorem Minding.refreshed {P : NodeId → Prop} (minding : g.Minding) (hr : g.Refreshed P h)
    (computeds : ∀ x, P x → g.sheet.Computes x) : h.Minding := by
  intro x s m hm heffect hs
  obtain ⟨n, hn, -⟩ := hr.origin hm
  have hskeleton := skeleton_of_refreshed hr x
  simp only [hm, hn, Option.map_some, Option.some.injEq] at hskeleton
  have heffect' : n.isEffect = true := by rwa [← isEffect_of_skeleton hskeleton]
  have hfar : ¬P x := fun hp => not_computes_of_isEffect hn heffect' (computeds x hp)
  obtain ⟨n', hn', hkept⟩ := hr.kept hfar hm
  obtain rfl := Option.some.inj (hn.symm.trans hn')
  exact (minding hn heffect' (hkept.sources ▸ hs)).refreshed hr hfar

theorem Recalls.refreshed {P : NodeId → Prop} {journal : Journal} (recalls : g.Recalls journal)
    (hr : g.Refreshed P h) (computeds : ∀ x, P x → g.sheet.Computes x) : h.Recalls journal := by
  intro x l r hx hmem holds m hm
  have hx := (effectAt_of_skeleton (skeleton_of_refreshed hr)).1 hx
  obtain ⟨n, hn, hkept⟩ := hr.kept (fun hp => hx.not_computes (computeds x hp)) hm
  exact hkept.sources ▸ recalls hx hmem (hr.sheet ▸ holds) hn

/-! ## Writing -/

/-- An effect after a write is one before it. -/
theorem isEffect_written {s x : NodeId} {n m : Node (Program Journal)} {value : Value}
    (found : g.node? s = some n) {subscribers : List NodeId}
    (hm : (g.written s value subscribers).node? x = some m) (heffect : m.isEffect = true) :
    ∃ m₀, g.node? x = some m₀ ∧ m₀.isEffect = true ∧ m₀.Delayed m := by
  obtain ⟨m₀, hm₀, hd⟩ := written_of_unset found hm fun v hk => by simp [Node.isEffect, hk] at heffect
  exact ⟨m₀, hm₀, by rwa [Node.isEffect, ← hd.kind], hd⟩

theorem Minds.written (hs : g.Sound mode) {s t : NodeId} {n : Node (Program Journal)}
    {old value : Value} (found : g.node? t = some n) (kind : n.kind = .signal old)
    {m₀ : Node (Program Journal)} (hm₀ : g.node? id = some m₀) (heffect : m₀.isEffect = true)
    (hh : g.Minds id s) : (g.written t value n.subscribers).Minds id s := by
  have hne : id ≠ t := by
    rintro rfl
    obtain rfl := Option.some.inj (found.symm.trans hm₀)
    simp [Node.isEffect, kind] at heffect
  have horigin {m : Node (Program Journal)}
      (hm : (g.written t value n.subscribers).node? id = some m) : m₀.Delayed m := by
    obtain ⟨m₁, hm₁, hd⟩ := written_of_ne hne hm
    obtain rfl := Option.some.inj (hm₀.symm.trans hm₁)
    exact hd
  have hsource := hh.source hm₀
  -- while the effect is clean, the source can be late only if it is a signal
  have hclosed : g.Shut fun a b => a = s ∧ b = id ∧ g.sheet.value? a = none := by
    rintro a b na nb ha hlate hb ⟨rfl, rfl, hvalue⟩ hnb
    obtain rfl := Option.some.inj (hm₀.symm.trans hnb)
    refine .inl fun hclean => ?_
    obtain ⟨k, hk, hset⟩ := hh.settled hm₀ hclean
    obtain rfl := Option.some.inj (ha.symm.trans hk)
    obtain ⟨v, hv⟩ := Node.isSettled_of_clean hset hlate
    simp [value?_eq_some.2 ⟨na, ha, hv⟩] at hvalue
  refine ⟨fun hm => (horigin hm).sources ▸ hsource, fun {m} hm hclean => ?_⟩
  refine settled_written found (hh.settled hm₀ ((horigin hm).clean hclean)) fun k hvalue hk => ?_
  by_contra hlate
  have hst : s ≠ t := by
    rintro rfl
    simp [value?_eq_some.2 ⟨n, found, kind⟩] at hvalue
  obtain ⟨k₀, hk₀, hd⟩ := written_of_ne hst hk
  have hsub : id ∈ k.subscribers := hd.subscribers ▸ (hs.coherent.linked.edge hm₀ hk₀).1 hsource
  rcases hclosed.written (hs.coherent.on fun _ => True) t value n.subscribers hk hlate hsub
    ⟨rfl, rfl, hvalue⟩ hm with h | h
  · exact h hclean
  · cases h

theorem Heeds.written (hs : g.Sound mode) {t : NodeId} {n : Node (Program Journal)}
    {old value : Value} (found : g.node? t = some n) (kind : n.kind = .signal old)
    {m₀ : Node (Program Journal)} (hm₀ : g.node? id = some m₀) (heffect : m₀.isEffect = true)
    (hh : g.Heeds id r) : (g.written t value n.subscribers).Heeds id r := by
  have hne : id ≠ t := by
    rintro rfl
    obtain rfl := Option.some.inj (found.symm.trans hm₀)
    simp [Node.isEffect, kind] at heffect
  refine ⟨hh.toMinds.written hs found kind hm₀ heffect, (holds_written found kind _).2 hh.holds,
    fun {m} hm hdirty => ?_⟩
  have hst : r.cell.node ≠ t := by
    intro h
    exact hdirty (markAll_dirty ((hs.coherent.linked.edge hm₀ found).1 (h ▸ hh.source hm₀)) hm)
  obtain ⟨m₁, hm₁, hd⟩ := written_of_ne hne hm
  rw [shown_written hst]
  exact hh.alike hm₁ fun h => hdirty (hd.dirty h)

theorem effectAt_written {s : NodeId} {n : Node (Program Journal)} {value : Value}
    (found : g.node? s = some n) {subscribers : List NodeId} {label : Nat}
    (hx : (g.written s value subscribers).EffectAt id label) : g.EffectAt id label := by
  obtain ⟨m, p, running, hm, hk⟩ := hx
  obtain ⟨m₀, hm₀, -, hd⟩ := isEffect_written found hm (by simp [Node.isEffect, hk])
  exact ⟨m₀, p, running, hm₀, hd.kind.symm.trans hk⟩

theorem EffectAt.written {s : NodeId} {n : Node (Program Journal)} {old : Value}
    (found : g.node? s = some n) (kind : n.kind = .signal old) {label : Nat} (hx : g.EffectAt id label)
    (value : Value) (subscribers : List NodeId) :
    (g.written s value subscribers).EffectAt id label := by
  obtain ⟨m, p, running, hm, hk⟩ := hx
  have hne : id ≠ s := by
    rintro rfl
    obtain rfl := Option.some.inj (found.symm.trans hm)
    simp [kind] at hk
  obtain ⟨m', hm', hd⟩ := (delayed_written g s value subscribers).find
    ((revalued_other g value hne).trans hm)
  exact ⟨m', p, running, hm', hd.kind.trans hk⟩

theorem Pays.written {journal : Journal} (hs : g.Sound mode) (pays : g.Pays D journal) {s : NodeId}
    {n : Node (Program Journal)} {old value : Value} (found : g.node? s = some n)
    (kind : n.kind = .signal old) : (g.written s value n.subscribers).Pays D journal := by
  intro x l r hx howes
  have hx := effectAt_written found hx
  obtain ⟨m₀, hm₀, heffect⟩ := hx.isEffect
  refine (pays hx howes).imp (fun hheeds => hheeds.written hs found kind hm₀ heffect) ?_
  rintro ⟨gone, outcome⟩
  exact ⟨fun holds => gone ((holds_written found kind _).1 holds), outcome⟩

theorem QueuesBut.written (queues : g.QueuesBut none) {s : NodeId} {n : Node (Program Journal)}
    {value : Value} (found : g.node? s = some n) (subscribers : List NodeId) :
    (g.written s value subscribers).QueuesBut none := by
  intro x m hm heffect hlate
  have hd := delayed_written g s value subscribers
  obtain ⟨m₀, hm₀, heffect₀, hd₀⟩ := isEffect_written found hm heffect
  have hne : x ≠ s := by
    rintro rfl
    obtain ⟨m', hm', hk', -⟩ := written_self found value subscribers
    obtain rfl := Option.some.inj (hm.symm.trans hm')
    simp [Node.isEffect, hk'] at heffect
  refine .inl ?_
  by_cases hclean : m₀.freshness = .clean
  · exact hd.queued ((revalued_other g value hne).trans hm₀) hm heffect₀ hclean hlate
  · exact hd.pending x ((queues hm₀ heffect₀ hclean).resolve_right (by simp))

theorem Minding.written (hs : g.Sound mode) (minding : g.Minding) {t : NodeId}
    {n : Node (Program Journal)} {old value : Value} (found : g.node? t = some n)
    (kind : n.kind = .signal old) : (g.written t value n.subscribers).Minding := by
  intro x s m hm heffect hmem
  obtain ⟨m₀, hm₀, heffect₀, hd⟩ := isEffect_written found hm heffect
  exact (minding hm₀ heffect₀ (hd.sources ▸ hmem)).written hs found kind hm₀ heffect₀

theorem Recalls.written {journal : Journal} (recalls : g.Recalls journal) {t : NodeId}
    {n : Node (Program Journal)} {old value : Value} (found : g.node? t = some n)
    (kind : n.kind = .signal old) (subscribers : List NodeId) :
    (g.written t value subscribers).Recalls journal := by
  intro x l r hx hmem holds m hm
  obtain ⟨m', hm', heffect⟩ := hx.isEffect
  obtain rfl := Option.some.inj (hm.symm.trans hm')
  obtain ⟨m₀, hm₀, -, hd⟩ := isEffect_written found hm heffect
  exact hd.sources ▸ recalls (effectAt_written found hx) hmem ((holds_written found kind _).1 holds) hm₀

end Graph

end LiveTemplate.Reactive
