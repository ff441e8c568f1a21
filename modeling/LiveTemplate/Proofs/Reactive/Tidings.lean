import LiveTemplate.Proofs.Reactive.Attentive

/-!
# What an effect has heard of a computed

An effect that reads one computed and nothing else runs when there is news: what the computed shows
differs from what it showed at the last run. While nodes are brought up to date there are three stages
(`Graph.Apprised`): the computed shows what it did, or news came up and the effect has to run, or it has
run. Bringing other nodes up to date may lead from the first stage to the second, and only a run of the
effect leads from the second to the third, so it hears of the news exactly once.
-/
namespace LiveTemplate.Reactive

variable {σ : Type}

namespace Outcome

/-- A text or a fault. -/
def Flat (o : Outcome) : Prop :=
  ∀ v, o = .ok v → ∃ t, v = .text t

variable {o o' : Outcome}

theorem Flat.eq_of_alike (flat : o.Flat) (h : o.Alike o') : o' = o := by
  cases o with
  | error f => exact h.eq_of_error
  | ok v =>
    obtain ⟨t, rfl⟩ := flat v rfl
    obtain ⟨-, -, agrees⟩ := h
    obtain f | w := o'
    · simp [Outcome.agrees] at agrees
    · cases w <;> simp_all [Outcome.agrees, Value.agrees]

theorem Flat.equals_self (flat : o.Flat) : o.equals o = true := by
  cases o with
  | error f => simp [equals]
  | ok v =>
    obtain ⟨t, rfl⟩ := flat v rfl
    simp [equals, Value.equals]

end Outcome

namespace Graph

variable {g h : Graph (Program σ)} {P : NodeId → Prop} {x c : NodeId} {o : Outcome} {l : List Outcome}

/-- The node is an effect that reads the computed and nothing else. -/
def Hooked (g : Graph (Program σ)) (x c : NodeId) : Prop :=
  ∃ n running, g.node? x = some n ∧ n.kind = .effect (.get ⟨.computed, c⟩) running

theorem Hooked.refreshed (hooked : g.Hooked x c) (hr : g.Refreshed P h) : h.Hooked x c := by
  obtain ⟨n, running, hn, hk⟩ := hooked
  obtain ⟨m, hm, hcase⟩ := hr.find hn
  exact ⟨m, running, hm, kind_of_skeleton (hcase.elim (·.skeleton) (·.2.skeleton)).symm hk⟩

/-- Unless it is dirty, the effect has recorded the computed. -/
theorem Attentive.sources_hooked (hs : g.Attentive) {n : Node (Program σ)} {running : Bool}
    (found : g.node? x = some n) (kind : n.kind = .effect (.get ⟨.computed, c⟩) running)
    (calm : n.freshness ≠ .dirty) : n.sources = [c] := by
  rw [(hs.noted found kind calm).sources]
  simp [Program.get, Program.cells, enlist]

/-- What the effect has been handed since the computed showed this. -/
inductive Apprised (g : Graph (Program σ)) (x c : NodeId) (o : Outcome) : List Outcome → Prop where
  | same (calm : g.freshness? x ≠ some .dirty) (shown : g.shown c = o) : Apprised g x c o []
  | owed (dirty : g.freshness? x = some .dirty) (settled : g.Settled c)
      (news : o.equals (g.shown c) = false) : Apprised g x c o []
  | told (clean : g.freshness? x = some .clean) (settled : g.Settled c)
      (news : o.equals (g.shown c) = false) : Apprised g x c o [g.shown c]

/-- Nothing that matters has changed. -/
theorem Apprised.congr (heard : g.Apprised x c o l) (freshness : h.freshness? x = g.freshness? x)
    (settled : g.Settled c → h.Settled c) (shown : h.shown c = g.shown c) : h.Apprised x c o l := by
  cases heard with
  | same calm same => exact .same (freshness ▸ calm) (shown.trans same)
  | owed dirty set news => exact .owed (freshness ▸ dirty) (settled set) (shown ▸ news)
  | told clean set news => exact shown ▸ .told (freshness ▸ clean) (settled set) (shown ▸ news)

/-- Other nodes are brought up to date. -/
theorem Apprised.refreshed (heard : g.Apprised x c o l) (hs : g.Attentive) (hooked : g.Hooked x c)
    (flat : o.Flat) (hr : g.Refreshed P h) (apart : ¬P x) : h.Apprised x c o l := by
  obtain ⟨n, running, hn, hk⟩ := hooked
  obtain ⟨m, hm, hkept | ⟨hp, -⟩⟩ := hr.find hn
  case inr => exact absurd hp apart
  have hgx : g.freshness? x = some n.freshness := by rw [freshness?, hn, Option.map_some]
  have hhx : h.freshness? x = some m.freshness := by rw [freshness?, hm, Option.map_some]
  cases heard with
  | same calm shown =>
    have hcalm : n.freshness ≠ .dirty := fun h => calm (hgx.trans (by rw [h]))
    have hsource : c ∈ n.sources := by
      rw [hs.sources_hooked hn hk hcalm]
      exact List.mem_singleton_self c
    cases hcase : n.freshness with
    | dirty => exact absurd hcase hcalm
    | clean =>
      refine .same (by simp [hhx, hkept.clean_iff.2 hcase]) ?_
      rw [(hr.of_settled (hs.settled hn hk hcase c hsource)).2, shown]
    | stale =>
      rcases hkept.freshness with hsame | ⟨-, hdirty⟩
      · have halike := hr.steady hn hm hcase (hsame.trans hcase) c hsource
        rw [shown] at halike
        exact .same (by simp [hhx, hsame, hcase]) (flat.eq_of_alike halike)
      · obtain ⟨s, hmem, news⟩ := hr.roused hn hm hcase hdirty
        rw [hs.sources_hooked hn hk hcalm] at hmem
        obtain rfl := List.mem_singleton.1 hmem
        refine .owed (by rw [hhx, hdirty]) news.settled ?_
        obtain ⟨t, body, running, last, ht, hkind, hdiffers⟩ := news.differs
        rw [shown_eq ht, hkind] at shown
        cases last with
        | some old => exact shown ▸ hdiffers old rfl
        | none =>
          obtain ⟨t, ht⟩ := flat .undefined shown.symm
          cases ht
  | owed dirty settled news =>
    obtain ⟨hset, hshown⟩ := hr.of_settled settled
    have hdirty : m.freshness = .dirty := by
      rcases hkept.freshness with hsame | ⟨-, hdirty⟩
      · exact hsame.trans (Option.some.inj (hgx.symm.trans dirty))
      · exact hdirty
    exact .owed (by rw [hhx, hdirty]) hset (hshown ▸ news)
  | told clean settled news =>
    obtain ⟨hset, hshown⟩ := hr.of_settled settled
    have hclean := hkept.clean_iff.2 (Option.some.inj (hgx.symm.trans clean))
    exact hshown ▸ .told (by rw [hhx, hclean]) hset (hshown ▸ news)

/-- The effect runs, since it has to. -/
theorem Apprised.run (heard : g.Apprised x c o l) (dirty : g.freshness? x = some .dirty)
    (hr : g.Refreshed P h) (clean : h.freshness? x = some .clean) :
    l = [] ∧ h.Apprised x c o [h.shown c] := by
  cases heard with
  | same calm => exact absurd dirty calm
  | told clean' => simp [dirty] at clean'
  | owed _ settled news =>
    obtain ⟨hset, hshown⟩ := hr.of_settled settled
    exact ⟨rfl, .told clean hset (hshown ▸ news)⟩

/-- The effect does not have to run after all. -/
theorem Apprised.rest (heard : g.Apprised x c o l) (stale : g.freshness? x = some .stale)
    (shown : h.shown = g.shown) (clean : h.freshness? x = some .clean) : h.Apprised x c o l := by
  cases heard with
  | same _ same => exact .same (by simp [clean]) (shown ▸ same)
  | owed dirty => simp [stale] at dirty
  | told clean' => simp [stale] at clean'

end Graph

end LiveTemplate.Reactive
