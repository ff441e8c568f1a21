import LiveTemplate.Proofs.Binding.Delivery

/-!
# What a rendering gives

A template can be rendered again beside its binding, with the same context, outside of every body's
dependencies. If the binding is up to date, the rendering returns and gives what the binding shows
(`Engine.Engaged.renders`): both are the outcome of the body from scratch, and a text or a fault is the
same as any outcome that agrees with it.
-/
namespace LiveTemplate.Reactive.Engine

open Reactive.Graph

variable {σ : Type}

/-- What a computed that is up to date shows is what its body ends with when it runs again. -/
theorem exec_again {e : Engine σ} (hs : e.graph.Attentive) {c : NodeId} {p : Program σ} {level : Nat}
    {end_ : Outcome} (found : e.graph.sheet.body? c = some p) (ends : e.graph.sheet.Ends level p end_)
    (settled : e.graph.Settled c) (depth d : Nat) :
    Yields (level ≤ d) (p.exec depth (refreshWithin d) e) fun (o, _) => o.Alike (e.graph.shown c) := by
  have hF := Sheet.obeys_forecast (s := e.graph.sheet) fun _ _ => value?_of_body?
  have hready := ready_of_ends ends
  have hcovers : e.graph.sheet.forecast.covers c := fun p' found' => by
    obtain rfl := Option.some.inj (found.symm.trans found')
    exact ⟨level, end_, ends⟩
  have hlawful := hs.coherent.lawful found
  refine (ServesOn.exec_tracking depth (servesOn_refreshWithin (fun _ _ => trivial) d)
    (fun _ _ => trivial) hlawful (hs.coherent.on fun _ => True) hF hready
    (Idle.mono hs.idle fun _ _ => trivial)).mono (fun h => h) ?_
  rintro ⟨_, _⟩ ⟨g, -, hr, hg, rfl, hcells⟩
  -- the cells that it reads are up to date by then, so it reads what it would read from scratch
  obtain ⟨-, hresult⟩ := hlawful.follow g.shown e.graph.sheet.forecast.outcome fun cell hc hcell =>
    (hr.sheet ▸ hready cell hc : Ready _ level g.sheet cell).alike hg.coherent (hr.sheet ▸ hF)
      (hcells cell hcell).2
  rw [hF.computed hcovers found] at hresult
  have hshown : (e.graph.shown c).Alike (e.graph.sheet.forecast.outcome c) :=
    hs.coherent.alike_of_settled hF (show e.graph.sheet.Holds ⟨.computed, c⟩ from ⟨p, found⟩)
      (fun _ => hcovers) settled
  exact hresult.trans hshown.symm

variable {B k : Nat} {log : σ → List Value} {own : NodeId → Prop} {e : Engine σ} {c : NodeId}
  {body : Program σ}

theorem Engaged.renders (engaged : Engaged B k log own e) (bound : k ≤ B)
    (found : e.graph.sheet.body? c = some body) (tells : body.Tells)
    (settled : (e.graph.shadow B).Settled c) :
    (e.graph.shown c).erase.Flat ∧ ∃ enough, ∀ depth, enough ≤ depth →
      ∃ e', run depth (.untrack body .done) e = some ((e.graph.shown c).erase, e') := by
  obtain ⟨⟨rank, stocked⟩, under⟩ := engaged
  have hfound := body?_shadow (B := B) found
  obtain ⟨end_, ends⟩ := Sheet.exists_ends (fun _ _ h => fits_shadow stocked bound
    under.attentive.coherent.revalued_refl h) hfound
  have hruns (d : Nat) (deep : rank c ≤ d) : ∃ o e', (∀ v, o = .ok v → ∃ t, v = .text t) ∧
      (e.graph.shown c).erase = o ∧
        run (d + 1) (.untrack body .done) e = some (o, e') := by
    have hyields := exec_again (e := (e.pushFrame none).shadow B) under.attentive hfound ends settled d d
    obtain ⟨⟨o, m⟩, hm⟩ := Option.isSome_iff_exists.1 (hyields.2 deep)
    obtain ⟨o', e', hran, rfl, -⟩ := exec_mirrored (refresh_mirrored stocked bound d) stocked bound
      (stocked.steady found k e.identities B (Nat.le_refl _) under.known bound) (e := e.pushFrame none)
      under.faithful under.known (Nat.le_refl _) hm
    have hflat : o'.Flat := fun v hv => tells (hv ▸ hran)
    have herase : o'.erase = o' := erase_of_told fun v hv => .inr (hflat v hv)
    have halike := hyields.1 _ hm
    rw [herase] at halike
    refine ⟨o', e'.popFrame, hflat, ?_, ?_⟩
    · exact (shown_shadow found).symm.trans (hflat.eq_of_alike halike)
    · rw [run, Program.exec, hran]
      rfl
  refine ⟨?_, rank c + 1, fun depth enough => ?_⟩
  · obtain ⟨o, -, flat, rfl, -⟩ := hruns _ (Nat.le_refl _)
    exact flat
  · obtain ⟨d, rfl⟩ : ∃ d, depth = d + 1 := ⟨depth - 1, by omega⟩
    obtain ⟨o, e', -, rfl, hran⟩ := hruns d (by omega)
    exact ⟨e', hran⟩

end LiveTemplate.Reactive.Engine
