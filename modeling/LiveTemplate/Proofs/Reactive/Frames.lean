import LiveTemplate.Evaluation
import LiveTemplate.Proofs.Reactive.Refresh

/-!
# The stack of frames

Bringing a node up to date, a write and a flush leave the stack of collected reads as it was: each run
takes its own frame away (`Engine.exec_framed`). A program changes the innermost frame at most, by its
own tracked reads; a region that is not tracked does not change even that one.
-/
namespace LiveTemplate.Reactive

variable {σ : Type}

namespace Engine

abbrev Stack := List (Option (List NodeId))

def innermost : Stack → List NodeId
  | some sources :: _ => sources
  | _ => []

/-- As many frames as before, and the same below the innermost one, which has lost nothing. -/
structure Framed (t t' : Stack) : Prop where
  length : t'.length = t.length
  below : t'.drop 1 = t.drop 1
  kept : innermost t ⊆ innermost t'

theorem Framed.of_eq {t t' : Stack} (h : t' = t) : Framed t t' :=
  h ▸ ⟨rfl, rfl, List.Subset.refl _⟩

theorem Framed.trans {t t₁ t' : Stack} (h : Framed t t₁) (h' : Framed t₁ t') : Framed t t' :=
  ⟨h'.length.trans h.length, h'.below.trans h.below, fun _ hx => h'.kept (h.kept hx)⟩

variable {e e' : Engine σ}

theorem framed_track (e : Engine σ) (id : NodeId) : Framed e.tracking (e.track id).tracking := by
  unfold track
  split
  next h =>
    refine ⟨by simp [h], by simp [h], ?_⟩
    rw [h]
    exact (prefix_enlist id _).subset
  next => exact .of_eq rfl

theorem framed_trackIf (e : Engine σ) (tracked : Bool) (id : NodeId) :
    Framed e.tracking (e.trackIf tracked id).tracking := by
  cases tracked with
  | false => exact .of_eq rfl
  | true => exact framed_track e id

theorem tracking_dequeue {id : NodeId} {rest : Engine σ} (next : e.dequeue = some (id, rest)) :
    rest.tracking = e.tracking := by
  obtain ⟨_, -, rfl⟩ := dequeue_eq_some next
  rfl

/-- Bringing nodes up to date leaves the stack as it was. -/
def Unframed (refresh : NodeId → Engine σ → Option (Engine σ)) : Prop :=
  ∀ {id : NodeId} {e e' : Engine σ}, refresh id e = some e' → e'.tracking = e.tracking

section Nested

variable {refresh : NodeId → Engine σ → Option (Engine σ)}

/-- A read changes the stack at the end only, if it is tracked. -/
theorem readCell_tracking (unframed : Unframed refresh) {cell : Cell} {tracked : Bool} {o : Outcome}
    (h : e.readCell refresh cell tracked = some (o, e')) :
    e'.tracking = e.tracking ∨ e'.tracking = (e.trackIf tracked cell.node).tracking := by
  unfold readCell at h
  split at h
  · split at h
    · obtain ⟨-, rfl⟩ := Prod.mk.inj (Option.some.inj h)
      exact .inr rfl
    · obtain ⟨-, rfl⟩ := Prod.mk.inj (Option.some.inj h)
      exact .inl rfl
  · split at h
    · obtain ⟨-, rfl⟩ := Prod.mk.inj (Option.some.inj h)
      exact .inl rfl
    · obtain ⟨e₁, h₁, he⟩ := Option.map_eq_some_iff.1 h
      obtain ⟨-, rfl⟩ := Prod.mk.inj he
      refine .inr ?_
      cases tracked with
      | false => exact unframed h₁
      | true => simp only [trackIf, track, if_true, unframed h₁]; split <;> simp [unframed h₁]
    · obtain ⟨-, rfl⟩ := Prod.mk.inj (Option.some.inj h)
      exact .inl rfl

theorem readCell_framed (unframed : Unframed refresh) {cell : Cell} {tracked : Bool} {o : Outcome}
    (h : e.readCell refresh cell tracked = some (o, e')) : Framed e.tracking e'.tracking := by
  rcases readCell_tracking unframed h with htracking | htracking
  · exact .of_eq htracking
  · exact (framed_trackIf e tracked cell.node).trans (.of_eq htracking)

theorem follow_framed (unframed : Unframed refresh) {steps : Nat} {visited : List NodeId}
    {value : Value} {o : Outcome} (h : e.follow refresh steps visited value = some (o, e')) :
    Framed e.tracking e'.tracking := by
  fun_induction follow refresh steps visited value e with
  | case1 =>
    obtain ⟨-, rfl⟩ := Prod.mk.inj (Option.some.inj h)
    exact .of_eq rfl
  | case2 => cases h
  | case3 => cases h
  | case4 _ _ _ _ _ _ _ hread =>
    obtain ⟨-, rfl⟩ := Prod.mk.inj (Option.some.inj h)
    exact readCell_framed unframed hread
  | case5 _ _ _ _ _ _ _ hread ih => exact (readCell_framed unframed hread).trans (ih h)
  | case6 =>
    obtain ⟨-, rfl⟩ := Prod.mk.inj (Option.some.inj h)
    exact .of_eq rfl

theorem drain_tracking (unframed : Unframed refresh) {runs : Nat} {settled : Bool}
    (h : drain refresh runs e = some (settled, e')) : e'.tracking = e.tracking := by
  refine drain_turns (motive := fun _ e r => r = some (settled, e') → e'.tracking = e.tracking)
    (fun _ h => ?_) (fun _ h => ?_) (fun next ih h => ?_) runs e h
  · obtain ⟨-, rfl⟩ := Prod.mk.inj (Option.some.inj h)
    rfl
  · obtain ⟨-, rfl⟩ := Prod.mk.inj (Option.some.inj h)
    rfl
  · obtain ⟨e₁, hfirst, hothers⟩ := Option.bind_eq_some_iff.1 h
    rw [ih e₁ hothers, unframed hfirst, tracking_dequeue next]

theorem flush_tracking (unframed : Unframed refresh) {r : Except Fault Unit}
    (h : flush refresh e = some (r, e')) : e'.tracking = e.tracking := by
  unfold flush at h
  split at h
  · obtain ⟨-, rfl⟩ := Prod.mk.inj (Option.some.inj h)
    rfl
  · obtain ⟨⟨settled, e₁⟩, hdrain, he⟩ := Option.map_eq_some_iff.1 h
    obtain ⟨-, rfl⟩ := Prod.mk.inj he
    exact (drain_tracking unframed hdrain :)

theorem writeSignal_tracking (unframed : Unframed refresh) {id : NodeId} {value : Value}
    {r : Except Fault Unit} (h : writeSignal refresh id value e = some (r, e')) :
    e'.tracking = e.tracking := by
  unfold writeSignal at h
  split at h
  · split at h
    · obtain ⟨-, rfl⟩ := Prod.mk.inj (Option.some.inj h)
      rfl
    · exact (flush_tracking unframed h :)
  · obtain ⟨-, rfl⟩ := Prod.mk.inj (Option.some.inj h)
    rfl

theorem askSources_tracking (unframed : Unframed refresh) {id : NodeId} {sources : List NodeId}
    (h : askSources refresh id sources e = some e') : e'.tracking = e.tracking := by
  induction sources generalizing e with
  | nil =>
    obtain rfl := Option.some.inj h
    rfl
  | cons source rest ih =>
    obtain ⟨e₁, hfirst, hrest⟩ := Option.bind_eq_some_iff.1 h
    have hfirst : e₁.tracking = e.tracking := by
      split at hfirst
      · exact unframed hfirst
      · obtain rfl := Option.some.inj hfirst
        rfl
    split at hrest
    · obtain rfl := Option.some.inj hrest
      exact hfirst
    · exact (ih hrest).trans hfirst

end Nested

end Engine

/-- A program changes the innermost frame only. -/
theorem Program.exec_framed {refresh : NodeId → Engine σ → Option (Engine σ)}
    (unframed : Engine.Unframed refresh) {depth : Nat} {p : Program σ} {e e' : Engine σ} {o : Outcome}
    (h : p.exec depth refresh e = some (o, e')) : Engine.Framed e.tracking e'.tracking := by
  induction p generalizing e e' o with
  | done =>
    obtain ⟨-, rfl⟩ := Prod.mk.inj (Option.some.inj h)
    exact .of_eq rfl
  | read cell tracked next ih =>
    obtain ⟨⟨r, e₁⟩, hread, hrest⟩ := Option.bind_eq_some_iff.1 h
    exact (Engine.readCell_framed unframed hread).trans (ih _ hrest)
  | unwrap value next ih =>
    obtain ⟨⟨r, e₁⟩, hfollow, hrest⟩ := Option.bind_eq_some_iff.1 h
    exact (Engine.follow_framed unframed hfollow).trans (ih _ hrest)
  | write signal value next ih =>
    obtain ⟨⟨r, e₁⟩, hwrite, hrest⟩ := Option.bind_eq_some_iff.1 h
    exact .trans (.of_eq (Engine.writeSignal_tracking unframed hwrite)) (ih _ hrest)
  | newComputed owner body next _ ih =>
    cases owner with
    | none => exact (ih (.ok _) h :)
    | some owner =>
      rw [exec] at h
      split at h
      · exact ih _ h
      · exact (ih _ h :)
  | newEffect owner body next _ ih =>
    rw [exec] at h
    split at h
    · exact ih _ h
    · obtain ⟨e₁, hfirst, hrest⟩ := Option.bind_eq_some_iff.1 h
      exact .trans (.of_eq (unframed hfirst :)) (ih _ hrest)
  | newScope parent next ih =>
    cases parent with
    | none => exact (ih (.ok _) h :)
    | some parent =>
      rw [exec] at h
      split at h
      · exact ih _ h
      · exact (ih _ h :)
  | batch body next ihBody ih =>
    obtain ⟨⟨r, e₁⟩, hbody, h⟩ := Option.bind_eq_some_iff.1 h
    obtain ⟨⟨f, e₂⟩, hflush, hrest⟩ := Option.bind_eq_some_iff.1 h
    have hflush : e₂.tracking = e₁.tracking := (Engine.flush_tracking unframed hflush :)
    exact (ihBody hbody).trans (.trans (.of_eq hflush) (ih _ hrest))
  | untrack body next ihBody ih =>
    obtain ⟨⟨r, e₁⟩, hbody, hrest⟩ := Option.bind_eq_some_iff.1 h
    have hbody : e₁.popFrame.tracking = e.tracking := (ihBody hbody).below
    exact .trans (.of_eq hbody) (ih _ hrest)
  | newSignal value next ih => exact (ih _ h :)
  | fresh next ih => exact (ih _ h :)
  | inspect next ih => exact ih _ h
  | consult next ih => exact ih _ h
  | disposeNode id next ih => exact (ih h :)
  | disposeScope id next ih => exact (ih h :)
  | adjust change next ih => exact (ih h :)

namespace Engine

theorem runNode_tracking {refresh : NodeId → Engine σ → Option (Engine σ)} (unframed : Unframed refresh)
    {depth : Nat} {id : NodeId} {e e' : Engine σ} (h : runNode depth refresh id e = some e') :
    e'.tracking = e.tracking := by
  unfold runNode at h
  split at h
  · obtain ⟨⟨outcome, e₁⟩, hbody, rfl⟩ := Option.map_eq_some_iff.1 h
    simp only [storeOutcome_closeRun]
    exact (Program.exec_framed unframed hbody).below
  · obtain ⟨⟨outcome, e₁⟩, hbody, rfl⟩ := Option.map_eq_some_iff.1 h
    exact (Program.exec_framed unframed hbody).below
  · obtain rfl := Option.some.inj h
    rfl

theorem refreshOver_tracking {refresh : NodeId → Engine σ → Option (Engine σ)}
    (unframed : Unframed refresh) {depth : Nat} {id : NodeId} {e e' : Engine σ}
    (h : refreshOver depth refresh id e = some e') : e'.tracking = e.tracking := by
  obtain ⟨e₁, hasked, hsettled⟩ := Option.bind_eq_some_iff.1 h
  have hasked : e₁.tracking = e.tracking := by
    split at hasked
    · split at hasked
      · exact askSources_tracking unframed hasked
      · obtain rfl := Option.some.inj hasked
        rfl
    · obtain rfl := Option.some.inj hasked
      rfl
  refine Eq.trans ?_ hasked
  split at hsettled
  · exact runNode_tracking unframed hsettled
  · obtain rfl := Option.some.inj hsettled
    rfl
  · obtain rfl := Option.some.inj hsettled
    rfl

theorem unframed_refreshWithin (depth : Nat) : Unframed (refreshWithin (σ := σ) depth) := by
  induction depth with
  | zero => exact nofun
  | succ depth ih => exact refreshOver_tracking ih

theorem run_framed {depth : Nat} {p : Program σ} {e e' : Engine σ} {o : Outcome}
    (h : run depth p e = some (o, e')) : Framed e.tracking e'.tracking :=
  Program.exec_framed (unframed_refreshWithin depth) h

/-! ## What is not tracked -/

variable {depth : Nat} {e e' : Engine σ} {o : Outcome}

/-- The reads of an untracked region leave no record. -/
theorem run_untrack {body : Program σ} (h : run depth (.untrack body .done) e = some (o, e')) :
    e'.tracking = e.tracking := by
  obtain ⟨⟨r, e₁⟩, hbody, hrest⟩ := Option.bind_eq_some_iff.1 h
  obtain ⟨-, rfl⟩ := Prod.mk.inj (Option.some.inj hrest)
  exact (Program.exec_framed (unframed_refreshWithin depth) hbody).below

theorem run_peek {cell : Cell} (h : run depth (.peek cell) e = some (o, e')) :
    e'.tracking = e.tracking := by
  obtain ⟨⟨r, e₁⟩, hread, hrest⟩ := Option.bind_eq_some_iff.1 h
  obtain ⟨-, rfl⟩ := Prod.mk.inj (Option.some.inj hrest)
  exact (readCell_tracking (unframed_refreshWithin depth) hread).elim id id

theorem run_renderOnce {source : String} {context : Value}
    (h : run depth (Template.renderOnce source context) e = some (o, e')) :
    e'.tracking = e.tracking := by
  unfold Template.renderOnce at h
  split at h
  · exact run_untrack h
  · obtain ⟨-, rfl⟩ := Prod.mk.inj (Option.some.inj h)
    rfl

theorem run_evaluateOnce {source : String} {context : Value}
    (h : run depth (Template.evaluateOnce source context) e = some (o, e')) :
    e'.tracking = e.tracking := by
  unfold Template.evaluateOnce at h
  split at h
  · exact run_untrack h
  · obtain ⟨-, rfl⟩ := Prod.mk.inj (Option.some.inj h)
    rfl

end Engine

end LiveTemplate.Reactive
