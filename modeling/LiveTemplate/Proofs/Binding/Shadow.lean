import LiveTemplate.Proofs.Binding.Steadiness
import LiveTemplate.Proofs.Reactive.Attentive
import LiveTemplate.Proofs.Reactive.Recast

/-!
# Engines without identities

Bindings ask for identities and follow values, so they are not among the programs that only read. They
have shadows that are (`Program.shadow`): a signal holds the token of its value instead of the value, a
computed remembers the content of its outcome, and the identities that a body asks for are counted from
a bound above all those in use. Shadows are lawful (`Program.lawful_shadow`).

An engine of bindings goes along with its shadow (`Engine.refresh_mirrored`): when the shadow has
brought a computed up to date, then so has the engine, one level of nesting deeper, and what it has then
is what its shadow has.
-/
namespace LiveTemplate.Reactive

variable {σ : Type} {B : Nat}

/-! ## Shadows -/

open Classical in
/-- What the answer to a read of a shadow stands for. -/
noncomputable def hear (B : Nat) : CellKind → Outcome → Outcome
  | .signal, .ok (.text s) => if (Value.redeem s).Plain B then .ok (Value.redeem s) else .ok .undefined
  | .computed, .ok (.text s) => .ok (.text s)
  | _, .ok _ => .ok .undefined
  | _, .error fault => .error fault

theorem hear_token {v : Value} (plain : v.Plain B) : hear B .signal (.ok (.text v.token)) = .ok v := by
  rw [hear, Value.redeem_token]
  exact if_pos plain

theorem plain_hear {kind : CellKind} {o : Outcome} {v : Value} (h : hear B kind o = .ok v) :
    v.Plain B := by
  unfold hear at h
  split at h
  · split at h
    next plain => exact Except.ok.inj h ▸ plain
    next => exact Except.ok.inj h ▸ .undefined
  · exact Except.ok.inj h ▸ .text _
  · exact Except.ok.inj h ▸ .undefined
  · cases h

/-- What is heard of a computed is a text or nothing. -/
theorem plain_hear_computed {k : Nat} {o : Outcome} {v : Value} (h : hear B .computed o = .ok v) :
    v.Plain k := by
  obtain fault | w := o
  · cases h
  · cases w <;> exact Except.ok.inj h ▸ by constructor

theorem hear_congr (kind : CellKind) {o o' : Outcome} (h : o.Alike o') : hear B kind o = hear B kind o' := by
  obtain ⟨-, -, h⟩ := h
  obtain f | v := o <;> obtain g | w := o' <;> simp only [Outcome.agrees, Bool.false_eq_true] at h
  · rw [beq_iff_eq.1 h]
  · cases v <;> cases w <;> simp_all [Value.agrees] <;> cases kind <;> rfl

/-- The content of an outcome. -/
def Outcome.erase : Outcome → Outcome
  | .ok v => .ok v.erase
  | .error fault => .error fault

theorem erase_of_told {o : Outcome} (told : ∀ v, o = .ok v → v = .undefined ∨ ∃ s, v = .text s) :
    o.erase = o := by
  obtain fault | v := o
  · rfl
  · obtain rfl | ⟨s, rfl⟩ := told v rfl <;> rfl

theorem hear_told {o : Outcome} (told : ∀ v, o = .ok v → v = .undefined ∨ ∃ s, v = .text s) :
    hear B .computed o = o := by
  obtain fault | v := o
  · rfl
  · obtain rfl | ⟨s, rfl⟩ := told v rfl <;> rfl

theorem Outcome.equals_erase (o o' : Outcome) : o.erase.equals o'.erase = o.equals o' := by
  cases o <;> cases o' <;> simp only [Outcome.erase, Outcome.equals, Value.equals_erase]

namespace Program

open Classical in
/-- The shadow of a program that is given identities from `i` on. -/
noncomputable def shadow (B : Nat) : Nat → Program σ → Program Unit
  | _, done (.ok v) => if v.Proper then done (.ok v.erase) else pure .undefined
  | _, done (.error fault) => fail fault
  | i, unwrap value next =>
    match value with
    | .cell c => read c true fun r => (next (hear B c.kind r)).shadow B i
    | v => (next (.ok v)).shadow B i
  | i, fresh next => (next i).shadow B (i + 1)
  | _, _ => pure .undefined

theorem lawful_shadow (B i : Nat) (p : Program σ) : (p.shadow B i).Lawful := by
  have idle : (pure .undefined : Program Unit).Lawful := .done (.refl .undefined)
  induction p generalizing i with
  | done o =>
    cases o with
    | error fault => exact .done (.refl trivial)
    | ok v =>
      rw [shadow]
      split
      next proper => exact .done (.refl proper.erase)
      next => exact idle
  | unwrap value next ih =>
    cases value with
    | cell c =>
      refine .read c fun r r' h => ?_
      rw [hear_congr c.kind h]
      exact ih _ _
    | _ => exact ih _ _
  | fresh next ih => exact ih _ _
  | _ => exact idle

/-- The shadow of an effect that hands on what it reads. -/
def watch : Program σ → Program Unit
  | read cell _ _ => get cell
  | _ => pure .undefined

theorem lawful_watch (p : Program σ) : p.watch.Lawful := by
  cases p with
  | read cell => exact .read cell fun _ _ h => .done h
  | _ => exact .done (.refl .undefined)

end Program

noncomputable def shade (σ : Type) (B : Nat) : Recasting (Program σ) (Program Unit) where
  value v := .text v.token
  outcome := Outcome.erase
  formula p := p.shadow B B
  watcher := Program.watch
  equals := Outcome.equals_erase

noncomputable def Graph.shadow (B : Nat) (g : Graph (Program σ)) : Graph (Program Unit) :=
  g.recast (shade σ B)

theorem Graph.find_shadow {g : Graph (Program σ)} {id : NodeId} {n : Node (Program σ)}
    (found : g.node? id = some n) : (g.shadow B).node? id = some (n.recast (shade σ B)) := by
  rw [Graph.shadow, node?_recast, found, Option.map_some]

noncomputable def Engine.shadow (B : Nat) (e : Engine σ) : Engine Unit :=
  ⟨e.graph.shadow B, e.tracking, e.batchDepth, e.flushing, e.settings, 0, ()⟩

/-! ## Engines of bindings -/

/-- The cells that a body may follow: the signals, and computeds of a rank below the bound that show
texts. -/
def Sheet.Offers (s : Sheet σ) (rank : NodeId → Nat) (bound : Nat) (cell : Cell) : Prop :=
  match cell.kind with
  | .signal => ∃ v, s.value? cell.node = some v
  | .computed => rank cell.node < bound ∧ ∃ body, s.body? cell.node = some body ∧ body.Tells

/-- Signals hold plain data, and the bodies are steady and ranked. -/
structure Sheet.Stocked (s : Sheet σ) (k : Nat) (rank : NodeId → Nat) : Prop where
  plain : ∀ {id : NodeId} {v : Value}, s.value? id = some v → v.Plain k
  steady : ∀ {id : NodeId} {body : Program σ}, s.body? id = some body →
    body.Steady k (s.Offers rank (rank id))

/-- What a computed remembers is fit for its body. -/
def Graph.Told (g : Graph (Program σ)) : Prop :=
  ∀ ⦃id : NodeId⦄ ⦃body : Program σ⦄ ⦃running : Bool⦄ ⦃o : Outcome⦄,
    (g.node? id).map (·.kind) = some (.computed body running (some o)) →
      ∀ v, o = .ok v → v.Proper ∧ (body.Tells → ∃ s, v = .text s)

/-- The graph still has the sheet and effects as they should be, and what its computeds remember is
fit. -/
structure Graph.Faithful (s : Sheet σ) (E : NodeId → Program σ → Prop) (g : Graph (Program σ)) : Prop where
  sheet : g.sheet = s
  told : g.Told
  effects : ∀ ⦃id : NodeId⦄ ⦃p : Program σ⦄ ⦃running : Bool⦄,
    (g.node? id).map (·.kind) = some (.effect p running) → E id p

namespace Graph

variable {s : Sheet σ} {E : NodeId → Program σ → Prop} {g : Graph (Program σ)} {id : NodeId}
  {n : Node (Program σ)} {body : Program σ} {last : Option Outcome}

theorem Faithful.setFreshness (hs : g.Faithful s E) (id : NodeId) (f : Freshness) :
    (g.setFreshness id f).Faithful s E := by
  have hsame (x : NodeId) :
      ((g.setFreshness id f).node? x).map (·.kind) = (g.node? x).map (·.kind) := by
    rw [node?_setFreshness]
    split
    · cases g.node? x <;> rfl
    · rfl
  exact ⟨(sheet_setFreshness g id f).trans hs.sheet, fun _ _ _ _ hk => hs.told ((hsame _).symm.trans hk),
    fun _ _ _ hk => hs.effects ((hsame _).symm.trans hk)⟩

theorem Faithful.begun (hs : g.Faithful s E) (found : g.node? id = some n)
    (kind : n.kind = .computed body false last) :
    (g.begun id (.computed body true last)).Faithful s E := by
  refine ⟨(sheet_begun found kind).trans hs.sheet, fun x b running o hk => ?_, fun x p running hk => ?_⟩
  · by_cases hx : x = id
    · subst hx
      rw [begun_self found, Option.map_some] at hk
      obtain ⟨rfl, -, rfl⟩ := NodeKind.computed.inj (Option.some.inj hk)
      exact hs.told (by rw [found, Option.map_some, kind])
    · rw [begun_other hx] at hk
      exact hs.told hk
  · by_cases hx : x = id
    · subst hx
      rw [begun_self found, Option.map_some] at hk
      cases hk
    · rw [begun_other hx] at hk
      exact hs.effects hk

theorem Faithful.finished (hs : g.Faithful s E) (found : s.body? id = some body) {o : Outcome}
    (fit : ∀ v, o = .ok v → v.Proper ∧ (body.Tells → ∃ t, v = .text t)) (sources : List NodeId) :
    (g.finished id sources o).Faithful s E := by
  obtain ⟨n, running, last, hn, hk⟩ := body?_eq_some.1 (hs.sheet ▸ found)
  refine ⟨(sheet_finished hn hk sources _).trans hs.sheet, fun x b running' o' hx => ?_,
    fun x p running' hx => ?_⟩
  all_goals
    rw [kind_finished hn hk] at hx
    split at hx
  · obtain ⟨rfl, -, hlast⟩ := NodeKind.computed.inj (Option.some.inj hx)
    exact Option.some.inj hlast ▸ fit
  · exact hs.told hx
  · cases hx
  · exact hs.effects hx

end Graph

end LiveTemplate.Reactive
