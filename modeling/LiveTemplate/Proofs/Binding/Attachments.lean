import LiveTemplate.Proofs.Binding.Mirroring
import LiveTemplate.Proofs.Reactive.Tidings

/-!
# Attachments at work

The effect of an attachment reads the computed of a binding and hands its value on to a sink, which
changes the host and nothing else (`Binding.into`). While effects are brought up to date, one by one as
the queue is worked off, each attachment is in one of the stages of `Graph.Apprised`, and what its sink has
been handed is what it has heard (`Engine.Watching`). This holds over a run of the attachment itself
(`Engine.run_advanced`), over one turn of the queue (`Engine.turn`), and over a flush that does not give up
(`Engine.flush_advanced`).

The shadow of the engine is where the stages are kept account of: the engine goes along with it, and hands
on what the shadow shows.
-/
namespace LiveTemplate

open Reactive

/-- A sink that changes the host and nothing else. -/
def Binding.into {σ : Type} (push : Value → σ → σ) (v : Value) : Program σ :=
  .adjust (push v) (.pure .undefined)

namespace Reactive

variable {σ : Type}

namespace Graph

variable {s : Sheet σ} {E : NodeId → Program σ → Prop} {g h : Graph (Program σ)} {y : NodeId}

/-- Where an effect stands there is no cell. -/
theorem unset_of_effect {n : Node (Program σ)} {p : Program σ} {running : Bool}
    (found : g.node? y = some n) (kind : n.kind = .effect p running) :
    g.sheet.value? y = none ∧ g.sheet.body? y = none := by
  simp [sheet, found, kind, NodeKind.value?, NodeKind.formula?]

/-- Where there is no cell, there is nothing but an effect. -/
theorem effect_of_unset (unset : g.sheet.value? y = none ∧ g.sheet.body? y = none)
    {n : Node (Program σ)} (found : g.node? y = some n) : ∃ p running, n.kind = .effect p running := by
  obtain ⟨_, _, _, _, _⟩ := n
  rename_i kind _ _ _ _
  cases kind with
  | effect p running => exact ⟨p, running, rfl⟩
  | signal v => simp [sheet, found, NodeKind.value?] at unset
  | computed body running last => simp [sheet, found, NodeKind.formula?] at unset

/-- Where an effect stands there is nothing that the cells have, before or after. -/
theorem bind_kind_aside {α : Type} (f : NodeKind (Program σ) → Option α)
    (blank : ∀ p running, f (.effect p running) = none) (unset : (g.node? y).bind (fun n => f n.kind) = none)
    (other : ∀ x, x ≠ y → (h.node? x).map (·.kind) = (g.node? x).map (·.kind))
    (effect : ∀ m, h.node? y = some m → ∃ p running, m.kind = .effect p running) (x : NodeId) :
    (h.node? x).bind (fun n => f n.kind) = (g.node? x).bind fun n => f n.kind := by
  by_cases hx : x = y
  · subst hx
    rw [unset, Option.bind_eq_none_iff]
    intro m hm
    obtain ⟨p, running, hk⟩ := effect m hm
    rw [hk, blank]
  · simpa only [Option.bind_map, Function.comp_def] using congrArg (Option.bind · f) (other x hx)

/-- What happens to an effect does not concern the cells. -/
theorem Faithful.aside (hs : g.Faithful s E) (unset : s.value? y = none ∧ s.body? y = none)
    (other : ∀ x, x ≠ y → (h.node? x).map (·.kind) = (g.node? x).map (·.kind))
    (effect : ∀ m, h.node? y = some m → ∃ p running, m.kind = .effect p running ∧ E y p) :
    h.Faithful s E := by
  obtain ⟨rfl, told, effects⟩ := hs
  have heffect (m : Node (Program σ)) (hm : h.node? y = some m) : ∃ p running, m.kind = .effect p running :=
    have ⟨p, running, hk, _⟩ := effect m hm
    ⟨p, running, hk⟩
  refine ⟨sheet_congr (bind_kind_aside _ (fun _ _ => rfl) unset.1 other heffect)
    (bind_kind_aside _ (fun _ _ => rfl) unset.2 other heffect), fun x body running o hx => ?_,
    fun x p running hx => ?_⟩
  · by_cases hxy : x = y
    · subst hxy
      obtain ⟨m, hm, hk⟩ := Option.map_eq_some_iff.1 hx
      obtain ⟨p, running', hk'⟩ := heffect m hm
      rw [hk'] at hk
      cases hk
    · exact told ((other x hxy).symm.trans hx)
  · by_cases hxy : x = y
    · subst hxy
      obtain ⟨m, hm, hk⟩ := Option.map_eq_some_iff.1 hx
      obtain ⟨p', running', hk', hE⟩ := effect m hm
      obtain ⟨rfl, -⟩ := NodeKind.effect.inj (hk.symm.trans hk')
      exact hE
    · exact effects ((other x hxy).symm.trans hx)

theorem kind_effectFinished_of_ne (g : Graph (Program σ)) (sources : List NodeId) {x : NodeId}
    (other : x ≠ y) :
    ((g.effectFinished y sources).node? x).map (·.kind) = (g.node? x).map (·.kind) := by
  rw [effectFinished, node?_modifyNode_of_ne _ _ other]
  cases hy : g.node? y with
  | none => simp [relink, hy]
  | some n =>
    rw [node?_relink hy]
    cases g.node? x <;> rfl

theorem Faithful.effectFinished (hs : g.Faithful s E) (unset : s.value? y = none ∧ s.body? y = none)
    (sources : List NodeId) : (g.effectFinished y sources).Faithful s E := by
  refine hs.aside unset (fun x hx => kind_effectFinished_of_ne g sources hx) fun m hm => ?_
  cases hy : g.node? y with
  | none => simp [Graph.effectFinished, relink, hy] at hm
  | some n =>
    obtain ⟨p, running, hk⟩ := effect_of_unset (hs.sheet ▸ unset) hy
    rw [Graph.effectFinished, node?_modifyNode_self, node?_relink hy, hy] at hm
    simp only [Option.map_some, Option.some.injEq, relinked, hk] at hm
    subst hm
    exact ⟨p, false, rfl, hs.effects (by rw [hy, Option.map_some, hk])⟩

end Graph

namespace Engine

open Reactive.Graph

variable {B k : Nat} {s : Sheet σ} {E : NodeId → Program σ → Prop} {e : Engine σ} {m : Engine Unit}
  {y c : NodeId}
  {push : Value → σ → σ} {refresh : NodeId → Engine σ → Option (Engine σ)}
  {refresh' : NodeId → Engine Unit → Option (Engine Unit)}

/-- The host after an outcome was handed on. -/
def handOn (push : Value → σ → σ) (o : Outcome) (host : σ) : σ :=
  match o with
  | .ok v => push v host
  | .error _ => host

theorem shadow_restEffect (e : Engine σ) (y : NodeId) :
    ((e.closeRun y).restEffect y).shadow B = ((e.shadow B).closeRun y).restEffect y := by
  rw [restEffect_closeRun, restEffect_closeRun]
  simp only [Engine.shadow]
  congr 1
  exact (effectFinished_recast (shade σ B) e.graph y e.collected).symm

/-- The effect of an attachment reads the computed and hands its value on. -/
theorem exec_delivery {o : Outcome} {e' : Engine σ} (depth : Nat)
    (read : e.readCell refresh ⟨.computed, c⟩ true = some (o, e')) :
    (Binding.delivery c (Binding.into push)).exec depth refresh e =
      some (.ok .undefined, { e' with host := handOn push o e'.host }) := by
  rw [Binding.delivery, Program.exec, read]
  cases o <;> rfl

/-- When the shadow of an attachment has run, so has the attachment, and has handed on what the computed
shows. -/
theorem attachment_mirrored (mirrors : Mirrors B k s E refresh refresh') (faithful : e.graph.Faithful s E)
    (known : k ≤ e.identities) {n : Node (Program σ)} (found : e.graph.node? y = some n)
    (kind : n.kind = .effect (Binding.delivery c (Binding.into push)) false) {body : Program σ}
    (computes : s.body? c = some body) (idle : ∀ n, e.graph.node? c = some n → n.isRunning = false)
    {depth : Nat} (ran : runNode depth refresh' y (e.shadow B) = some m) :
    ∃ o e', runNode (depth + 1) refresh y e = some e' ∧ e'.shadow B = m ∧ e'.graph.Faithful s E ∧
      e.identities ≤ e'.identities ∧ e'.host = handOn push o e.host ∧
      (body.Tells → m.graph.shown c = o) := by
  have hunset := unset_of_effect found kind
  rw [faithful.sheet] at hunset
  have hne : c ≠ y := by
    rintro rfl
    simp [hunset.2] at computes
  have hbegun : (e.graph.begun y (.effect (Binding.delivery c (Binding.into push)) true)).Faithful s E :=
    faithful.aside hunset (fun x hx => by rw [begun_other hx]) fun m hm => by
      obtain rfl := Option.some.inj ((begun_self found _).symm.trans hm)
      exact ⟨_, _, rfl, faithful.effects (by rw [found, Option.map_some, kind])⟩
  obtain ⟨_, f, sources, subscribers, owner⟩ := n
  subst kind
  have hn' := node?_shadow (B := B) found
  simp only [Node.recast, NodeKind.recast] at hn'
  simp only [runNode, hn'] at ran
  obtain ⟨⟨_, m₁⟩, hran, rfl⟩ := Option.map_eq_some_iff.1 ran
  have hshadow := shadow_beginRun (B := B) e y (.effect (Binding.delivery c (Binding.into push)) true)
  simp only [NodeKind.recast] at hshadow
  rw [← hshadow] at hran
  obtain ⟨⟨o, m₂⟩, hread, heq⟩ := Option.bind_eq_some_iff.1 hran
  obtain ⟨rfl, rfl⟩ := Prod.mk.inj (Option.some.inj heq)
  obtain ⟨o', e₁, hread', rfl, hshown, fit, hmirrored⟩ := readComputed_mirrored mirrors
    (e := e.beginRun y (.effect (Binding.delivery c (Binding.into push)) true)) hbegun known computes
    (fun n hn => idle n ((begun_other hne).symm.trans hn)) hread
  refine ⟨o', _, by simp only [runNode, found, exec_delivery _ hread', Option.map_some]; rfl, ?_, ?_,
    ?_, ?_, ?_⟩
  · rw [shadow_restEffect]
    congr 2
    exact hmirrored.shadow
  all_goals rw [restEffect_closeRun]
  · exact hmirrored.faithful.effectFinished hunset _
  · exact hmirrored.identities
  · exact congrArg (handOn push o') hmirrored.host
  · intro tells
    refine (shown_congr (kind_effectFinished_of_ne _ _ hne)).trans (hshown.trans ?_)
    exact erase_of_told fun v hv => (fit v hv).2 tells

/-! ## Turns -/

/-- Effects hand what computeds show on to sinks. Only one's own sink writes to the log, and adds what it
is handed. -/
def Wired (log : σ → List Value) (s : Sheet σ) (own : NodeId → Prop) (y : NodeId) (p : Program σ) :
    Prop :=
  ∃ c push body, p = Binding.delivery c (Binding.into push) ∧ s.body? c = some body ∧
    (own y → ∀ v host, log (push v host) = log host ++ [v]) ∧
      (¬own y → ∀ v host, log (push v host) = log host)

/-- An engine of bindings at work. -/
structure Underway (B k : Nat) (s : Sheet σ) (log : σ → List Value) (own : NodeId → Prop)
    (e : Engine σ) : Prop where
  faithful : e.graph.Faithful s (Wired log s own)
  known : k ≤ e.identities
  attentive : (e.graph.shadow B).Attentive

/-- The log holds the past, and what the attachment has heard since the computed showed this. -/
structure Watching (B : Nat) (log : σ → List Value) (x c : NodeId) (o : Outcome) (past : List Value)
    (e : Engine σ) : Prop where
  hooked : (e.graph.shadow B).Hooked x c
  heard : ∃ l, (e.graph.shadow B).Apprised x c o l ∧ log e.host = past ++ l.filterMap Except.toOption

variable {log : σ → List Value} {own : NodeId → Prop} {x : NodeId} {o : Outcome} {past : List Value}
  {e' : Engine σ} {P : NodeId → Prop} {rank : NodeId → Nat}

/-- Other nodes are brought up to date, and the log stays. -/
theorem Watching.still (w : Watching B log x c o past e) (hs : (e.graph.shadow B).Attentive)
    (flat : o.Flat) (hr : (e.graph.shadow B).Refreshed P (e'.graph.shadow B)) (apart : ¬P x)
    (same : log e'.host = log e.host) : Watching B log x c o past e' := by
  obtain ⟨l, heard, hlog⟩ := w.heard
  exact ⟨w.hooked.refreshed hr, l, heard.refreshed hs w.hooked flat hr apart, same.trans hlog⟩

theorem log_handOn_spared (spared : ∀ v host, log (push v host) = log host) (o : Outcome) (host : σ) :
    log (handOn push o host) = log host := by
  cases o with
  | error => rfl
  | ok v => exact spared v host

theorem log_handOn_own (adds : ∀ v host, log (push v host) = log host ++ [v]) (o : Outcome) (host : σ) :
    log (handOn push o host) = log host ++ [o].filterMap Except.toOption := by
  cases o with
  | error => simp [handOn, Except.toOption]
  | ok v => simp [handOn, Except.toOption, adds]

/-- The attachment found in the shadow of an engine. -/
theorem Underway.attachment (under : Underway B k s log own e) {n : Node (Program Unit)}
    {q : Program Unit} {running : Bool} (found : (e.graph.shadow B).node? y = some n)
    (kind : n.kind = .effect q running) :
    ∃ n₀ c push body, e.graph.node? y = some n₀ ∧ q = .get ⟨.computed, c⟩ ∧
      n₀.kind = .effect (Binding.delivery c (Binding.into push)) running ∧ s.body? c = some body ∧
      (own y → ∀ v host, log (push v host) = log host ++ [v]) ∧
      (¬own y → ∀ v host, log (push v host) = log host) := by
  obtain ⟨n₀, hn₀, rfl⟩ := Option.map_eq_some_iff.1 ((node?_recast _ _ _).symm.trans found)
  obtain ⟨kind₀, _, _, _, _⟩ := n₀
  cases kind₀ <;> cases kind
  rename_i p
  obtain ⟨c, push, body, rfl, hbody, hown, hother⟩ := under.faithful.effects (by rw [hn₀]; rfl)
  exact ⟨_, c, push, body, hn₀, rfl, rfl, hbody, hown, hother⟩

/-- The engine has gone on, and what its attachments have been handed is what they have heard. -/
structure Advanced (B k : Nat) (s : Sheet σ) (log : σ → List Value) (own : NodeId → Prop)
    (e e' : Engine σ) : Prop where
  underway : Underway B k s log own e'
  identities : e.identities ≤ e'.identities
  watching : ∀ {x c : NodeId} {o : Outcome} {past : List Value} {body : Program σ}, own = (· = x) →
    o.Flat → s.body? c = some body → body.Tells → Watching B log x c o past e →
      Watching B log x c o past e'

theorem Advanced.trans {e₁ : Engine σ} (h : Advanced B k s log own e e₁)
    (h' : Advanced B k s log own e₁ e') : Advanced B k s log own e e' where
  underway := h'.underway
  identities := h.identities.trans h'.identities
  watching hx flat hc tells w := h'.watching hx flat hc tells (h.watching hx flat hc tells w)

theorem Advanced.refl (under : Underway B k s log own e) : Advanced B k s log own e e :=
  ⟨under, Nat.le_refl _, fun _ _ _ _ w => w⟩

/-- The shadow looks only at the nodes. -/
theorem node?_shadow_congr {g h : Graph (Program σ)} (same : ∀ x, h.node? x = g.node? x) (x : NodeId) :
    (h.shadow B).node? x = (g.shadow B).node? x := by
  simp only [Graph.shadow, node?_recast, same]

theorem Underway.aside (under : Underway B k s log own e)
    (same : ∀ x, e'.graph.node? x = e.graph.node? x) (pending : e'.graph.pending ⊆ e.graph.pending)
    (identities : e.identities ≤ e'.identities) : Underway B k s log own e' where
  faithful := ⟨(sheet_of_node? same).trans under.faithful.sheet,
    fun _ _ _ _ hk => under.faithful.told (same _ ▸ hk),
    fun _ _ _ hk => under.faithful.effects (same _ ▸ hk)⟩
  known := under.known.trans identities
  attentive := under.attentive.congr (node?_shadow_congr same) pending

/-- The nodes are the same, and nothing has been handed on. -/
theorem Advanced.aside (under : Underway B k s log own e)
    (same : ∀ x, e'.graph.node? x = e.graph.node? x) (pending : e'.graph.pending ⊆ e.graph.pending)
    (identities : e.identities ≤ e'.identities) (host : e'.host = e.host) :
    Advanced B k s log own e e' := by
  have hshadow := node?_shadow_congr (B := B) same
  refine ⟨under.aside same pending identities, identities, fun _ _ _ _ w => ?_⟩
  obtain ⟨⟨n, running, hn, hk⟩, l, heard, hlog⟩ := w
  refine ⟨⟨n, running, (hshadow _).trans hn, hk⟩, l, heard.congr ?_ ?_ ?_, host ▸ hlog⟩
  · simp only [freshness?, hshadow]
  · rintro ⟨t, ht, hset⟩
    exact ⟨t, (hshadow _).trans ht, hset⟩
  · simp only [shown, hshadow]

theorem not_computes_of_hooked {g : Graph (Program Unit)} (hooked : g.Hooked x c) : ¬g.sheet.Computes x := by
  obtain ⟨n, running, hn, hk⟩ := hooked
  exact not_computes_of_effect hn hk

/-- Only computeds were brought up to date. -/
theorem Advanced.of_mirrored {m : Engine Unit} (under : Underway B k s log own e)
    (mirrored : Mirrored B s (Wired log s own) e e' m)
    (hr : (e.graph.shadow B).Refreshed P (e'.graph.shadow B))
    (cells : ∀ x, P x → (e.graph.shadow B).sheet.Computes x)
    (attentive : (e'.graph.shadow B).Attentive) : Advanced B k s log own e e' where
  underway := ⟨mirrored.faithful, under.known.trans mirrored.identities, attentive⟩
  identities := mirrored.identities
  watching _ flat _ _ w := w.still under.attentive flat hr
    (fun hp => not_computes_of_hooked w.hooked (cells _ hp)) (by rw [mirrored.host])

/-- An attachment that has to run hands on what the computed shows. -/
theorem run_attachment (stocked : s.Stocked k rank) (bound : k ≤ B) (under : Underway B k s log own e)
    {F : Forecast} (hF : (e.graph.shadow B).sheet.Obeys F) {n : Node (Program σ)} {body : Program σ}
    (found : e.graph.node? y = some n)
    (kind : n.kind = .effect (Binding.delivery c (Binding.into push)) false)
    (dirty : n.freshness = .dirty) (computes : s.body? c = some body) {level d : Nat} (deep : level ≤ d)
    (ready : ∀ cell ∈ (Program.get ⟨.computed, c⟩ : Program Unit).cells F.outcome,
      Ready F level (e.graph.shadow B).sheet cell) :
    ∃ e' o, runNode (d + 1) (refreshWithin (d + 1)) y e = some e' ∧ Underway B k s log own e' ∧
      e.identities ≤ e'.identities ∧ e'.host = handOn push o e.host ∧
      (body.Tells → (e'.graph.shadow B).shown c = o) ∧
      Heeded ((e.graph.shadow B).sheet.below F level) y (e.graph.shadow B) (e'.graph.shadow B) := by
  have hyields : Yields (level ≤ d) (runNode d (refreshWithin d) y (e.shadow B)) _ :=
    heed_run (serves_refreshWithin F d) under.attentive hF (node?_shadow found)
      (by rw [Node.kind_recast, kind]; rfl) (by simp [dirty]) ready
  obtain ⟨m, hm⟩ := Option.isSome_iff_exists.1 (hyields.2 deep)
  obtain ⟨g, rfl, heeded⟩ := hyields.1 m hm
  have hidle (t : Node (Program σ)) (ht : e.graph.node? c = some t) : t.isRunning = false := by
    have := under.attentive.idle trivial (node?_shadow (B := B) ht)
    obtain ⟨kind, _, _, _, _⟩ := t
    cases kind <;> exact this
  obtain ⟨o, e', hran, hshadow, faithful, identities, hhost, told⟩ := attachment_mirrored
    (refresh_mirrored stocked bound d) under.faithful under.known found kind computes hidle hm
  obtain rfl : e'.graph.shadow B = g := congrArg Engine.graph hshadow
  exact ⟨e', o, hran, ⟨faithful, under.known.trans identities, heeded.attentive⟩, identities, hhost, told,
    heeded⟩

theorem run_advanced (stocked : s.Stocked k rank) (bound : k ≤ B) (under : Underway B k s log own e)
    {F : Forecast} (hF : (e.graph.shadow B).sheet.Obeys F) {n : Node (Program Unit)} {q : Program Unit}
    (found : (e.graph.shadow B).node? y = some n) (kind : n.kind = .effect q false)
    (dirty : n.freshness = .dirty) {level d : Nat} (deep : level ≤ d)
    (ready : ∀ cell ∈ q.cells F.outcome, Ready F level (e.graph.shadow B).sheet cell) :
    ∃ e', runNode (d + 1) (refreshWithin (d + 1)) y e = some e' ∧ Advanced B k s log own e e' ∧
      Heeded ((e.graph.shadow B).sheet.below F level) y (e.graph.shadow B) (e'.graph.shadow B) := by
  obtain ⟨n₀, c, push, body, hn₀, rfl, hk₀, hbody, hown, hother⟩ := under.attachment found kind
  obtain rfl := Option.some.inj ((node?_shadow hn₀).symm.trans found)
  obtain ⟨e', o, hran, under', identities, hhost, told, heeded⟩ := run_attachment stocked bound under
    hF hn₀ hk₀ dirty hbody deep ready
  refine ⟨e', hran, ⟨under', identities, fun {x c' o' past body'} hx flat hc tells w => ?_⟩, heeded⟩
  by_cases hxy : x = y
  · subst hxy
    obtain ⟨n', running, hn', hk'⟩ := w.hooked
    obtain rfl := Option.some.inj (found.symm.trans hn')
    obtain ⟨hget, -⟩ := NodeKind.effect.inj (kind.symm.trans hk')
    obtain rfl : c = c' := by
      injection hget with hcell
      exact congrArg Cell.node hcell
    obtain rfl := Option.some.inj (hbody.symm.trans hc)
    obtain ⟨l, heard, hlog⟩ := w.heard
    obtain ⟨rfl, hheard⟩ := heard.run (by rw [freshness?, found, Option.map_some, dirty])
      heeded.refreshed heeded.clean
    refine ⟨w.hooked.refreshed heeded.refreshed, _, hheard, ?_⟩
    rw [hhost, log_handOn_own (hown (hx ▸ rfl)), hlog, told tells]
    simp
  · refine w.still under.attentive flat heeded.refreshed ?_ ?_
    · rintro (hbelow | rfl)
      · exact not_computes_of_hooked w.hooked hbelow.1
      · exact hxy rfl
    · refine (congrArg log hhost).trans (log_handOn_spared (hother fun h => ?_) _ _)
      exact hxy (Eq.symm (by rwa [hx] at h))

/-- An attachment that does not have to run. -/
theorem rest_advanced (under : Underway B k s log own e) {n : Node (Program Unit)} {q : Program Unit}
    (found : (e.graph.shadow B).node? y = some n) (kind : n.kind = .effect q false)
    (stale : n.freshness = .stale) (settled : ∀ s ∈ n.sources, (e.graph.shadow B).Settled s) :
    Advanced B k s log own e { e with graph := e.graph.setFreshness y .clean } ∧
      Heeded (fun _ => True) y (e.graph.shadow B) ((e.graph.setFreshness y .clean).shadow B) := by
  have heeded := Heeded.rested (P := fun _ => True) under.attentive found kind stale settled
  rw [← shadow_setFreshness] at heeded
  refine ⟨⟨⟨under.faithful.setFreshness y .clean, under.known, heeded.attentive⟩, Nat.le_refl _,
    fun {x c o past body} _ flat _ _ w => ?_⟩, heeded⟩
  by_cases hxy : x = y
  · subst hxy
    obtain ⟨l, heard, hlog⟩ := w.heard
    refine ⟨w.hooked.refreshed heeded.refreshed, l, heard.rest ?_ ?_ heeded.clean, hlog⟩
    · rw [freshness?, found, Option.map_some, stale]
    · rw [shadow_setFreshness, shown_setFreshness]
  · have hr := ((under.attentive.coherent.on fun _ => True).refreshed_rested found stale)
    rw [← shadow_setFreshness] at hr
    exact w.still under.attentive flat hr hxy rfl

/-- What a program reads that ends on the sheet is live, and ranks below the end. -/
theorem ready_of_ends {g : Graph (Program σ)} {level : Nat} {p : Program σ} {end_ : Outcome}
    (ends : g.sheet.Ends level p end_) :
    ∀ cell ∈ p.cells g.sheet.forecast.outcome, Ready g.sheet.forecast level g.sheet cell :=
  fun cell read => have h := (ends.foretold fun _ _ => value?_of_body?).2 cell read
    ⟨h.1, h.2⟩

/-- One turn: an attachment is brought up to date. -/
theorem turn (stocked : s.Stocked k rank) (bound : k ≤ B) (under : Underway B k s log own e)
    {n : Node (Program Unit)} {q : Program Unit} (found : (e.graph.shadow B).node? y = some n)
    (kind : n.kind = .effect q false) {level d : Nat} {end_ : Outcome}
    (ends : (e.graph.shadow B).sheet.Ends level q end_) (deep : level ≤ d) :
    ∃ e', refreshWithin (d + 2) y e = some e' ∧ Advanced B k s log own e e' ∧
      Heeded (fun _ => True) y (e.graph.shadow B) (e'.graph.shadow B) := by
  have hF := Sheet.obeys_forecast (s := (e.graph.shadow B).sheet) fun _ _ => value?_of_body?
  have hready := ready_of_ends ends
  have hyields := heed_askStale (e := e.shadow B) (serves_refreshWithin _ d) under.attentive hF found
    kind hready
  obtain ⟨m₁, hm₁⟩ := Option.isSome_iff_exists.1 (hyields.2 deep)
  obtain ⟨g, rfl, hr, hg, m, hm, hkept, hend⟩ := hyields.1 m₁ hm₁
  obtain ⟨e₁, hasked, hmirrored⟩ := askStale_mirrored (refresh_mirrored stocked bound d)
    under.faithful under.known hm₁
  obtain rfl : e₁.graph.shadow B = g := congrArg Engine.graph hmirrored.shadow
  have hfirst := Advanced.of_mirrored under hmirrored hr (fun x hx => hx.1) hg
  have hr' := hr.mono (Q := fun x => True ∨ x = y) fun _ _ => .inl trivial
  have hfresh : (e₁.graph.shadow B).freshness? y = some m.freshness := by
    rw [freshness?, hm, Option.map_some]
  have hreal : e₁.graph.freshness? y = some m.freshness := (freshness?_shadow e₁ y).symm.trans hfresh
  have hkind := hkept.kind.trans kind
  rw [refreshWithin, refreshOver_eq, hasked, Option.bind_some]
  simp only [hreal]
  cases hcase : m.freshness with
  | clean => exact ⟨e₁, rfl, hfirst, hr', hg, hfresh.trans (by rw [hcase])⟩
  | dirty =>
    obtain ⟨e', hran, hadvanced, heeded⟩ := run_advanced stocked bound hfirst.underway (hr.sheet ▸ hF) hm
      hkind hcase deep (hr.sheet ▸ hready)
    exact ⟨e', hran, hfirst.trans hadvanced,
      hr'.trans (heeded.refreshed.mono fun _ _ => .inl trivial), heeded.attentive, heeded.clean⟩
  | stale =>
    obtain ⟨hadvanced, heeded⟩ := rest_advanced hfirst.underway hm hkind hcase (hend hcase)
    exact ⟨_, rfl, hfirst.trans hadvanced, hr'.trans heeded.refreshed, heeded.attentive, heeded.clean⟩

/-- Working off the queue, unless it is given up. -/
theorem drain_advanced (stocked : s.Stocked k rank) (bound : k ≤ B) {level d : Nat} (deep : level ≤ d)
    (under : Underway B k s log own e) (shallow : (e.graph.shadow B).Shallow level) (runs : Nat) :
    ∃ settled e', drain (refreshWithin (d + 2)) runs e = some (settled, e') ∧
      (settled = true → Advanced B k s log own e e') := by
  refine drain_turns (motive := fun _ e r => Underway B k s log own e →
      (e.graph.shadow B).Shallow level →
        ∃ settled e', r = some (settled, e') ∧ (settled = true → Advanced B k s log own e e'))
    (fun {_ e} _ under _ => ⟨true, e, rfl, fun _ => .refl under⟩)
    (fun _ _ _ => ⟨false, _, rfl, nofun⟩) (fun {_ e _ y} hsome ih under shallow => ?_)
    runs e under shallow
  obtain ⟨rest, hp, rfl⟩ := dequeue_eq_some hsome
  have hy : y ∈ (e.graph.shadow B).pending := by
    rw [Graph.shadow, pending_recast, hp]
    exact List.mem_cons_self
  obtain ⟨n, hn, heffect⟩ := under.attentive.queued y hy
  obtain ⟨q, running, hk⟩ := Node.kind_of_isEffect heffect
  obtain rfl : running = false := by simpa [Node.isRunning, hk] using under.attentive.idle trivial hn
  obtain ⟨o, ends⟩ := shallow y hy hn hk
  have hfirst : Advanced B k s log own e (e.queueing rest) :=
    .aside under (fun _ => rfl) (by simp [queueing, hp]) (Nat.le_refl _) rfl
  obtain ⟨e₁, hturn, hadvanced, heeded⟩ := turn stocked bound hfirst.underway (y := y) hn hk ends deep
  have hr := heeded.refreshed
  have hshallow : (e₁.graph.shadow B).Shallow level := fun x hx {m p running} hm hkind => by
    obtain ⟨m₀, hm₀, hk₀⟩ := hr.effect hm hkind
    have hrest : x ∈ rest := show x ∈ ((e.queueing rest).graph.shadow B).pending from hr.pending ▸ hx
    rw [hr.sheet]
    exact shallow x (by simp [Graph.shadow, hp, hrest]) hm₀ hk₀
  obtain ⟨settled, e', hdrain, hrest⟩ := ih e₁ hadvanced.underway hshallow
  exact ⟨settled, e', (congrArg (Option.bind · _) hturn).trans hdrain,
    fun h => (hfirst.trans hadvanced).trans (hrest h)⟩

/-- A flush that does not give up. -/
theorem flush_advanced (stocked : s.Stocked k rank) (bound : k ≤ B) (under : Underway B k s log own e) :
    ∃ depth r e', flush (refreshWithin depth) e = some (r, e') ∧
      (Calm r → Advanced B k s log own e e') := by
  obtain ⟨level, shallow⟩ := under.attentive.exists_shallow
  by_cases held : e.batchDepth > 0 || e.flushing
  · exact ⟨0, .ok (), e, by rw [flush, if_pos held], fun _ => .refl under⟩
  · have hstart : Advanced B k s log own e { e with flushing := true } :=
      .aside under (fun _ => rfl) (List.Subset.refl _) (Nat.le_refl _) rfl
    obtain ⟨settled, e₁, hdrain, hadvanced⟩ := drain_advanced stocked bound (Nat.le_refl level)
      hstart.underway shallow e.settings.maxRuns
    refine ⟨level + 2, _, _, by rw [flush, if_neg held, hdrain, Option.map_some], fun calm => ?_⟩
    have hsettled : settled = true := by
      cases settled with
      | true => rfl
      | false => exact absurd rfl (calm _)
    exact (hstart.trans (hadvanced hsettled)).trans
      (.aside (hadvanced hsettled).underway (fun _ => rfl) (List.Subset.refl _) (Nat.le_refl _) rfl)

end Engine

end Reactive

end LiveTemplate
