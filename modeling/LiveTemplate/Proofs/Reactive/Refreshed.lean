import LiveTemplate.Proofs.Reactive.Coherence

/-!
# Bringing nodes up to date, seen from the others

`Graph.Refreshed P g h` says how `h` comes from `g` when late nodes of the property `P` are brought
up to date: those may become clean with a new result, every other node keeps what it is and
remembers. A stale node may become dirty, and if it does not, then what it has recorded shows what it
showed before.

The relation is reflexive on proper graphs and transitive, and keeps what settled nodes show.
-/
namespace LiveTemplate.Reactive

variable {β σ : Type}

/-- A kind without what running the node changes. -/
def NodeKind.skeleton : NodeKind β → NodeKind β
  | .computed body running _ => .computed body running none
  | kind => kind

namespace Node

/-- The node is as it was, but may have to run now. -/
structure Kept (n m : Node β) : Prop where
  kind : m.kind = n.kind
  sources : m.sources = n.sources
  freshness : m.freshness = n.freshness ∨ n.freshness = .stale ∧ m.freshness = .dirty

/-- The node was late and is no longer. -/
structure Updated (n m : Node β) : Prop where
  skeleton : m.kind.skeleton = n.kind.skeleton
  idle : n.isRunning = false
  late : n.freshness ≠ .clean
  clean : m.freshness = .clean

variable {n m k : Node β}

theorem Kept.refl (n : Node β) : n.Kept n := ⟨rfl, rfl, .inl rfl⟩

theorem Kept.clean_iff (h : n.Kept m) : m.freshness = .clean ↔ n.freshness = .clean := by
  rcases h.freshness with hf | ⟨hn, hm⟩
  · rw [hf]
  · simp [hn, hm]

theorem Kept.trans (h : n.Kept m) (h' : m.Kept k) : n.Kept k := by
  refine ⟨h'.kind.trans h.kind, h'.sources.trans h.sources, ?_⟩
  rcases h.freshness with hf | ⟨hn, hm⟩ <;> rcases h'.freshness with hf' | ⟨hm', hk⟩
  · exact .inl (hf'.trans hf)
  · exact .inr ⟨hf ▸ hm', hk⟩
  · exact .inr ⟨hn, hf'.trans hm⟩
  · rw [hm] at hm'
    cases hm'

theorem Kept.skeleton (h : n.Kept m) : m.kind.skeleton = n.kind.skeleton := by
  rw [h.kind]

theorem isRunning_of_skeleton (h : m.kind.skeleton = n.kind.skeleton) :
    m.isRunning = n.isRunning := by
  rcases n with ⟨kind, _⟩
  rcases m with ⟨kind', _⟩
  cases kind <;> cases kind' <;> simp_all [NodeKind.skeleton, isRunning]

theorem isEffect_of_skeleton (h : m.kind.skeleton = n.kind.skeleton) :
    m.isEffect = n.isEffect := by
  rcases n with ⟨kind, _⟩
  rcases m with ⟨kind', _⟩
  cases kind <;> cases kind' <;> simp_all [NodeKind.skeleton, isEffect]

theorem Kept.updated (h : n.Kept m) (h' : m.Updated k) : n.Updated k :=
  ⟨h'.skeleton.trans h.skeleton, (isRunning_of_skeleton h.skeleton).symm.trans h'.idle,
    fun hn => h'.late (h.clean_iff.2 hn), h'.clean⟩

theorem Updated.kept (h : n.Updated m) (h' : m.Kept k) : n.Updated k :=
  ⟨h'.skeleton.trans h.skeleton, h.idle, h.late, h'.clean_iff.2 h.clean⟩

theorem isSettled_of_clean (h : n.isSettled = true) (late : n.freshness ≠ .clean) :
    ∃ v, n.kind = .signal v := by
  cases hk : n.kind <;> simp_all [isSettled, isClean]

theorem Kept.isSettled (h : n.Kept m) : m.isSettled = n.isSettled := by
  have : m.isClean = n.isClean := by
    rw [Bool.eq_iff_iff, isClean_iff, isClean_iff]
    exact h.clean_iff
  simp only [Node.isSettled, h.kind, this]

/-- A settled node shows the same after an update, for only a signal can be both late and settled. -/
theorem Updated.kind_of_isSettled (h : n.Updated m) (settled : n.isSettled = true) :
    m.kind = n.kind := by
  obtain ⟨v, hv⟩ := isSettled_of_clean settled h.late
  have hskeleton := h.skeleton
  rw [hv] at hskeleton ⊢
  cases hk : m.kind <;> simp_all [NodeKind.skeleton]

end Node

namespace Graph

/-- The computed was late and has come up to date, with an outcome that does not equal its last one. -/
structure News (g h : Graph β) (id : NodeId) : Prop where
  late : ¬g.Settled id
  settled : h.Settled id
  differs : ∃ n body running last, g.node? id = some n ∧ n.kind = .computed body running last ∧
    ∀ old, last = some old → old.equals (h.shown id) = false

structure Refreshed (P : NodeId → Prop) (g h : Graph β) : Prop where
  pending : h.pending = g.pending
  live : ∀ x, (h.node? x).isSome = (g.node? x).isSome
  each : ∀ {x : NodeId} {n m : Node β}, g.node? x = some n → h.node? x = some m →
    n.Kept m ∨ P x ∧ n.Updated m
  steady : ∀ {x : NodeId} {n m : Node β}, g.node? x = some n → h.node? x = some m →
    n.freshness = .stale → m.freshness = .stale → ∀ s ∈ n.sources, (g.shown s).Alike (h.shown s)
  /-- Nothing but news makes a stale node dirty. -/
  roused : ∀ {x : NodeId} {n m : Node β}, g.node? x = some n → h.node? x = some m →
    n.freshness = .stale → m.freshness = .dirty → ∃ s ∈ n.sources, g.News h s

variable {P Q : NodeId → Prop} {g h k : Graph β}

theorem Refreshed.refl (proper : ∀ id, (g.shown id).Proper) : g.Refreshed P g where
  pending := rfl
  live _ := rfl
  each hn hm := by
    obtain rfl := Option.some.inj (hn.symm.trans hm)
    exact .inl (.refl _)
  steady _ _ _ _ s _ := .refl (proper s)
  roused hn hm hstale hdirty := by
    obtain rfl := Option.some.inj (hn.symm.trans hm)
    simp [hstale] at hdirty

theorem Refreshed.find (hr : g.Refreshed P h) {x : NodeId} {n : Node β} (hn : g.node? x = some n) :
    ∃ m, h.node? x = some m ∧ (n.Kept m ∨ P x ∧ n.Updated m) := by
  obtain ⟨m, hm⟩ := Option.isSome_iff_exists.1 ((hr.live x).trans (by simp [hn]))
  exact ⟨m, hm, hr.each hn hm⟩

theorem Refreshed.origin (hr : g.Refreshed P h) {x : NodeId} {m : Node β}
    (hm : h.node? x = some m) : ∃ n, g.node? x = some n ∧ (n.Kept m ∨ P x ∧ n.Updated m) := by
  obtain ⟨n, hn⟩ := Option.isSome_iff_exists.1 ((hr.live x).symm.trans (by simp [hm]))
  exact ⟨n, hn, hr.each hn hm⟩

theorem Refreshed.mono (hr : g.Refreshed P h) (weaker : ∀ x, P x → Q x) : g.Refreshed Q h where
  pending := hr.pending
  live := hr.live
  each hn hm := (hr.each hn hm).imp_right fun ⟨hp, hu⟩ => ⟨weaker _ hp, hu⟩
  steady := hr.steady
  roused := hr.roused

/-- A settled node stays settled and shows the same. -/
theorem Refreshed.of_settled (hr : g.Refreshed P h) {id : NodeId} (settled : g.Settled id) :
    h.Settled id ∧ h.shown id = g.shown id := by
  obtain ⟨n, hn, hset⟩ := settled
  obtain ⟨m, hm, hkept | ⟨-, hup⟩⟩ := hr.find hn
  · exact ⟨⟨m, hm, hkept.isSettled.trans hset⟩, by rw [shown_eq hm, shown_eq hn, hkept.kind]⟩
  · have hkind := hup.kind_of_isSettled hset
    obtain ⟨v, hv⟩ := Node.isSettled_of_clean hset hup.late
    exact ⟨⟨m, hm, by simp [Node.isSettled, hkind, hv]⟩, by rw [shown_eq hm, shown_eq hn, hkind]⟩

/-- What was news stays so, since the computed is settled. -/
theorem News.before {s : NodeId} (news : g.News h s) (hr : h.Refreshed P k) : g.News k s := by
  obtain ⟨settled, shown⟩ := hr.of_settled news.settled
  exact ⟨news.late, settled, shown ▸ news.differs⟩

/-- What is news now was not settled before either, so it remembers the same. -/
theorem News.after {s : NodeId} (news : h.News k s) (hr : g.Refreshed P h) : g.News k s := by
  refine ⟨fun settled => news.late (hr.of_settled settled).1, news.settled, ?_⟩
  obtain ⟨m, body, running, last, hm, hk, hdiffers⟩ := news.differs
  obtain ⟨n, hn, hkept | ⟨-, hup⟩⟩ := hr.origin hm
  · exact ⟨n, body, running, last, hn, hkept.kind ▸ hk, hdiffers⟩
  · -- a computed that was brought up to date is settled
    have hidle := (Node.isRunning_of_skeleton hup.skeleton).trans hup.idle
    simp only [Node.isRunning, hk] at hidle
    exact absurd ⟨m, hm, (Node.isSettled_computed hk).2 ⟨hidle, hup.clean⟩⟩ news.late

theorem Refreshed.trans (hr : g.Refreshed P h) (hr' : h.Refreshed P k) : g.Refreshed P k where
  pending := hr'.pending.trans hr.pending
  live x := (hr'.live x).trans (hr.live x)
  each hn hk := by
    obtain ⟨m, hm, hnm⟩ := hr.find hn
    rcases hnm with hkept | ⟨hp, hup⟩ <;> rcases hr'.each hm hk with hkept' | ⟨hp', hup'⟩
    · exact .inl (hkept.trans hkept')
    · exact .inr ⟨hp', hkept.updated hup'⟩
    · exact .inr ⟨hp, hup.kept hkept'⟩
    · exact absurd hup.clean hup'.late
  steady hn hk hstale hstale' s hs := by
    obtain ⟨m, hm, hnm⟩ := hr.find hn
    -- a node that is stale at both ends was stale in between
    rcases hr'.each hm hk with hkept' | ⟨-, hup'⟩
    · rcases hnm with hkept | ⟨-, hup⟩
      · have hmid : m.freshness = .stale := by
          rcases hkept.freshness with hf | ⟨-, hd⟩
          · rw [hf, hstale]
          · rcases hkept'.freshness with hf' | ⟨hs', -⟩
            · rw [hf', hd] at hstale'
              cases hstale'
            · exact hs'
        exact (hr.steady hn hm hstale hmid s hs).trans
          (hr'.steady hm hk hmid hstale' s (hkept.sources ▸ hs))
      · have := (hup.kept hkept').clean
        simp [hstale'] at this
    · simp [hup'.clean] at hstale'
  roused hn hk hstale hdirty := by
    obtain ⟨m, hm, hkept | ⟨-, hup⟩⟩ := hr.find hn
    · rcases hkept.freshness with hsame | ⟨-, hmid⟩
      · obtain ⟨s, hs, news⟩ := hr'.roused hm hk (hsame.trans hstale) hdirty
        exact ⟨s, hkept.sources ▸ hs, news.after hr⟩
      · obtain ⟨s, hs, news⟩ := hr.roused hn hm hstale hmid
        exact ⟨s, hs, news.before hr'⟩
    · rcases hr'.each hm hk with hkept' | ⟨-, hup'⟩
      · simp [(hup.kept hkept').clean] at hdirty
      · simp [hup'.clean] at hdirty

theorem Refreshed.settled (hr : g.Refreshed P h) {id : NodeId} (settled : g.Settled id) :
    h.Settled id :=
  (hr.of_settled settled).1

theorem skeleton_of_refreshed (hr : g.Refreshed P h) (x : NodeId) :
    (h.node? x).map (·.kind.skeleton) = (g.node? x).map (·.kind.skeleton) := by
  cases hn : g.node? x with
  | none =>
    have := hr.live x
    simp_all
  | some n =>
    obtain ⟨m, hm, hkept | ⟨-, hup⟩⟩ := hr.find hn
    · simp [hm, hkept.skeleton]
    · simp [hm, hup.skeleton]

theorem sheet_congr {g h : Graph (Program σ)}
    (value : ∀ x, (h.node? x).bind (·.kind.value?) = (g.node? x).bind (·.kind.value?))
    (formula : ∀ x, (h.node? x).bind (·.kind.formula?) = (g.node? x).bind (·.kind.formula?)) :
    h.sheet = g.sheet := by
  simp only [sheet, Sheet.mk.injEq]
  exact ⟨funext value, funext formula⟩

/-- Signals and bodies are no part of what changes. -/
theorem sheet_of_skeleton {g h : Graph (Program σ)}
    (same : ∀ x, (h.node? x).map (·.kind.skeleton) = (g.node? x).map (·.kind.skeleton)) :
    h.sheet = g.sheet := by
  have through {α : Type} (f : NodeKind (Program σ) → Option α)
      (hf : ∀ kind : NodeKind (Program σ), f kind.skeleton = f kind) (x : NodeId) :
      (h.node? x).bind (fun n => f n.kind) = (g.node? x).bind (fun n => f n.kind) := by
    have hx := same x
    cases hg : g.node? x <;> cases hh : h.node? x <;> simp only [hg, hh, Option.map_none,
      Option.map_some, reduceCtorEq, Option.some.injEq] at hx
    · rfl
    · rw [Option.bind_some, Option.bind_some, ← hf, hx, hf]
  exact sheet_congr (through _ fun kind => by cases kind <;> rfl)
    (through _ fun kind => by cases kind <;> rfl)

theorem Refreshed.sheet {g h : Graph (Program σ)} (hr : g.Refreshed P h) : h.sheet = g.sheet :=
  sheet_of_skeleton (skeleton_of_refreshed hr)

theorem Refreshed.isRunning (hr : g.Refreshed P h) {x : NodeId} {n m : Node β}
    (hn : g.node? x = some n) (hm : h.node? x = some m) : m.isRunning = n.isRunning := by
  have := skeleton_of_refreshed hr x
  simp only [hn, hm, Option.map_some, Option.some.injEq] at this
  exact Node.isRunning_of_skeleton this

theorem Refreshed.isEffect (hr : g.Refreshed P h) {x : NodeId} {n m : Node β}
    (hn : g.node? x = some n) (hm : h.node? x = some m) : m.isEffect = n.isEffect := by
  have := skeleton_of_refreshed hr x
  simp only [hn, hm, Option.map_some, Option.some.injEq] at this
  exact Node.isEffect_of_skeleton this

/-- No node of a property is running. -/
def Idle (g : Graph β) (P : NodeId → Prop) : Prop :=
  ∀ {x : NodeId} {n : Node β}, P x → g.node? x = some n → n.isRunning = false

theorem Idle.mono (h : g.Idle Q)
    (weaker : ∀ x, P x → Q x) : g.Idle P :=
  fun hp hn => h (weaker _ hp) hn

theorem Refreshed.idle (hr : g.Refreshed P h) (hg : g.Idle Q) : h.Idle Q := by
  intro x m hq hm
  obtain ⟨n, hn, -⟩ := hr.origin hm
  rw [hr.isRunning hn hm]
  exact hg hq hn

end Graph

end LiveTemplate.Reactive
