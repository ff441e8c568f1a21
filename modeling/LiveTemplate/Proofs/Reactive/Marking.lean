import LiveTemplate.Proofs.Reactive.Coherence

/-!
# Marking

What a write does to the freshness of the nodes behind a signal. Marking only delays
(`Graph.Delayed`): nodes get later, none gets fresher, and an effect that becomes late is queued.

Marking stops at late nodes, so what it reaches depends on what is behind those already. For any
relation `R` on edges, if late nodes have late subscribers along `R` before, then so they have
afterwards (`Graph.Shut`). Exactly the nodes of `Graph.Marks` are delayed; all others are left alone.
-/
namespace LiveTemplate.Reactive

variable {β : Type}

/-- The node may have become late or dirty, and is the same otherwise. -/
structure Node.Delayed (n m : Node β) : Prop where
  kind : m.kind = n.kind
  sources : m.sources = n.sources
  subscribers : m.subscribers = n.subscribers
  clean : m.freshness = .clean → n.freshness = .clean
  dirty : n.freshness = .dirty → m.freshness = .dirty

theorem Node.Delayed.refl (n : Node β) : n.Delayed n := ⟨rfl, rfl, rfl, id, id⟩

theorem Node.Delayed.trans {n m k : Node β} (h : n.Delayed m) (h' : m.Delayed k) : n.Delayed k :=
  ⟨h'.kind.trans h.kind, h'.sources.trans h.sources, h'.subscribers.trans h.subscribers,
    h.clean ∘ h'.clean, h'.dirty ∘ h.dirty⟩

namespace Graph

structure Delayed (g h : Graph β) : Prop where
  live : ∀ x, (h.node? x).isSome = (g.node? x).isSome
  each : ∀ {x : NodeId} {n m : Node β}, g.node? x = some n → h.node? x = some m → n.Delayed m
  pending : ∀ x ∈ g.pending, x ∈ h.pending
  nodup : g.pending.Nodup → h.pending.Nodup
  added : ∀ x ∈ h.pending, x ∈ g.pending ∨
    ∃ m, h.node? x = some m ∧ m.isEffect = true ∧ m.freshness ≠ .clean
  queued : ∀ {x : NodeId} {n m : Node β}, g.node? x = some n → h.node? x = some m →
    n.isEffect = true → n.freshness = .clean → m.freshness ≠ .clean → x ∈ h.pending

variable {g h k : Graph β}

theorem Delayed.refl (g : Graph β) : g.Delayed g where
  live _ := rfl
  each hn hm := by
    obtain rfl := Option.some.inj (hn.symm.trans hm)
    exact .refl _
  pending _ hx := hx
  nodup h := h
  added _ hx := .inl hx
  queued hn hm _ hclean hlate := by
    obtain rfl := Option.some.inj (hn.symm.trans hm)
    exact absurd hclean hlate

theorem Delayed.find (hd : g.Delayed h) {x : NodeId} {n : Node β} (hn : g.node? x = some n) :
    ∃ m, h.node? x = some m ∧ n.Delayed m := by
  obtain ⟨m, hm⟩ := Option.isSome_iff_exists.1 ((hd.live x).trans (by simp [hn]))
  exact ⟨m, hm, hd.each hn hm⟩

theorem Delayed.origin (hd : g.Delayed h) {x : NodeId} {m : Node β} (hm : h.node? x = some m) :
    ∃ n, g.node? x = some n ∧ n.Delayed m := by
  obtain ⟨n, hn⟩ := Option.isSome_iff_exists.1 ((hd.live x).symm.trans (by simp [hm]))
  exact ⟨n, hn, hd.each hn hm⟩

theorem Delayed.trans (hd : g.Delayed h) (hd' : h.Delayed k) : g.Delayed k where
  live x := (hd'.live x).trans (hd.live x)
  each hn hk := by
    obtain ⟨m, hm, hnm⟩ := hd.find hn
    exact hnm.trans (hd'.each hm hk)
  pending x hx := hd'.pending x (hd.pending x hx)
  nodup hn := hd'.nodup (hd.nodup hn)
  added x hx := by
    rcases hd'.added x hx with hx | hx
    · refine (hd.added x hx).imp id ?_
      rintro ⟨m, hm, heffect, hlate⟩
      obtain ⟨m', hm', hd⟩ := hd'.find hm
      exact ⟨m', hm', by rwa [Node.isEffect, hd.kind], fun hc => hlate (hd.clean hc)⟩
    · exact .inr hx
  queued hn hk heffect hclean hlate := by
    obtain ⟨m, hm, hnm⟩ := hd.find hn
    by_cases hmid : m.freshness = .clean
    · exact hd'.queued hm hk (by rwa [Node.isEffect, hnm.kind]) hmid hlate
    · exact hd'.pending _ (hd.queued hn hm heffect hclean hmid)

theorem Delayed.linked (hd : g.Delayed h) (linked : g.Linked) : h.Linked := by
  refine linked.congr fun x => ?_
  have hlive := hd.live x
  cases hx : g.node? x with
  | none => simp_all
  | some n =>
    obtain ⟨m, hm, hdelayed⟩ := hd.find hx
    simp [hm, ends, hdelayed.sources, hdelayed.subscribers]

/-- Makes a node later, and queues it if it is an effect. -/
def delay (g : Graph β) (id : NodeId) (f : Freshness) (effect : Bool) : Graph β :=
  if effect then (g.setFreshness id f).enqueue id else g.setFreshness id f

theorem node?_delay (g : Graph β) (id : NodeId) (f : Freshness) (effect : Bool) (x : NodeId) :
    (g.delay id f effect).node? x =
      if x = id then (g.node? x).map (Node.withFreshness f) else g.node? x := by
  unfold delay
  split
  · rw [node?_enqueue, node?_setFreshness]
  · rw [node?_setFreshness]

theorem mem_pending_delay {g : Graph β} {id : NodeId} {f : Freshness} {effect : Bool}
    {x : NodeId} : x ∈ (g.delay id f effect).pending ↔ x ∈ g.pending ∨ x = id ∧ effect = true := by
  cases effect <;> simp [delay, enqueue, setFreshness, mem_enlist, or_comm]

theorem delayed_delay {id : NodeId} {n : Node β} {f : Freshness} (found : g.node? id = some n)
    (late : f ≠ .clean) (higher : n.freshness = .dirty → f = .dirty) :
    g.Delayed (g.delay id f n.isEffect) where
  live x := by
    rw [node?_delay]
    split <;> simp
  each {x m m'} hm hm' := by
    rw [node?_delay] at hm'
    split at hm'
    next hx =>
      subst hx
      rw [hm, Option.map_some] at hm'
      obtain rfl := Option.some.inj hm'
      obtain rfl := Option.some.inj (found.symm.trans hm)
      exact ⟨rfl, rfl, rfl, fun hc => absurd hc late, higher⟩
    next =>
      obtain rfl := Option.some.inj (hm.symm.trans hm')
      exact .refl _
  pending x hx := mem_pending_delay.2 (.inl hx)
  nodup hn := by
    unfold delay
    split
    · exact nodup_enlist hn
    · exact hn
  added x hx := by
    refine (mem_pending_delay.1 hx).imp_right ?_
    rintro ⟨rfl, heffect⟩
    exact ⟨n.withFreshness f, by rw [node?_delay, if_pos rfl, found, Option.map_some], heffect, late⟩
  queued {x m m'} hm hm' heffect hclean hlate := by
    rw [node?_delay] at hm'
    split at hm'
    next hx =>
      subst hx
      obtain rfl := Option.some.inj (found.symm.trans hm)
      exact mem_pending_delay.2 (.inr ⟨rfl, heffect⟩)
    next =>
      obtain rfl := Option.some.inj (hm.symm.trans hm')
      exact absurd hclean hlate

/-! ## The worklist -/

/-- One step of marking at a clean node. -/
theorem markStale_cons_clean {id : NodeId} {n : Node β} (found : g.node? id = some n)
    (clean : n.freshness = .clean) (work : List NodeId) :
    g.markStale (id :: work) = (g.delay id .stale n.isEffect).markStale
      ((if n.isEffect then [] else n.subscribers) ++ work) := by
  have hclean : n.isClean = true := by simp [Node.isClean, clean]
  rw [markStale]
  split
  next h => simp [node?] at found; simp [found] at h
  next m h =>
    obtain rfl := Option.some.inj (found.symm.trans h)
    rw [dif_pos hclean]
    cases heffect : n.isEffect <;> simp [delay]

theorem markStale_cons_skip {id : NodeId} (skip : ∀ n, g.node? id = some n → n.freshness ≠ .clean)
    (work : List NodeId) : g.markStale (id :: work) = g.markStale work := by
  rw [markStale]
  split
  · rfl
  next n h => rw [dif_neg (by simpa [Node.isClean] using skip n h)]

/-- Induction along the worklist: the next node is clean and is marked, or is passed over. -/
theorem markStale_induction {motive : Graph β → List NodeId → Prop}
    (nil : ∀ g, motive g [])
    (mark : ∀ g id n work, g.node? id = some n → n.freshness = .clean →
      motive (g.delay id .stale n.isEffect)
        ((if n.isEffect then [] else n.subscribers) ++ work) → motive g (id :: work))
    (skip : ∀ g id work, (∀ n, g.node? id = some n → n.freshness ≠ .clean) →
      motive g work → motive g (id :: work))
    (g : Graph β) (work : List NodeId) : motive g work := by
  induction g, work using markStale.induct with
  | case1 g => exact nil g
  | case2 g id work h ih =>
    refine skip g id work (fun n hn => ?_) ih
    rw [node?, h] at hn
    cases hn
  | case3 g id work n h hc _ he ih =>
    refine mark g id n work h (n.isClean_iff.1 hc) ?_
    simpa [delay, he] using ih
  | case4 g id work n h hc _ he ih =>
    refine mark g id n work h (n.isClean_iff.1 hc) ?_
    simpa [delay, he] using ih
  | case5 g id work n h hc ih =>
    refine skip g id work (fun m hm => ?_) ih
    obtain rfl := Option.some.inj (h.symm.trans hm)
    exact fun hclean => hc (n.isClean_iff.2 hclean)

theorem delayed_markStale (g : Graph β) (work : List NodeId) : g.Delayed (g.markStale work) := by
  induction g, work using markStale_induction with
  | nil g =>
    rw [markStale]
    exact .refl g
  | mark g id n work found clean ih =>
    rw [markStale_cons_clean found clean]
    exact (delayed_delay found (by simp) (by simp [clean])).trans ih
  | skip g id work h ih =>
    rw [markStale_cons_skip h]
    exact ih

theorem delayed_markDirty (g : Graph β) (id : NodeId) : g.Delayed (g.markDirty id) := by
  unfold markDirty
  split
  next => exact .refl g
  next n hn =>
    have hdelay := delayed_delay (f := .dirty) hn (by simp) fun _ => rfl
    split
    next => exact .refl g
    next =>
      cases heffect : n.isEffect
      · rw [heffect] at hdelay
        simpa [delay] using hdelay.trans (delayed_markStale _ _)
      · rw [heffect] at hdelay
        simpa [delay] using hdelay

theorem delayed_markAll (g : Graph β) (ids : List NodeId) :
    g.Delayed (ids.foldl markDirty g) := by
  induction ids generalizing g with
  | nil => exact .refl g
  | cons id ids ih => exact (delayed_markDirty g id).trans (ih _)

/-- The direct targets of marking are dirty. -/
theorem markDirty_self {id : NodeId} {m : Node β} (hm : (g.markDirty id).node? id = some m) :
    m.freshness = .dirty := by
  unfold markDirty at hm
  split at hm
  next hnone => simp [hnone] at hm
  next n hn =>
    split at hm
    next hdirty =>
      obtain rfl := Option.some.inj (hn.symm.trans hm)
      exact hdirty
    next =>
      have hself : (g.setFreshness id .dirty).node? id = some (n.withFreshness .dirty) := by
        rw [node?_setFreshness, if_pos rfl, hn, Option.map_some]
      dsimp only at hm
      split at hm
      · obtain rfl := Option.some.inj (hself.symm.trans hm)
        rfl
      · exact ((delayed_markStale _ _).each hself hm).dirty rfl

theorem markAll_dirty {ids : List NodeId} {id : NodeId} (mem : id ∈ ids) {m : Node β}
    (hm : (ids.foldl markDirty g).node? id = some m) : m.freshness = .dirty := by
  induction ids generalizing g with
  | nil => cases mem
  | cons first ids ih =>
    rw [List.foldl_cons] at hm
    by_cases hrest : id ∈ ids
    · exact ih hrest hm
    · obtain rfl : id = first := (List.mem_cons.1 mem).resolve_right hrest
      obtain ⟨n, hn, hd⟩ := (delayed_markAll _ ids).origin hm
      exact hd.dirty (markDirty_self hn)

/-! ## How far marking reaches -/

/-- Late nodes have late subscribers along a relation, but for those still on a worklist. -/
def ShutBut (R : NodeId → NodeId → Prop) (g : Graph β) (work : List NodeId) : Prop :=
  ∀ ⦃x y : NodeId⦄ ⦃n m : Node β⦄, g.node? x = some n → n.freshness ≠ .clean →
    y ∈ n.subscribers → R x y → g.node? y = some m → m.freshness ≠ .clean ∨ y ∈ work

/-- Late nodes have late subscribers along a relation. -/
def Shut (R : NodeId → NodeId → Prop) (g : Graph β) : Prop := ShutBut R g []

/-- Nothing subscribes to an effect. -/
def Bare (g : Graph β) : Prop :=
  ∀ ⦃x : NodeId⦄ ⦃n : Node β⦄, g.node? x = some n → n.isEffect = true → n.subscribers = []

theorem Delayed.bare (hd : g.Delayed h) (hb : g.Bare) : h.Bare := by
  intro x m hm heffect
  obtain ⟨n, hn, hnm⟩ := hd.origin hm
  rw [hnm.subscribers]
  exact hb hn (by rwa [Node.isEffect, ← hnm.kind])

variable {R : NodeId → NodeId → Prop}

/-- Delaying a node and putting its subscribers on the worklist. -/
theorem ShutBut.delay {work : List NodeId} {id : NodeId} (hs : g.ShutBut R (id :: work))
    (bare : g.Bare) {n : Node β} (found : g.node? id = some n) {f : Freshness} (late : f ≠ .clean) :
    (g.delay id f n.isEffect).ShutBut R ((if n.isEffect then [] else n.subscribers) ++ work) := by
  intro x y m m' hm hlate hy hR hm'
  have hsub : y ∈ n.subscribers → y ∈ (if n.isEffect then [] else n.subscribers) ++ work := by
    intro hy
    split
    next heffect => simp [bare found heffect] at hy
    next => exact List.mem_append_left _ hy
  rw [node?_delay] at hm hm'
  split at hm'
  next hyid =>
    obtain ⟨m₀, -, rfl⟩ := Option.map_eq_some_iff.1 hm'
    exact .inl late
  next hyid =>
    split at hm
    next hxid =>
      subst hxid
      rw [found, Option.map_some] at hm
      obtain rfl := Option.some.inj hm
      exact .inr (hsub hy)
    next =>
      rcases hs hm hlate hy hR hm' with h | h
      · exact .inl h
      · exact .inr (List.mem_append_right _ ((List.mem_cons.1 h).resolve_left hyid))

theorem ShutBut.markStale {work : List NodeId} (hs : g.ShutBut R work) (bare : g.Bare) :
    (g.markStale work).Shut R := by
  induction g, work using markStale_induction with
  | nil g =>
    rw [Graph.markStale]
    exact hs
  | mark g id n work found clean ih =>
    rw [markStale_cons_clean found clean]
    exact ih (hs.delay bare found (by simp))
      ((delayed_delay found (by simp) (by simp [clean])).bare bare)
  | skip g id work skip ih =>
    rw [markStale_cons_skip skip]
    refine ih (fun x y n m hx hlate hy hR hm => ?_) bare
    rcases hs hx hlate hy hR hm with h | h
    · exact .inl h
    · rcases List.mem_cons.1 h with rfl | h
      · exact .inl (skip _ hm)
      · exact .inr h

theorem Shut.markDirty (hs : g.Shut R) (bare : g.Bare) (id : NodeId) : (g.markDirty id).Shut R := by
  unfold Graph.markDirty
  split
  next => exact hs
  next n hn =>
    split
    next => exact hs
    next =>
      have hwork : g.ShutBut R [id] := fun x y n m hx hlate hy hR hm =>
        (hs hx hlate hy hR hm).imp_right nofun
      have hdelay := hwork.delay bare hn (f := .dirty) (by simp)
      have hbare := (delayed_delay (f := .dirty) hn (by simp) fun _ => rfl).bare bare
      cases heffect : n.isEffect
      · simp only [heffect, delay, Bool.false_eq_true, if_false, List.append_nil] at hdelay hbare ⊢
        exact hdelay.markStale hbare
      · simpa only [heffect, delay, if_true, List.append_nil, Shut] using hdelay

theorem Shut.markAll (hs : g.Shut R) (bare : g.Bare) (ids : List NodeId) :
    (ids.foldl Graph.markDirty g).Shut R := by
  induction ids generalizing g with
  | nil => exact hs
  | cons id ids ih => exact ih (hs.markDirty bare id) ((delayed_markDirty g id).bare bare)

/-! ## What is marked -/

/-- Marking the targets delays the node. A target is passed on unless it is dirty, and what depends on
a target only if it is clean. -/
inductive Marks (g : Graph β) (targets : List NodeId) : NodeId → Prop where
  | target {x : NodeId} {n : Node β} (mem : x ∈ targets) (found : g.node? x = some n)
      (higher : n.freshness ≠ .dirty) : Marks g targets x
  | onward {x y : NodeId} {n m : Node β} (marked : Marks g targets x) (found : g.node? x = some n)
      (mem : y ∈ n.subscribers) (next : g.node? y = some m) (clean : m.freshness = .clean) :
      Marks g targets y

/-- The nodes of a property are as they were, and none of them was queued. -/
def Spares (K : NodeId → Prop) (g h : Graph β) : Prop :=
  ∀ x, K x → h.node? x = g.node? x ∧ (x ∈ h.pending → x ∈ g.pending)

theorem Spares.refl (K : NodeId → Prop) (g : Graph β) : g.Spares K g :=
  fun _ _ => ⟨rfl, id⟩

theorem Spares.trans {K : NodeId → Prop} (hs : g.Spares K h) (hs' : h.Spares K k) :
    g.Spares K k :=
  fun x hx => ⟨(hs' x hx).1.trans (hs x hx).1, fun h => (hs x hx).2 ((hs' x hx).2 h)⟩

theorem spares_delay {K : NodeId → Prop} {id : NodeId} (far : ¬K id) (f : Freshness)
    (effect : Bool) : g.Spares K (g.delay id f effect) := by
  intro x hx
  have hne : x ≠ id := fun h => far (h ▸ hx)
  rw [node?_delay, if_neg hne, mem_pending_delay]
  exact ⟨rfl, fun h => h.resolve_right fun h => hne h.1⟩

section Spared

variable {targets : List NodeId}

theorem spares_markStale (hd : g.Delayed h) {work : List NodeId}
    (marked : ∀ x ∈ work, ∀ n, g.node? x = some n → n.freshness = .clean → g.Marks targets x) :
    h.Spares (fun x => ¬g.Marks targets x) (h.markStale work) := by
  induction h, work using markStale_induction with
  | nil h =>
    rw [Graph.markStale]
    exact .refl _ h
  | mark h id m work found clean ih =>
    rw [markStale_cons_clean found clean]
    obtain ⟨n, hn, hnm⟩ := hd.origin found
    have hid := marked id (by simp) n hn (hnm.clean clean)
    refine (spares_delay (fun h => h hid) _ _).trans (ih ?_ fun x hx k hk hclean => ?_)
    · exact hd.trans (delayed_delay found (by simp) (by simp [clean]))
    · rcases List.mem_append.1 hx with hx | hx
      · split at hx
        · cases hx
        · exact .onward hid hn (hnm.subscribers ▸ hx) hk hclean
      · exact marked x (List.mem_cons_of_mem _ hx) k hk hclean
  | skip h id work skip ih =>
    rw [markStale_cons_skip skip]
    exact ih hd fun x hx => marked x (List.mem_cons_of_mem _ hx)

theorem spares_markDirty (hd : g.Delayed h) {id : NodeId} (mem : id ∈ targets) :
    h.Spares (fun x => ¬g.Marks targets x) (h.markDirty id) := by
  unfold Graph.markDirty
  split
  next => exact .refl _ h
  next m hm =>
    split
    next => exact .refl _ h
    next higher =>
      obtain ⟨n, hn, hnm⟩ := hd.origin hm
      have hid : g.Marks targets id := .target mem hn fun hdirty => higher (hnm.dirty hdirty)
      have hspare := spares_delay (g := h) (K := fun x => ¬g.Marks targets x) (fun h => h hid) .dirty
        m.isEffect
      have hdelay := hd.trans (delayed_delay (f := .dirty) hm (by simp) fun _ => rfl)
      cases heffect : m.isEffect <;>
        simp only [heffect, delay, Bool.false_eq_true, if_false, if_true] at hspare hdelay ⊢
      · exact hspare.trans (spares_markStale hdelay fun y hy k hk hclean =>
          .onward hid hn (hnm.subscribers ▸ hy) hk hclean)
      · exact hspare

/-- What is not marked is left alone. -/
theorem spares_markAll (g : Graph β) (targets : List NodeId) :
    g.Spares (fun x => ¬g.Marks targets x) (targets.foldl Graph.markDirty g) := by
  suffices ∀ ids ⊆ targets, ∀ h, g.Delayed h →
      h.Spares (fun x => ¬g.Marks targets x) (ids.foldl Graph.markDirty h) from
    this targets (List.Subset.refl _) g (.refl g)
  intro ids
  induction ids with
  | nil => exact fun _ h _ => .refl _ h
  | cons id ids ih =>
    intro hsub h hd
    obtain ⟨hid, hids⟩ := List.cons_subset.1 hsub
    exact (spares_markDirty hd hid).trans (ih hids _ (hd.trans (delayed_markDirty h id)))

end Spared

theorem markStale_late {work : List NodeId} {x : NodeId} (mem : x ∈ work) {m : Node β}
    (hm : (g.markStale work).node? x = some m) : m.freshness ≠ .clean := by
  induction g, work using markStale_induction with
  | nil g => cases mem
  | mark g id n work found clean ih =>
    rw [markStale_cons_clean found clean] at hm
    rcases List.mem_cons.1 mem with rfl | mem
    · obtain ⟨k, hk, hkm⟩ := (delayed_markStale _ _).origin hm
      rw [node?_delay, if_pos rfl, found, Option.map_some] at hk
      obtain rfl := Option.some.inj hk
      exact fun hclean => nomatch hkm.clean hclean
    · exact ih (List.mem_append_right _ mem) hm
  | skip g id work skip ih =>
    rw [markStale_cons_skip skip] at hm
    rcases List.mem_cons.1 mem with rfl | mem
    · obtain ⟨k, hk, hkm⟩ := (delayed_markStale _ _).origin hm
      exact fun hclean => skip k hk (hkm.clean hclean)
    · exact ih mem hm

theorem markStale_higher {work : List NodeId} {x : NodeId} {n m : Node β}
    (hn : g.node? x = some n) (higher : n.freshness ≠ .dirty)
    (hm : (g.markStale work).node? x = some m) : m.freshness ≠ .dirty := by
  induction g, work using markStale_induction generalizing n with
  | nil g =>
    rw [Graph.markStale] at hm
    rwa [← Option.some.inj (hn.symm.trans hm)]
  | mark g id k work found clean ih =>
    rw [markStale_cons_clean found clean] at hm
    by_cases hx : x = id
    · refine ih (n := k.withFreshness .stale) ?_ (by simp [Node.withFreshness]) hm
      rw [node?_delay, if_pos hx, hx, found, Option.map_some]
    · exact ih (by rwa [node?_delay, if_neg hx]) higher hm
  | skip g id work skip ih =>
    rw [markStale_cons_skip skip] at hm
    exact ih hn higher hm

theorem markDirty_higher {id x : NodeId} (other : x ≠ id) {n m : Node β} (hn : g.node? x = some n)
    (higher : n.freshness ≠ .dirty) (hm : (g.markDirty id).node? x = some m) :
    m.freshness ≠ .dirty := by
  have hdelay (f : Freshness) : (g.setFreshness id f).node? x = some n := by
    rwa [node?_setFreshness, if_neg other]
  unfold Graph.markDirty at hm
  split at hm
  next => rwa [← Option.some.inj (hn.symm.trans hm)]
  next k hk =>
    split at hm
    next => rwa [← Option.some.inj (hn.symm.trans hm)]
    next =>
      cases heffect : k.isEffect <;>
        simp only [heffect, Bool.false_eq_true, if_false, if_true] at hm
      · exact markStale_higher (hdelay _) higher hm
      · rw [node?_enqueue, hdelay] at hm
        rwa [← Option.some.inj hm]

/-- Nothing but the targets becomes dirty. -/
theorem markAll_higher {ids : List NodeId} {x : NodeId} (spared : x ∉ ids) {n m : Node β}
    (hn : g.node? x = some n) (higher : n.freshness ≠ .dirty)
    (hm : (ids.foldl Graph.markDirty g).node? x = some m) : m.freshness ≠ .dirty := by
  induction ids generalizing g n with
  | nil => rwa [← Option.some.inj (hn.symm.trans hm)]
  | cons id ids ih =>
    rw [List.mem_cons, not_or] at spared
    obtain ⟨k, hk, -⟩ := (delayed_markDirty g id).find hn
    exact ih spared.2 hk (markDirty_higher spared.1 hn higher hk) hm

/-- A target passes its mark on even if it is stale. -/
theorem markDirty_onward (bare : g.Bare) {id x : NodeId} {n m : Node β} (hn : g.node? id = some n)
    (higher : n.freshness ≠ .dirty) (mem : x ∈ n.subscribers)
    (hm : (g.markDirty id).node? x = some m) : m.freshness ≠ .clean := by
  have heffect : n.isEffect = false := by
    by_contra heffect
    simp [bare hn (by simpa using heffect)] at mem
  unfold Graph.markDirty at hm
  simp only [hn, if_neg higher, heffect, Bool.false_eq_true, if_false] at hm
  exact markStale_late mem hm

theorem markAll_onward (bare : g.Bare) {ids : List NodeId} {id x : NodeId} (target : id ∈ ids)
    {n m : Node β} (hn : g.node? id = some n) (higher : n.freshness ≠ .dirty)
    (mem : x ∈ n.subscribers) (hm : (ids.foldl Graph.markDirty g).node? x = some m) :
    m.freshness ≠ .clean := by
  induction ids generalizing g n with
  | nil => cases target
  | cons first ids ih =>
    rw [List.foldl_cons] at hm
    have hfirst := delayed_markDirty g first
    by_cases hid : id = first
    · subst hid
      obtain ⟨k, hk, hkm⟩ := (delayed_markAll _ ids).origin hm
      exact fun hclean => markDirty_onward bare hn higher mem hk (hkm.clean hclean)
    · obtain ⟨k, hk, hnk⟩ := hfirst.find hn
      exact ih (hfirst.bare bare) ((List.mem_cons.1 target).resolve_left hid) hk
        (markDirty_higher hid hn higher hk) (hnk.subscribers ▸ mem) hm

/-- What is marked is late afterwards. -/
theorem Marks.late (bare : g.Bare) {targets : List NodeId} {x : NodeId} (marked : g.Marks targets x)
    {m : Node β} (hm : (targets.foldl Graph.markDirty g).node? x = some m) :
    m.freshness ≠ .clean := by
  -- edges behind a clean node are shut by the marking, whatever was late before
  have hshut : g.Shut fun x _ => ∀ n, g.node? x = some n → n.freshness = .clean :=
    fun x y n k hn hlate _ hR _ => absurd (hR n hn) hlate
  have hshut := hshut.markAll bare targets
  have hd := delayed_markAll g targets
  induction marked generalizing m with
  | target mem _ _ => simp [markAll_dirty mem hm]
  | @onward x y n k marked found mem next clean ih =>
    obtain ⟨n', hn', hnn'⟩ := hd.find found
    by_cases hclean : n.freshness = .clean
    · refine (hshut hn' (ih hn') (hnn'.subscribers ▸ mem) (fun n₂ hn₂ => ?_) hm).resolve_right nofun
      rwa [← Option.some.inj (found.symm.trans hn₂)]
    · cases marked with
      | target hx hfound higher =>
        obtain rfl := Option.some.inj (found.symm.trans hfound)
        exact markAll_onward bare hx found higher mem hm
      | onward _ _ _ hnext hclean' =>
        obtain rfl := Option.some.inj (found.symm.trans hnext)
        exact absurd hclean' hclean

end Graph

end LiveTemplate.Reactive
