import LiveTemplate.Proofs.Reactive.Marking
import LiveTemplate.Proofs.Reactive.Refreshed

/-!
# Writing a signal

A write stores a value and makes the subscribers of the signal dirty. It keeps a graph coherent:
whoever recorded the signal is dirty afterwards, and whoever recorded something that became late is
late as well.
-/
namespace LiveTemplate.Reactive

variable {σ : Type}

namespace Graph

def revalued (g : Graph (Program σ)) (id : NodeId) (value : Value) : Graph (Program σ) :=
  g.modifyNode id fun n => { n with kind := .signal value }

/-- The graph after a write to a signal with the given subscribers. -/
def written (g : Graph (Program σ)) (id : NodeId) (value : Value) (subscribers : List NodeId) :
    Graph (Program σ) :=
  subscribers.foldl markDirty (g.revalued id value)

variable {g : Graph (Program σ)} {id : NodeId} {n : Node (Program σ)} {old value : Value}
  {P : NodeId → Prop}

theorem revalued_self (found : g.node? id = some n) (value : Value) :
    (g.revalued id value).node? id = some { n with kind := .signal value } := by
  simp [revalued, found]

theorem revalued_other (g : Graph (Program σ)) (value : Value) {x : NodeId} (other : x ≠ id) :
    (g.revalued id value).node? x = g.node? x :=
  node?_modifyNode_of_ne _ _ other

theorem delayed_written (g : Graph (Program σ)) (id : NodeId) (value : Value)
    (subscribers : List NodeId) :
    (g.revalued id value).Delayed (g.written id value subscribers) :=
  delayed_markAll _ _

/-- Nothing subscribes to an effect, since a read of one is not recorded. -/
theorem CoherentOn.bare (hg : g.CoherentOn P) : g.Bare := by
  intro x n hn heffect
  refine List.eq_nil_iff_forall_not_mem.2 fun y hy => ?_
  obtain ⟨m, hm⟩ := Option.isSome_iff_exists.1 (hg.linked.subscriber_live hn hy)
  obtain ⟨n', hn', heffect'⟩ := hg.cells hm ((hg.linked.edge hm hn).2 hy)
  obtain rfl := Option.some.inj (hn.symm.trans hn')
  simp [heffect] at heffect'

theorem bare_revalued (hg : g.CoherentOn P) (value : Value) : (g.revalued id value).Bare := by
  intro x n hn heffect
  by_cases hx : x = id
  · subst hx
    rw [revalued, node?_modifyNode_self] at hn
    obtain ⟨n₀, -, rfl⟩ := Option.map_eq_some_iff.1 hn
    simp [Node.isEffect] at heffect
  · exact hg.bare ((revalued_other g value hx).symm.trans hn) heffect

/-- A node after a write: other than the signal, it is the same up to a delay. -/
theorem written_of_ne {subscribers : List NodeId} {x : NodeId} {m : Node (Program σ)} (other : x ≠ id)
    (hm : (g.written id value subscribers).node? x = some m) :
    ∃ m₀, g.node? x = some m₀ ∧ m₀.Delayed m := by
  obtain ⟨m₀, hm₀, hd⟩ := (delayed_written g id value subscribers).origin hm
  exact ⟨m₀, (revalued_other g value other).symm.trans hm₀, hd⟩

theorem written_self (found : g.node? id = some n) (value : Value) (subscribers : List NodeId) :
    ∃ m, (g.written id value subscribers).node? id = some m ∧ m.kind = .signal value ∧
      m.sources = n.sources ∧ m.subscribers = n.subscribers := by
  obtain ⟨m, hm, hd⟩ := (delayed_written g id value subscribers).find (revalued_self found value)
  exact ⟨m, hm, hd.kind, hd.sources, hd.subscribers⟩

/-- What is no signal after a write is the same up to a delay. -/
theorem written_of_unset {subscribers : List NodeId} (found : g.node? id = some n) {x : NodeId}
    {m : Node (Program σ)} (hm : (g.written id value subscribers).node? x = some m)
    (unset : ∀ v, m.kind ≠ .signal v) : ∃ m₀, g.node? x = some m₀ ∧ m₀.Delayed m := by
  refine written_of_ne (fun hx => ?_) hm
  subst hx
  obtain ⟨m', hm', hk, -⟩ := written_self found value subscribers
  obtain rfl := Option.some.inj (hm.symm.trans hm')
  exact unset value hk

/-- A write starts no run. -/
theorem idle_written (found : g.node? id = some n) (value : Value) (subscribers : List NodeId)
    (idle : g.Idle fun _ => True) : (g.written id value subscribers).Idle fun _ => True := by
  intro x m _ hm
  by_cases hsignal : ∃ v, m.kind = .signal v
  · obtain ⟨v, hk⟩ := hsignal
    simp [Node.isRunning, hk]
  · obtain ⟨m₀, hm₀, hd⟩ := written_of_unset found hm fun v hk => hsignal ⟨v, hk⟩
    rw [Node.isRunning, hd.kind]
    exact idle trivial hm₀

/-- A write queues nothing but effects. -/
theorem queued_written (found : g.node? id = some n) (kind : n.kind = .signal old)
    (subscribers : List NodeId)
    (queued : ∀ x ∈ g.pending, ∃ m, g.node? x = some m ∧ m.isEffect = true) :
    ∀ x ∈ (g.written id value subscribers).pending,
      ∃ m, (g.written id value subscribers).node? x = some m ∧ m.isEffect = true := by
  intro x hx
  have hd := delayed_written g id value subscribers
  rcases hd.added x hx with hold | ⟨m, hm, heffect, -⟩
  · obtain ⟨m₀, hm₀, heffect⟩ := queued x hold
    have hne : x ≠ id := by
      rintro rfl
      obtain rfl := Option.some.inj (found.symm.trans hm₀)
      simp [Node.isEffect, kind] at heffect
    obtain ⟨m, hm, hd₁⟩ := hd.find ((revalued_other g value hne).trans hm₀)
    exact ⟨m, hm, by rwa [Node.isEffect, hd₁.kind]⟩
  · exact ⟨m, hm, heffect⟩

theorem Marks.mono {h : Graph (Program σ)} {targets : List NodeId} {x : NodeId}
    (same : ∀ {x n}, g.node? x = some n →
      ∃ m, h.node? x = some m ∧ m.freshness = n.freshness ∧ m.subscribers = n.subscribers)
    (marked : g.Marks targets x) : h.Marks targets x := by
  induction marked with
  | target mem found higher =>
    obtain ⟨m, hm, hfresh, -⟩ := same found
    exact .target mem hm (hfresh ▸ higher)
  | onward _ found mem next clean ih =>
    obtain ⟨m, hm, -, hsubs⟩ := same found
    obtain ⟨k, hk, hfresh, -⟩ := same next
    exact .onward ih hm (hsubs ▸ mem) hk (hfresh.trans clean)

theorem marks_revalued (found : g.node? id = some n) (value : Value) {targets : List NodeId}
    {x : NodeId} : (g.revalued id value).Marks targets x ↔ g.Marks targets x := by
  refine ⟨Marks.mono fun {y m} hm => ?_, Marks.mono fun {y m} hm => ?_⟩
  · by_cases hy : y = id
    · subst hy
      obtain rfl := Option.some.inj ((revalued_self found value).symm.trans hm)
      exact ⟨n, found, rfl, rfl⟩
    · exact ⟨m, (revalued_other g value hy).symm.trans hm, rfl, rfl⟩
  · by_cases hy : y = id
    · subst hy
      obtain rfl := Option.some.inj (found.symm.trans hm)
      exact ⟨_, revalued_self found value, rfl, rfl⟩
    · exact ⟨m, (revalued_other g value hy).trans hm, rfl, rfl⟩

/-- A write to the first node delays the second. -/
def Carries (g : Graph (Program σ)) (s x : NodeId) : Prop :=
  ∃ n, g.node? s = some n ∧ g.Marks n.subscribers x

/-- A write leaves alone what its marks are not carried to. -/
theorem written_spared (found : g.node? id = some n) (value : Value) {x : NodeId}
    (far : ¬g.Carries id x) :
    (x ≠ id → (g.written id value n.subscribers).node? x = g.node? x) ∧
      (x ∈ (g.written id value n.subscribers).pending → x ∈ g.pending) := by
  obtain ⟨hsame, hpending⟩ := spares_markAll (g.revalued id value) n.subscribers x fun marked =>
    far ⟨n, found, (marks_revalued found value).1 marked⟩
  exact ⟨fun other => hsame.trans (revalued_other g value other), hpending⟩

theorem Carries.late (hg : g.Coherent) (found : g.node? id = some n) (value : Value) {x : NodeId}
    (carries : g.Carries id x) {m : Node (Program σ)}
    (hm : (g.written id value n.subscribers).node? x = some m) : m.freshness ≠ .clean := by
  obtain ⟨n', hn', marked⟩ := carries
  obtain rfl := Option.some.inj (found.symm.trans hn')
  exact ((marks_revalued found value).2 marked).late (bare_revalued (hg.on fun _ => True) value) hm

theorem shown_written {subscribers : List NodeId} {x : NodeId} (other : x ≠ id) :
    (g.written id value subscribers).shown x = g.shown x := by
  refine shown_congr ?_
  have hlive := (delayed_written g id value subscribers).live x
  rw [revalued_other g value other] at hlive
  cases hx : g.node? x with
  | none => simp_all
  | some m₀ =>
    obtain ⟨m, hm, hd⟩ := (delayed_written g id value subscribers).find
      ((revalued_other g value other).trans hx)
    simp [hm, hd.kind]

theorem body?_written (found : g.node? id = some n) (kind : n.kind = .signal old)
    (subscribers : List NodeId) :
    (g.written id value subscribers).sheet.body? = g.sheet.body? := by
  funext x
  by_cases hx : x = id
  · subst hx
    obtain ⟨m, hm, hk, -⟩ := written_self found value subscribers
    simp [sheet, hm, found, hk, kind, NodeKind.formula?]
  · have hlive := (delayed_written g id value subscribers).live x
    rw [revalued_other g value hx] at hlive
    cases h : g.node? x with
    | none => simp_all [sheet]
    | some m₀ =>
      obtain ⟨m, hm, hd⟩ := (delayed_written g id value subscribers).find
        ((revalued_other g value hx).trans h)
      simp [sheet, hm, h, hd.kind]

theorem value?_written (found : g.node? id = some n) (subscribers : List NodeId) (x : NodeId) :
    (g.written id value subscribers).sheet.value? x =
      if x = id then some value else g.sheet.value? x := by
  split
  next hx =>
    subst hx
    obtain ⟨m, hm, hk, -⟩ := written_self found value subscribers
    simp [sheet, hm, hk, NodeKind.value?]
  next hx =>
    have hlive := (delayed_written g id value subscribers).live x
    rw [revalued_other g value hx] at hlive
    cases h : g.node? x with
    | none => simp_all [sheet]
    | some m₀ =>
      obtain ⟨m, hm, hd⟩ := (delayed_written g id value subscribers).find
        ((revalued_other g value hx).trans h)
      simp [sheet, hm, h, hd.kind]

theorem holds_written (found : g.node? id = some n) (kind : n.kind = .signal old)
    (subscribers : List NodeId) {cell : Cell} :
    (g.written id value subscribers).sheet.Holds cell ↔ g.sheet.Holds cell := by
  have hold : g.sheet.value? id = some old := value?_eq_some.2 ⟨n, found, kind⟩
  obtain ⟨k, x⟩ := cell
  cases k with
  | signal =>
    simp only [Sheet.Holds, value?_written found]
    split
    next hx =>
      subst hx
      simp [hold]
    next => rfl
  | computed => simp only [Sheet.Holds, body?_written found kind]

/-- A late node other than a signal makes a subscriber late whose sources are settled while it is
clean. -/
theorem CoherentOn.shut_at (hg : g.CoherentOn P) {x : NodeId} {m : Node (Program σ)}
    (found : g.node? x = some m) (settled : m.freshness = .clean → ∀ s ∈ m.sources, g.Settled s) :
    g.Shut fun y z => g.sheet.value? y = none ∧ z = x := by
  rintro y _ n m' hn hlate hy ⟨hvalue, rfl⟩ hm
  obtain rfl := Option.some.inj (hm.symm.trans found)
  refine .inl fun hclean => ?_
  obtain ⟨n', hn', hset⟩ := settled hclean y ((hg.linked.edge hm hn).2 hy)
  obtain rfl := Option.some.inj (hn.symm.trans hn')
  obtain ⟨v, hv⟩ := Node.isSettled_of_clean hset hlate
  simp [value?_eq_some.2 ⟨n, hn, hv⟩] at hvalue

/-- Storing a value does not change which nodes are late, nor who subscribes to whom. -/
theorem Shut.revalued {R : NodeId → NodeId → Prop} (hs : g.Shut R) (id : NodeId) (value : Value) :
    (g.revalued id value).Shut R := by
  have find {x : NodeId} {m : Node (Program σ)} (hm : (g.revalued id value).node? x = some m) :
      ∃ m₀, g.node? x = some m₀ ∧ m.freshness = m₀.freshness ∧ m.subscribers = m₀.subscribers := by
    rw [Graph.revalued, node?_modifyNode] at hm
    split at hm
    · obtain ⟨m₀, hm₀, rfl⟩ := Option.map_eq_some_iff.1 hm
      exact ⟨m₀, hm₀, rfl, rfl⟩
    · exact ⟨m, hm, rfl, rfl⟩
  intro x y n m hn hlate hy hR hm
  obtain ⟨n₀, hn₀, hf, hsub⟩ := find hn
  obtain ⟨m₀, hm₀, hf', -⟩ := find hm
  rw [hf']
  exact hs hn₀ (hf ▸ hlate) (hsub ▸ hy) hR hm₀

theorem Shut.written {R : NodeId → NodeId → Prop} (hg : g.CoherentOn P) (hs : g.Shut R)
    (id : NodeId) (value : Value) (subscribers : List NodeId) :
    (g.written id value subscribers).Shut R :=
  (hs.revalued id value).markAll (bare_revalued hg value) subscribers

/-- A settled node stays settled unless it became late. -/
theorem settled_written {subscribers : List NodeId} (found : g.node? id = some n) {s : NodeId}
    (settled : g.Settled s)
    (clean : ∀ m, g.sheet.value? s = none → (g.written id value subscribers).node? s = some m →
      m.freshness = .clean) : (g.written id value subscribers).Settled s := by
  obtain ⟨t, ht, hset⟩ := settled
  by_cases hs : s = id
  · subst hs
    obtain ⟨m, hm, hk, -⟩ := written_self found value subscribers
    exact ⟨m, hm, by simp [Node.isSettled, hk]⟩
  · obtain ⟨m, hm, hd⟩ := (delayed_written g id value subscribers).find
      ((revalued_other g value hs).trans ht)
    refine ⟨m, hm, ?_⟩
    cases hk : t.kind with
    | signal v => simp [Node.isSettled, hd.kind, hk]
    | computed body running last =>
      have hnone : g.sheet.value? s = none := value?_of_body? (body?_of_kind ht hk)
      have hrunning : running = false := ((Node.isSettled_computed hk).1 hset).1
      exact (Node.isSettled_computed (hd.kind.trans hk)).2 ⟨hrunning, clean m hnone hm⟩
    | effect body running => simp [Node.isSettled, hk] at hset

/-- A write changes no sources, and no cell becomes an effect. -/
theorem cells_written {subscribers : List NodeId} (hg : g.CoherentOn P) (found : g.node? id = some n)
    {x s : NodeId} {m : Node (Program σ)}
    (hm : (g.written id value subscribers).node? x = some m) (mem : s ∈ m.sources) :
    ∃ t, (g.written id value subscribers).node? s = some t ∧ t.isEffect = false := by
  have hd := delayed_written g id value subscribers
  obtain ⟨m₁, hm₁, hd₁⟩ := hd.origin hm
  have hsource : ∃ m₀, g.node? x = some m₀ ∧ s ∈ m₀.sources := by
    by_cases hx : x = id
    · subst hx
      obtain rfl := Option.some.inj ((revalued_self found value).symm.trans hm₁)
      exact ⟨n, found, hd₁.sources ▸ mem⟩
    · exact ⟨m₁, (revalued_other g value hx).symm.trans hm₁, hd₁.sources ▸ mem⟩
  obtain ⟨m₀, hm₀, hs⟩ := hsource
  obtain ⟨t, ht, heffect⟩ := hg.cells hm₀ hs
  by_cases hsid : s = id
  · subst hsid
    obtain ⟨t', ht', hk, -⟩ := written_self found value subscribers
    exact ⟨t', ht', by rw [Node.isEffect, hk]⟩
  · obtain ⟨t', ht', hd'⟩ := hd.find ((revalued_other g value hsid).trans ht)
    exact ⟨t', ht', by rwa [Node.isEffect, hd'.kind]⟩

/-- The sources of a node that stays clean stay settled: a computed that became late would have made
its subscriber late. -/
theorem CoherentOn.settled_of_clean (hg : g.CoherentOn P) (found : g.node? id = some n)
    (kind : n.kind = .signal old) {x : NodeId} {m₀ m : Node (Program σ)} (hm₀ : g.node? x = some m₀)
    (settled : m₀.freshness = .clean → ∀ s ∈ m₀.sources, g.Settled s)
    (hm : (g.written id value n.subscribers).node? x = some m) (delayed : m₀.Delayed m)
    (clean : m.freshness = .clean) :
    ∀ s ∈ m.sources, (g.written id value n.subscribers).Settled s := by
  intro s hs
  have hs₀ : s ∈ m₀.sources := delayed.sources ▸ hs
  refine settled_written found (settled (delayed.clean clean) s hs₀) fun t hvalue ht => ?_
  by_contra hlate
  have hsid : s ≠ id := by
    rintro rfl
    simp [value?_eq_some.2 ⟨n, found, kind⟩] at hvalue
  obtain ⟨t₀, ht₀, hd₁⟩ := written_of_ne hsid ht
  have hsub : x ∈ t.subscribers := hd₁.subscribers ▸ (hg.linked.edge hm₀ ht₀).1 hs₀
  rcases (hg.shut_at hm₀ settled).written hg id value n.subscribers ht hlate hsub ⟨hvalue, rfl⟩ hm
    with h | h
  · exact h clean
  · cases h

theorem CoherentOn.written (hg : g.CoherentOn P) (found : g.node? id = some n)
    (kind : n.kind = .signal old) (proper : value.Proper) (idle : g.Idle fun _ => True) :
    (g.written id value n.subscribers).CoherentOn P := by
  have hlinked : (g.revalued id value).Linked := hg.linked.modifyNode id fun _ => rfl
  constructor
  · exact (delayed_written g id value n.subscribers).linked hlinked
  · intro x m hm
    by_cases hx : x = id
    · subst hx
      obtain ⟨m', hm', hk', -⟩ := written_self found value n.subscribers
      obtain rfl := Option.some.inj (hm.symm.trans hm')
      rw [hk']
      exact proper
    · rw [← shown_eq hm, shown_written hx]
      exact hg.shown_proper x
  · intro x body hbody
    rw [body?_written found kind] at hbody
    exact hg.lawful hbody
  · exact fun {x s m} hm hs => cells_written hg found hm hs
  · intro x m hm hr
    simp [idle_written found value _ idle trivial hm] at hr
  · intro x m body last hP hm hk hf
    obtain ⟨m₀, hm₀, hd₀⟩ := written_of_unset found hm fun v => by simp [hk]
    have hk₀ : m₀.kind = .computed body false last := hd₀.kind ▸ hk
    have hcurrent := hg.current hP hm₀ hk₀ fun h => hf (hd₀.dirty h)
    refine hcurrent.mono (hg.lawful (body?_of_kind hm₀ hk₀)) hd₀.kind hd₀.sources
      (fun cell _ => (holds_written found kind _).2) fun s hs => ?_
    have hsid : s ≠ id := by
      rintro rfl
      exact hf (markAll_dirty ((hg.linked.edge hm₀ found).1 hs) hm)
    rw [shown_written hsid]
    exact .refl (hg.shown_proper s)
  · intro x m body last hP hm hk hf s hs
    obtain ⟨m₀, hm₀, hd₀⟩ := written_of_unset found hm fun v => by simp [hk]
    exact hg.settled_of_clean found kind hm₀ (hg.settled hP hm₀ (hd₀.kind ▸ hk)) hm hd₀ hf s hs

theorem Coherent.written (hg : g.Coherent) (found : g.node? id = some n)
    (kind : n.kind = .signal old) (proper : value.Proper) (idle : g.Idle fun _ => True) :
    (g.written id value n.subscribers).Coherent :=
  ((hg.on _).written found kind proper idle).coherent

end Graph

end LiveTemplate.Reactive
