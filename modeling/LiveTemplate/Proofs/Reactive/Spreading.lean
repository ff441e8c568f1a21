import LiveTemplate.Proofs.Reactive.Cycles
import LiveTemplate.Proofs.Reactive.WritingBack

/-!
# How marking spreads

A write marks the subscribers of a signal, and from there marking goes on as a recursion
(`Graph.markWithin`) that turns back at nodes which are as late already and at effects.

It returns, also where subscribers form circuits: a call that goes on takes a clean node away, so the
nesting is no deeper than there are clean nodes (`Graph.markWithin_stale`), and it comes to the same
as the worklist of `Graph.markStale`.

And it misses nothing where it turns back, if lateness was announced before (`Graph.Announced`): what
is behind a late computed is late then, and late effects are queued. Marking keeps it so, and all that
is behind the written signal is late afterwards (`Graph.WellFormed.spreads`).
-/
namespace LiveTemplate.Reactive

variable {β σ : Type}

open Relation (TransGen)

namespace Freshness

/-- From fresh to late. -/
def lag : Freshness → Nat
  | clean => 0
  | stale => 1
  | dirty => 2

instance : LE Freshness := ⟨fun f f' => f.lag ≤ f'.lag⟩

instance (f f' : Freshness) : Decidable (f ≤ f') := inferInstanceAs (Decidable (f.lag ≤ f'.lag))

theorem stale_le {f : Freshness} : stale ≤ f ↔ f ≠ clean := by
  cases f <;> decide

theorem dirty_le {f : Freshness} : dirty ≤ f ↔ f = dirty := by
  cases f <;> decide

end Freshness

theorem Node.Delayed.freshness_le {n m : Node β} (h : n.Delayed m) : n.freshness ≤ m.freshness := by
  cases hn : n.freshness with
  | clean => exact Nat.zero_le _
  | stale => exact Freshness.stale_le.2 fun hm => by simp [h.clean hm] at hn
  | dirty => exact Freshness.dirty_le.2 (h.dirty hn)

namespace Graph

variable {g h : Graph β} {id s : NodeId} {n : Node β} {f : Freshness} {depth : Nat}

/-! ## The recursion -/

/-- Makes a node as late as it is told to, and stale what depends on it. A node that is as late already
is passed over. Each level of nesting uses up one unit of depth, and without depth there is no answer. -/
def markWithin : Nat → Graph β → NodeId → Freshness → Option (Graph β)
  | 0, _, _, _ => none
  | depth + 1, g, id, f =>
    match g.node? id with
    | none => some g
    | some n =>
      if f ≤ n.freshness then some g
      else if n.isEffect then some ((g.setFreshness id f).enqueue id)
      else n.subscribers.foldlM (fun g sub => markWithin depth g sub .stale) (g.setFreshness id f)

/-- Marks one node after the other. -/
def markEachWithin (depth : Nat) (g : Graph β) (ids : List NodeId) (f : Freshness) :
    Option (Graph β) :=
  ids.foldlM (fun g id => g.markWithin depth id f) g

theorem passed_or_raised (g : Graph β) (id : NodeId) (f : Freshness) :
    (∀ n, g.node? id = some n → f ≤ n.freshness) ∨ ∃ n, g.node? id = some n ∧ ¬f ≤ n.freshness := by
  by_cases higher : ∃ n, g.node? id = some n ∧ ¬f ≤ n.freshness
  · exact .inr higher
  · exact .inl fun n hn => Decidable.not_not.1 fun h => higher ⟨n, hn, h⟩

theorem markWithin_skip (skip : ∀ n, g.node? id = some n → f ≤ n.freshness) :
    g.markWithin (depth + 1) id f = some g := by
  rw [markWithin]
  cases hn : g.node? id with
  | none => rfl
  | some n => exact if_pos (skip n hn)

/-- A call that goes on delays the node first. -/
theorem markWithin_raise (found : g.node? id = some n) (higher : ¬f ≤ n.freshness) :
    g.markWithin (depth + 1) id f = (g.delay id f n.isEffect).markEachWithin depth
      (if n.isEffect then [] else n.subscribers) .stale := by
  rw [markWithin]
  simp only [found, if_neg higher]
  cases heffect : n.isEffect <;> rfl

theorem markDirty_skip (skip : ∀ n, g.node? id = some n → .dirty ≤ n.freshness) :
    g.markDirty id = g := by
  rw [markDirty]
  split
  · rfl
  next n found => exact if_pos (Freshness.dirty_le.1 (skip n found))

theorem markStale_nil (g : Graph β) : g.markStale [] = g := by
  rw [markStale]

theorem markDirty_raise (found : g.node? id = some n) (higher : ¬.dirty ≤ n.freshness) :
    g.markDirty id = (g.delay id .dirty n.isEffect).markStale
      (if n.isEffect then [] else n.subscribers) := by
  rw [markDirty]
  simp only [found, if_neg (mt Freshness.dirty_le.2 higher)]
  cases heffect : n.isEffect <;> simp [delay, markStale_nil]

theorem markStale_append (g : Graph β) (work rest : List NodeId) :
    g.markStale (work ++ rest) = (g.markStale work).markStale rest := by
  induction g, work using markStale_induction with
  | nil g => rw [List.nil_append, markStale_nil]
  | mark g id n work found clean ih =>
    rw [List.cons_append, markStale_cons_clean found clean, markStale_cons_clean found clean, ← ih,
      List.append_assoc]
  | skip g id work skip ih =>
    rw [List.cons_append, markStale_cons_skip skip, markStale_cons_skip skip, ih]

/-! ## How deep it goes -/

/-- The number of nodes that can become late. -/
def cleanCount (g : Graph β) : Nat := g.nodes.count Node.isClean

theorem nodes_delay (g : Graph β) (id : NodeId) (f : Freshness) (effect : Bool) :
    (g.delay id f effect).nodes = g.nodes.modify id (Node.withFreshness f) := by
  cases effect <;> rfl

theorem isClean_withFreshness (late : f ≠ .clean) (n : Node β) :
    (n.withFreshness f).isClean = false := by
  simp [Node.isClean, Node.withFreshness, late]

theorem cleanCount_delay_lt (found : g.node? id = some n) (clean : n.freshness = .clean)
    (late : f ≠ .clean) (effect : Bool) : (g.delay id f effect).cleanCount < g.cleanCount := by
  rw [cleanCount, nodes_delay]
  exact Arena.count_modify_lt _ _ found (n.isClean_iff.2 clean) (isClean_withFreshness late n)

theorem cleanCount_delay_le (found : g.node? id = some n) (late : f ≠ .clean) (effect : Bool) :
    (g.delay id f effect).cleanCount ≤ g.cleanCount := by
  rw [cleanCount, nodes_delay, Arena.count_modify _ _ found, isClean_withFreshness late n]
  exact Nat.sub_le _ _

theorem cleanCount_markStale_le (g : Graph β) (work : List NodeId) :
    (g.markStale work).cleanCount ≤ g.cleanCount := by
  induction g, work using markStale_induction with
  | nil g => rw [markStale_nil]
  | mark g id n work found clean ih =>
    rw [markStale_cons_clean found clean]
    exact ih.trans (cleanCount_delay_le found (by simp) _)
  | skip g id work skip ih =>
    rw [markStale_cons_skip skip]
    exact ih

theorem cleanCount_markDirty_le (g : Graph β) (id : NodeId) :
    (g.markDirty id).cleanCount ≤ g.cleanCount := by
  rcases g.passed_or_raised id .dirty with skip | ⟨n, hn, higher⟩
  · rw [markDirty_skip skip]
  · rw [markDirty_raise hn higher]
    exact (cleanCount_markStale_le _ _).trans (cleanCount_delay_le hn (by simp) _)

/-- A walk over a list whose steps succeed from every state of a property, which they keep. -/
theorem foldlM_eq_some {γ ι : Type} {step : γ → ι → Option γ} {next : γ → ι → γ} {P : γ → Prop}
    (steps : ∀ c i, P c → step c i = some (next c i) ∧ P (next c i)) (is : List ι) {c : γ}
    (hc : P c) : is.foldlM step c = some (is.foldl next c) := by
  induction is generalizing c with
  | nil => rfl
  | cons i is ih =>
    obtain ⟨hstep, hnext⟩ := steps c i hc
    rw [List.foldlM_cons, hstep, Option.bind_eq_bind, Option.bind_some, ih hnext, List.foldl_cons]

theorem foldl_markStale (g : Graph β) (ids : List NodeId) :
    ids.foldl (fun g id => g.markStale [id]) g = g.markStale ids := by
  induction ids generalizing g with
  | nil => rw [markStale_nil, List.foldl_nil]
  | cons id ids ih => rw [List.foldl_cons, ih, ← markStale_append, List.singleton_append]

/-- Enough depth for one node is enough for a list of them. -/
theorem markEachWithin_stale (one : ∀ {g : Graph β}, g.cleanCount < depth → ∀ id,
      g.markWithin depth id .stale = some (g.markStale [id]))
    (room : g.cleanCount < depth) (ids : List NodeId) :
    g.markEachWithin depth ids .stale = some (g.markStale ids) := by
  rw [markEachWithin, foldlM_eq_some (P := fun g => g.cleanCount < depth)
    (fun g id room => ⟨one room id, (cleanCount_markStale_le g [id]).trans_lt room⟩) ids room,
    foldl_markStale]

/-- With more depth than there are clean nodes the recursion returns, and does what the worklist does. -/
theorem markWithin_stale (room : g.cleanCount < depth) (id : NodeId) :
    g.markWithin depth id .stale = some (g.markStale [id]) := by
  induction depth generalizing g id with
  | zero => cases room
  | succ depth ih =>
    rcases g.passed_or_raised id .stale with skip | ⟨n, hn, higher⟩
    · rw [markWithin_skip skip, markStale_cons_skip fun n hn => Freshness.stale_le.1 (skip n hn),
        markStale_nil]
    · have hclean : n.freshness = .clean := Decidable.not_not.1 (mt Freshness.stale_le.2 higher)
      have hroom : (g.delay id .stale n.isEffect).cleanCount < depth :=
        (cleanCount_delay_lt hn hclean (by simp) _).trans_le (Nat.le_of_lt_succ room)
      rw [markWithin_raise hn higher, markStale_cons_clean hn hclean, List.append_nil]
      exact markEachWithin_stale ih hroom _

/-- The node itself may be stale already, and goes on all the same; so it takes one level more. -/
theorem markWithin_dirty (room : g.cleanCount + 1 < depth) (id : NodeId) :
    g.markWithin depth id .dirty = some (g.markDirty id) := by
  cases depth with
  | zero => cases room
  | succ depth =>
    rcases g.passed_or_raised id .dirty with skip | ⟨n, hn, higher⟩
    · rw [markWithin_skip skip, markDirty_skip skip]
    · have hroom : (g.delay id .dirty n.isEffect).cleanCount < depth :=
        (cleanCount_delay_le hn (by simp) _).trans_lt (Nat.lt_of_succ_lt_succ room)
      rw [markWithin_raise hn higher, markDirty_raise hn higher]
      exact markEachWithin_stale markWithin_stale hroom _

theorem markEachWithin_dirty (room : g.cleanCount + 1 < depth) (ids : List NodeId) :
    g.markEachWithin depth ids .dirty = some (ids.foldl markDirty g) :=
  foldlM_eq_some (P := fun g => g.cleanCount + 1 < depth) (fun g id room =>
    ⟨markWithin_dirty room id,
      (Nat.add_le_add_right (cleanCount_markDirty_le g id) 1).trans_lt room⟩) ids room

/-! ## Lateness that is announced -/

/-- What subscribes to a late computed is late, and late effects are queued. -/
structure Announced (g : Graph β) : Prop where
  onward : ∀ {x y : NodeId} {n m : Node β}, g.node? x = some n → n.sort = .computed →
    n.freshness ≠ .clean → y ∈ n.subscribers → g.node? y = some m → m.freshness ≠ .clean
  queued : ∀ {x : NodeId} {n : Node β}, g.node? x = some n → n.sort = .effect →
    n.freshness ≠ .clean → x ∈ g.pending

theorem WellFormed.bare (formed : g.WellFormed) : g.Bare :=
  fun _ _ hn heffect => formed.effects hn (Node.isEffect_iff.1 heffect)

/-- Only a computed has something both in front of it and behind it. -/
theorem WellFormed.sort_of_between (formed : g.WellFormed) {x y z : NodeId} {k m : Node β}
    (before : g.node? x = some k) (edge : y ∈ k.subscribers) (found : g.node? y = some m)
    (behind : z ∈ m.subscribers) : m.sort = .computed := by
  cases hsort : m.sort with
  | computed => rfl
  | signal => simpa [formed.signals found hsort] using (formed.linked.edge found before).2 edge
  | effect => simp [formed.effects found hsort] at behind

/-- No node gets fresher, and nothing else of it changes. -/
theorem rises_markAll (ids : List NodeId) {x : NodeId} (found : g.node? x = some n) :
    ∃ f, (ids.foldl markDirty g).node? x = some (n.withFreshness f) ∧ n.freshness ≤ f := by
  obtain ⟨m, hm, hdelayed⟩ := (delayed_markAll g ids).find found
  obtain ⟨n', hn', hshape⟩ := (alters_markAll g ids).origin hm
  obtain rfl := Option.some.inj (found.symm.trans hn')
  refine ⟨m.freshness, hm.trans (congrArg some ?_), hdelayed.freshness_le⟩
  obtain ⟨kind, _, sources, subscribers, owner⟩ := m
  have howner : owner = n.owner := congrArg (·.2.2) hshape
  obtain rfl : kind = n.kind := hdelayed.kind
  obtain rfl : sources = n.sources := hdelayed.sources
  obtain rfl : subscribers = n.subscribers := hdelayed.subscribers
  subst howner
  rfl

theorem origin_markAll (ids : List NodeId) {x : NodeId} {m : Node β}
    (hm : (ids.foldl markDirty g).node? x = some m) :
    ∃ n f, g.node? x = some n ∧ m = n.withFreshness f := by
  obtain ⟨n, hn, -⟩ := (delayed_markAll g ids).origin hm
  obtain ⟨f, hf, -⟩ := rises_markAll ids hn
  exact ⟨n, f, hn, Option.some.inj (hm.symm.trans hf)⟩

theorem Announced.markAll (announced : g.Announced) (formed : g.WellFormed) (ids : List NodeId) :
    (ids.foldl markDirty g).Announced where
  onward {x y m k} hm hsort hlate hy hk := by
    -- marking shuts the edges that lead on from computeds
    have hshut : g.Shut fun x _ => ∃ n, g.node? x = some n ∧ n.sort = .computed := by
      rintro x y n m hn hlate hy ⟨n', hn', hsort⟩ hm
      obtain rfl := Option.some.inj (hn.symm.trans hn')
      exact .inl (announced.onward hn hsort hlate hy hm)
    obtain ⟨n, f, hn, rfl⟩ := origin_markAll ids hm
    exact (hshut.markAll formed.bare ids hm hlate hy ⟨n, hn, hsort⟩ hk).resolve_right nofun
  queued {x m} hm hsort hlate := by
    obtain ⟨n, f, hn, rfl⟩ := origin_markAll ids hm
    by_cases hclean : n.freshness = .clean
    · exact (delayed_markAll g ids).queued hn hm (Node.isEffect_iff.2 hsort) hclean hlate
    · exact (delayed_markAll g ids).pending x (announced.queued hn hsort hclean)

/-- A new value makes nothing late. -/
theorem Announced.revalued {g : Graph (Program σ)} {n : Node (Program σ)} (announced : g.Announced)
    (found : g.node? s = some n) (signal : n.sort = .signal) (value : Value) :
    (g.revalued s value).Announced := by
  have origin {x : NodeId} {m : Node (Program σ)} (hm : (g.revalued s value).node? x = some m) :
      ∃ k, g.node? x = some k ∧ k.sort = m.sort ∧ k.freshness = m.freshness ∧
        k.subscribers = m.subscribers := by
    by_cases hx : x = s
    · subst hx
      obtain rfl := Option.some.inj ((revalued_self found value).symm.trans hm)
      exact ⟨n, found, signal, rfl, rfl⟩
    · exact ⟨m, (revalued_other g value hx).symm.trans hm, rfl, rfl, rfl⟩
  constructor
  · intro x y m m' hm hsort hlate hy hm'
    obtain ⟨k, hk, hsort', hfresh, hsubs⟩ := origin hm
    obtain ⟨k', hk', -, hfresh', -⟩ := origin hm'
    exact hfresh' ▸ announced.onward hk (hsort'.trans hsort) (hfresh ▸ hlate) (hsubs ▸ hy) hk'
  · intro x m hm hsort hlate
    obtain ⟨k, hk, hsort', hfresh, -⟩ := origin hm
    exact announced.queued hk (hsort'.trans hsort) (hfresh ▸ hlate)

/-! ## What is behind a node that is marked from -/

/-- Lateness has spread from a node to all that is behind it, and to nothing else. -/
structure Spread (g : Graph β) (s : NodeId) (h : Graph β) : Prop where
  direct : ∀ {x : NodeId} {n : Node β}, g.node? s = some n → x ∈ n.subscribers →
    h.freshness? x = some .dirty
  /-- What is further off has to be asked, but not to run on this account. -/
  further : ∀ {x : NodeId} {n k : Node β}, g.node? s = some n → x ∉ n.subscribers →
    g.node? x = some k → k.freshness ≠ .dirty → h.freshness? x ≠ some .dirty
  behind : ∀ {x : NodeId}, g.Behind s x → ∃ m, h.node? x = some m ∧ m.freshness ≠ .clean
  queued : ∀ {x : NodeId} {n : Node β}, g.Behind s x → g.node? x = some n → n.sort = .effect →
    h.pending.count x = 1
  /-- No node gets fresher, and nothing else of it changes. -/
  rises : ∀ {x : NodeId} {n : Node β}, g.node? x = some n →
    ∃ f, h.node? x = some (n.withFreshness f) ∧ n.freshness ≤ f
  spared : ∀ {x : NodeId}, ¬g.Behind s x →
    h.node? x = g.node? x ∧ (x ∈ h.pending ↔ x ∈ g.pending)

theorem WellFormed.behind_late (formed : g.WellFormed) (announced : g.Announced)
    (found : g.node? s = some n) {x : NodeId} (behind : g.Behind s x) :
    ∃ m, (n.subscribers.foldl markDirty g).node? x = some m ∧ m.freshness ≠ .clean := by
  have hd := delayed_markAll g n.subscribers
  have hlive {y z : NodeId} {k : Node β} (hk : g.node? y = some k) (hz : z ∈ k.subscribers) :
      ∃ m, (n.subscribers.foldl markDirty g).node? z = some m := by
    rw [← Option.isSome_iff_exists, hd.live]
    exact formed.linked.subscriber_live hk hz
  -- whoever has something in front of it and something behind it is a computed, so lateness goes on
  induction behind with
  | single edge =>
    obtain ⟨k, hk, hx⟩ := edge
    obtain rfl := Option.some.inj (found.symm.trans hk)
    obtain ⟨m, hm⟩ := hlive hk hx
    exact ⟨m, hm, by simp [markAll_dirty hx hm]⟩
  | @tail y z before edge ih =>
    obtain ⟨k, hk, hz⟩ := edge
    obtain ⟨k', hk', hlate⟩ := ih
    obtain ⟨m, hm⟩ := hlive hk hz
    obtain ⟨w, -, l, hl, hy⟩ := TransGen.tail'_iff.1 before
    have hcomputed : k.sort = .computed := formed.sort_of_between hl hy hk hz
    obtain ⟨f, hf, -⟩ := rises_markAll n.subscribers hk
    obtain rfl := Option.some.inj (hk'.symm.trans hf)
    exact ⟨m, hm, (announced.markAll formed _).onward hf hcomputed hlate hz hm⟩

theorem WellFormed.spread_markAll (formed : g.WellFormed) (distinct : g.pending.Nodup)
    (announced : g.Announced) (found : g.node? s = some n) :
    g.Spread s (n.subscribers.foldl markDirty g) where
  direct {x k} hk hx := by
    obtain rfl := Option.some.inj (found.symm.trans hk)
    obtain ⟨m, hm, -⟩ := formed.behind_late announced found (.single ⟨_, found, hx⟩)
    rw [freshness?, hm, Option.map_some, markAll_dirty hx hm]
  further {x k m} hk hx hm higher := by
    obtain rfl := Option.some.inj (found.symm.trans hk)
    obtain ⟨f, hf, -⟩ := rises_markAll n.subscribers hm
    rw [freshness?, hf, Option.map_some]
    exact fun hdirty => markAll_higher hx hm higher hf (Option.some.inj hdirty)
  behind := formed.behind_late announced found
  queued {x m} behind hm heffect := by
    obtain ⟨f, hf, -⟩ := rises_markAll n.subscribers hm
    obtain ⟨m', hm', hlate⟩ := formed.behind_late announced found behind
    obtain rfl := Option.some.inj (hm'.symm.trans hf)
    exact List.count_eq_one_of_mem ((delayed_markAll g _).nodup distinct)
      ((announced.markAll formed _).queued hf heffect hlate)
  rises := rises_markAll n.subscribers
  spared {x} far := by
    obtain ⟨hsame, hnot⟩ := spares_markAll g n.subscribers x fun marked => far (marked.behind found)
    exact ⟨hsame, hnot, (delayed_markAll g _).pending x⟩

/-- Marking the subscribers of a node, such as a signal that is written, returns whatever circuits there
are, and late is then all that is behind the node. -/
theorem WellFormed.spreads (formed : g.WellFormed) (distinct : g.pending.Nodup)
    (announced : g.Announced) (found : g.node? s = some n) :
    ∃ h, (∀ depth, g.cleanCount + 1 < depth →
        g.markEachWithin depth n.subscribers .dirty = some h) ∧
      n.subscribers.foldl markDirty g = h ∧ g.Spread s h ∧
      h.WellFormed ∧ h.pending.Nodup ∧ h.Announced :=
  ⟨n.subscribers.foldl markDirty g, fun _ room => markEachWithin_dirty room n.subscribers, rfl,
    formed.spread_markAll distinct announced found, formed.markAll _,
    (delayed_markAll g _).nodup distinct, announced.markAll formed _⟩

/-- Where all is fresh there is nothing to announce. -/
theorem announced_of_fresh (fresh : g.nodes.count (fun n => !n.isClean) = 0) : g.Announced := by
  have hclean {x : NodeId} {n : Node β} (hn : g.node? x = some n) : n.freshness = .clean := by
    by_contra hlate
    have hpos := Arena.count_pos (fun n => !n.isClean) hn (by simpa [Node.isClean] using hlate)
    exact absurd fresh hpos.ne'
  exact ⟨fun hn _ hlate => absurd (hclean hn) hlate, fun hn _ hlate => absurd (hclean hn) hlate⟩

end Graph

namespace Engine

open Reactive.Graph

/-- A write that is not skipped stores the value, and all that is behind the signal is late before the
first effect runs. -/
theorem writeSignal_spreads {refresh : NodeId → Engine σ → Option (Engine σ)} {e : Engine σ}
    (formed : e.graph.WellFormed) (distinct : e.graph.pending.Nodup) (announced : e.graph.Announced)
    {s : NodeId} {n : Node (Program σ)} {old value : Value} (found : e.graph.node? s = some n)
    (kind : n.kind = .signal old)
    (stores : ¬(e.settings.writeEquality = .skipEqual && old.equals value) = true) :
    ∃ h, (e.graph.revalued s value).Spread s h ∧
      e.writeSignal refresh s value = flush refresh { e with graph := h } := by
  have signal : n.sort = .signal := Node.sort_eq_signal.2 ⟨old, kind⟩
  have spread := (formed.revalued found signal value).spread_markAll distinct
    (announced.revalued found signal value) (revalued_self found value)
  exact ⟨e.graph.written s value n.subscribers, spread,
    by rw [writeSignal_found found kind, if_neg stores]⟩

namespace Pair

def watcher : NodeId := ⟨5, 0⟩

/-- Makes the pair, reads the outer computed, and makes an effect that reads it as well; then it sets the
flag, so that the inner computed reads the outer one. -/
def watching : Program Journal :=
  .newSignal (.bool false) fun flag => .newSignal .null fun _ =>
    .newComputed none steadyBody fun _ => .newComputed none outerBody fun _ =>
      .newComputed none innerBody fun _ => .read ⟨.computed, outer⟩ true fun _ =>
        .newScope none fun _ =>
          .newEffect ⟨0, 0⟩ (.read ⟨.computed, outer⟩ true fun _ => .pure .undefined) fun _ =>
            .write flag (.bool true) fun _ => .pure .undefined

def watched : Engine Journal :=
  ((run 5 watching (start .default [])).get (by cbv)).2

theorem run_watching : run 5 watching (start .default []) = some (.ok .undefined, watched) := by
  cbv

theorem flag_watched :
    watched.graph.node? flag = some ⟨.signal (.bool true), .clean, [], [inner], none⟩ := by
  cbv

theorem wellFormed_watched : watched.graph.WellFormed := by
  have hreached : Moment.Reached ⟨.work (.done (.ok .undefined)), [], watched⟩ :=
    ⟨.default, [], watching, Moment.later_of_steps (run_steps run_watching [])⟩
  exact hreached.sound.graph

/-- The flag has been written to in a batch, and what depends on it waits. -/
def waiting : Graph (Program Journal) :=
  watched.graph.written flag (.bool false) [inner]

theorem ticks_waiting : waiting.node? ticks = some ⟨.signal .null, .clean, [], [steady], none⟩ := by
  cbv

theorem wellFormed_waiting : waiting.WellFormed :=
  wellFormed_watched.written flag_watched rfl _ _

theorem announced_waiting : waiting.Announced := by
  have hfresh : watched.graph.Announced := announced_of_fresh (by cbv)
  have hformed : (watched.graph.revalued flag (.bool false)).WellFormed :=
    wellFormed_watched.revalued flag_watched rfl _
  exact (hfresh.revalued flag_watched rfl _).markAll hformed [inner]

/-- The two computeds subscribe to each other. -/
theorem behind_waiting : waiting.Behind inner inner := by
  have hedge {x y : NodeId} (h : (waiting.node? x).any (fun n => y ∈ n.subscribers) = true) :
      ∃ n, waiting.node? x = some n ∧ y ∈ n.subscribers := by
    simpa [Option.any_eq_true] using h
  exact .tail (.single (hedge (y := outer) (by cbv))) (hedge (by cbv))

end Pair

/-- The second signal of a batch is marked from, and what is behind it forms a circuit and is late
already. -/
theorem spreads_waiting :
    (Pair.waiting.WellFormed ∧ Pair.waiting.pending.Nodup ∧ Pair.waiting.Announced ∧
      Pair.waiting.Behind Pair.inner Pair.inner) ∧
    ∃ h, Pair.waiting.markEachWithin 5 [Pair.steady] .dirty = some h ∧
      Pair.waiting.Spread Pair.ticks h ∧ h.Announced := by
  have distinct : Pair.waiting.pending.Nodup := by
    rw [show Pair.waiting.pending = [Pair.watcher] by cbv]
    exact List.nodup_singleton _
  obtain ⟨h, returns, -, spread, -, -, announced⟩ := Pair.wellFormed_waiting.spreads distinct
    Pair.announced_waiting Pair.ticks_waiting
  have room : Pair.waiting.cleanCount + 1 < 5 := by
    rw [show Pair.waiting.cleanCount = 3 by cbv]
    decide
  exact ⟨⟨Pair.wellFormed_waiting, distinct, Pair.announced_waiting, Pair.behind_waiting⟩, h,
    returns 5 room, spread, announced⟩

end Engine

end LiveTemplate.Reactive
