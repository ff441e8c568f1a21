import LiveTemplate.Proofs.Reactive.Running

/-!
# Bringing a computed up to date

On a coherent graph with a forecast, bringing a covered computed up to date leaves a coherent graph
in which it is settled and, by `Graph.Coherent.alike_of_settled`, shows what is forecast. Only
computeds that the forecast covers and ranks no higher are brought up to date on the way, so the
graph need not be coherent beyond these.

The statements are about one level of nesting over any way of refreshing that serves
(`Engine.ServesOn`) the nodes of lower rank; the depth enters at the end only, by induction. Those
about graphs that are coherent throughout follow (`Engine.Serves`).
-/
namespace LiveTemplate.Reactive

variable {σ : Type}

/-- Whatever there is has the property, and there is something if the condition holds. -/
def Yields {α : Type} (enough : Prop) (x : Option α) (Q : α → Prop) : Prop :=
  (∀ a, x = some a → Q a) ∧ (enough → x.isSome)

namespace Yields

variable {α γ : Type} {enough enough' : Prop} {x : Option α} {Q : α → Prop} {R : γ → Prop}

theorem some {a : α} (h : Q a) : Yields enough (some a) Q := by
  refine ⟨fun b hb => ?_, fun _ => rfl⟩
  obtain rfl := Option.some.inj hb
  exact h

theorem none (h : ¬enough) : Yields enough (none : Option α) Q :=
  ⟨nofun, fun he => absurd he h⟩

theorem bind {f : α → Option γ} (h : Yields enough x Q)
    (next : ∀ a, Q a → Yields enough (f a) R) : Yields enough (x.bind f) R := by
  refine ⟨fun c hc => ?_, fun he => ?_⟩
  · obtain ⟨a, ha, hf⟩ := Option.bind_eq_some_iff.1 hc
    exact (next a (h.1 a ha)).1 c hf
  · obtain ⟨a, ha⟩ := Option.isSome_iff_exists.1 (h.2 he)
    rw [ha]
    exact (next a (h.1 a ha)).2 he

theorem map {f : α → γ} (h : Yields enough x Q) (next : ∀ a, Q a → R (f a)) :
    Yields enough (x.map f) R := by
  rw [Option.map_eq_bind]
  exact h.bind fun a ha => .some (next a ha)

theorem mono {Q' : α → Prop} (h : Yields enough x Q) (stronger : enough' → enough)
    (weaker : ∀ a, Q a → Q' a) : Yields enough' x Q' :=
  ⟨fun a ha => weaker a (h.1 a ha), fun he => h.2 (stronger he)⟩

end Yields

/-- The computeds that a forecast covers below a rank. -/
def Sheet.below (s : Sheet σ) (F : Forecast) (bound : Nat) (id : NodeId) : Prop :=
  (∃ body, s.body? id = some body) ∧ F.covers id ∧ F.rank id < bound

theorem Sheet.below_mono {s : Sheet σ} {F : Forecast} {bound bound' : Nat} (h : bound ≤ bound')
    (id : NodeId) (hid : s.below F bound id) : s.below F bound' id :=
  ⟨hid.1, hid.2.1, Nat.lt_of_lt_of_le hid.2.2 h⟩

namespace Engine

open Reactive.Graph

variable {F : Forecast} {d bound : Nat} (depth : Nat) {refresh : NodeId → Engine σ → Option (Engine σ)}
  {e : Engine σ} {P : NodeId → Prop}

theorem trackIf_eq (e : Engine σ) (tracked : Bool) (id : NodeId) :
    ∃ tracking, e.trackIf tracked id = { e with tracking := tracking } := by
  cases tracked with
  | false => exact ⟨e.tracking, rfl⟩
  | true =>
    simp only [trackIf, track, if_true]
    split
    · exact ⟨_, rfl⟩
    · exact ⟨e.tracking, rfl⟩

@[simp] theorem graph_trackIf (e : Engine σ) (tracked : Bool) (id : NodeId) :
    (e.trackIf tracked id).graph = e.graph := by
  obtain ⟨tracking, heq⟩ := trackIf_eq e tracked id
  rw [heq]

/-- Records reads in the innermost body, one after the other. -/
def trackAll (e : Engine σ) (cells : List Cell) : Engine σ :=
  cells.foldl (fun e cell => e.trackIf true cell.node) e

theorem trackAll_cons (e : Engine σ) (cell : Cell) (cells : List Cell) :
    e.trackAll (cell :: cells) = (e.trackIf true cell.node).trackAll cells := rfl

theorem track_with_graph (e : Engine σ) (g g' : Graph (Program σ)) (id : NodeId) :
    { ({ e with graph := g } : Engine σ).trackIf true id with graph := g' } =
      ({ e with graph := g' } : Engine σ).trackIf true id := by
  simp only [trackIf, track, if_true]
  split <;> rfl

/-- A body collects the reads. -/
theorem trackAll_collected {g : Graph (Program σ)} {seen : List NodeId}
    {rest : List (Option (List NodeId))} (tracking : e.tracking = some seen :: rest)
    (cells : List Cell) : ({ e with graph := g } : Engine σ).trackAll cells =
      { e with
        graph := g
        tracking := some (record seen cells) :: rest } := by
  induction cells generalizing e seen with
  | nil => simp only [trackAll, List.foldl_nil, record_nil, ← tracking]
  | cons cell cells ih =>
    rw [trackAll_cons, record_cons, trackIf, if_pos rfl, track]
    simp only [tracking]
    exact ih (e := { e with tracking := some (enlist cell.node seen) :: rest }) rfl

/-- A way of refreshing settles covered computeds, as long as its depth is above their rank. -/
def ServesOn (P : NodeId → Prop) (F : Forecast) (d : Nat)
    (refresh : NodeId → Engine σ → Option (Engine σ)) : Prop :=
  ∀ {e : Engine σ} {id : NodeId} {body : Program σ}, e.graph.CoherentOn P → e.graph.sheet.Obeys F →
    e.graph.sheet.body? id = some body → F.covers id →
    e.graph.Idle (e.graph.sheet.below F (F.rank id + 1)) →
    Yields (F.rank id < d) (refresh id e) fun e' => ∃ g, e' = { e with graph := g } ∧
      e.graph.Refreshed (e.graph.sheet.below F (F.rank id + 1)) g ∧ g.CoherentOn P ∧ g.Settled id

/-- A cell that is live and, if a computed, covered and of a rank below the bound. -/
structure Ready (F : Forecast) (bound : Nat) (s : Sheet σ) (cell : Cell) : Prop where
  holds : s.Holds cell
  lower : cell.kind = .computed → F.covers cell.node ∧ F.rank cell.node < bound

theorem Ready.alike_on {g : Graph (Program σ)} {cell : Cell} (h : Ready F bound g.sheet cell)
    (within : ∀ x, F.covers x → P x) (hg : g.CoherentOn P) (hF : g.sheet.Obeys F)
    (settled : g.Settled cell.node) : (g.shown cell.node).Alike (F.outcome cell.node) :=
  hg.alike_of_settled within hF h.holds (fun hk => (h.lower hk).1) settled

namespace ServesOn

theorem readCell (serves : ServesOn P F d refresh) (hg : e.graph.CoherentOn P)
    (hF : e.graph.sheet.Obeys F) {cell : Cell} (ready : Ready F bound e.graph.sheet cell)
    (idle : e.graph.Idle (e.graph.sheet.below F bound)) (tracked : Bool) :
    Yields (bound ≤ d) (e.readCell refresh cell tracked) fun (o, e') => ∃ g,
      e' = ({ e with graph := g } : Engine σ).trackIf tracked cell.node ∧
        e.graph.Refreshed (e.graph.sheet.below F bound) g ∧ g.CoherentOn P ∧
        g.Settled cell.node ∧ o = g.shown cell.node := by
  obtain ⟨kind, id⟩ := cell
  cases kind with
  | signal =>
    obtain ⟨v, hv⟩ := ready.holds
    obtain ⟨n, hn, hkind⟩ := value?_eq_some.1 hv
    obtain ⟨_, freshness, sources, subscribers, owner⟩ := n
    subst hkind
    simp only [Engine.readCell, hn]
    exact .some ⟨e.graph, rfl, .refl hg.shown_proper, hg, ⟨_, hn, rfl⟩, by rw [shown_eq hn]; rfl⟩
  | computed =>
    obtain ⟨body, hbody⟩ := ready.holds
    obtain ⟨covered, hlower⟩ := ready.lower rfl
    obtain ⟨n, running, last, hn, hkind⟩ := body?_eq_some.1 hbody
    obtain ⟨_, freshness, sources, subscribers, owner⟩ := n
    subst hkind
    obtain rfl : running = false := idle ⟨⟨body, hbody⟩, covered, hlower⟩ hn
    have hwithin := Sheet.below_mono (s := e.graph.sheet) (F := F) (Nat.succ_le_of_lt hlower)
    have hserved := serves hg hF hbody covered (idle.mono hwithin)
    simp only [Engine.readCell, hn]
    refine (hserved.mono (Nat.lt_of_lt_of_le hlower) fun _ h => h).map ?_
    rintro _ ⟨g, rfl, hr, hg', hset⟩
    refine ⟨g, rfl, hr.mono hwithin, hg', hset, ?_⟩
    obtain ⟨m, running, last', hm, hkind'⟩ := body?_eq_some.1 (hr.sheet ▸ hbody)
    obtain ⟨_, _, _, _, _⟩ := m
    subst hkind'
    simp only [shownOutcome, hm, shown_eq hm]
    cases last' <;> rfl

/-- A lawful program reads the cells that it would read from scratch, each when it is settled, and
ends as with what these show then. -/
theorem exec_tracking (serves : ServesOn P F d refresh) (within : ∀ x, F.covers x → P x) {p q : Program σ}
    (h : p.Alike q) (hg : e.graph.CoherentOn P) (hF : e.graph.sheet.Obeys F)
    (ready : ∀ cell ∈ q.cells F.outcome, Ready F bound e.graph.sheet cell)
    (idle : e.graph.Idle (e.graph.sheet.below F bound)) :
    Yields (bound ≤ d) (p.exec depth refresh e) fun (o, e') => ∃ g,
      e' = ({ e with graph := g } : Engine σ).trackAll (p.cells g.shown) ∧
      e.graph.Refreshed (e.graph.sheet.below F bound) g ∧ g.CoherentOn P ∧
      o = p.result g.shown ∧ ∀ cell ∈ p.cells g.shown, g.sheet.Holds cell ∧ g.Settled cell.node := by
  induction h generalizing e with
  | done h => exact .some ⟨e.graph, rfl, .refl hg.shown_proper, hg, rfl, by simp [Program.cells]⟩
  | @read cell next next' _ ih =>
    simp only [Program.cells, List.mem_cons, forall_eq_or_imp] at ready
    obtain ⟨hready, hrest⟩ := ready
    refine (serves.readCell hg hF hready idle true).bind ?_
    rintro ⟨o, e'⟩ ⟨g, rfl, hr, hg', hset, rfl⟩
    have hsheet := hr.sheet
    have halike := Ready.alike_on (hsheet ▸ hready) within hg' (hsheet ▸ hF) hset
    have hgraph := graph_trackIf { e with graph := g } true cell.node
    have hnext := ih _ _ halike (e := ({ e with graph := g } : Engine σ).trackIf true cell.node)
      (by rwa [hgraph]) (by rwa [hgraph, hsheet]) (by rwa [hgraph, hsheet])
      (by rw [hgraph, hsheet]; exact hr.idle idle)
    rw [hgraph, hsheet] at hnext
    refine hnext.mono id ?_
    rintro ⟨o', e'⟩ ⟨g', rfl, hr', hg'', rfl, hcells⟩
    obtain ⟨hset', hshown⟩ := hr'.of_settled hset
    refine ⟨g', ?_, hr.trans hr', hg'', ?_, ?_⟩
    · rw [Program.cells, hshown, trackAll_cons, track_with_graph]
    · simp only [Program.result, hshown]
    · simp only [Program.cells, hshown, List.mem_cons, forall_eq_or_imp]
      exact ⟨⟨by rw [hr'.sheet, hsheet]; exact hready.holds, hset'⟩, hcells⟩

/-- The reads of a body are recorded. -/
theorem exec (serves : ServesOn P F d refresh) (within : ∀ x, F.covers x → P x) {p q : Program σ}
    (h : p.Alike q) (hg : e.graph.CoherentOn P) (hF : e.graph.sheet.Obeys F)
    (ready : ∀ cell ∈ q.cells F.outcome, Ready F bound e.graph.sheet cell)
    (idle : e.graph.Idle (e.graph.sheet.below F bound)) {seen : List NodeId}
    {rest : List (Option (List NodeId))} (tracking : e.tracking = some seen :: rest) :
    Yields (bound ≤ d) (p.exec depth refresh e) fun (o, e') => ∃ g,
      e' = { e with
        graph := g
        tracking := some (record seen (p.cells g.shown)) :: rest } ∧
      e.graph.Refreshed (e.graph.sheet.below F bound) g ∧ g.CoherentOn P ∧
      o = p.result g.shown ∧ ∀ cell ∈ p.cells g.shown, g.sheet.Holds cell ∧ g.Settled cell.node := by
  refine (serves.exec_tracking depth within h hg hF ready idle).mono (fun h => h) ?_
  rintro ⟨o, _⟩ ⟨g, rfl, hrest⟩
  exact ⟨g, trackAll_collected tracking _, hrest⟩

/-- Runs a computed that is late. -/
theorem runNode (serves : ServesOn P F d refresh) (within : ∀ x, F.covers x → P x)
    (hg : e.graph.CoherentOn P) (hF : e.graph.sheet.Obeys F) {id : NodeId} {n : Node (Program σ)} {body : Program σ}
    {last : Option Outcome} (found : e.graph.node? id = some n)
    (kind : n.kind = .computed body false last) (late : n.freshness ≠ .clean)
    (covered : F.covers id) (idle : e.graph.Idle (e.graph.sheet.below F (F.rank id + 1))) :
    Yields (F.rank id ≤ d) (Engine.runNode depth refresh id e) fun e' => ∃ g,
      e' = { e with graph := g } ∧
        e.graph.Refreshed (e.graph.sheet.below F (F.rank id + 1)) g ∧ g.CoherentOn P ∧
        g.Settled id := by
  have hbody := body?_of_kind found kind
  have hsheet := sheet_begun found kind
  have hbegun := hg.begun found kind late
  have hidle : (e.graph.begun id (.computed body true last)).Idle
      (e.graph.sheet.below F (F.rank id)) := by
    intro x m hx hm
    have hne : x ≠ id := by
      rintro rfl
      exact Nat.lt_irrefl _ hx.2.2
    rw [begun_other hne] at hm
    exact idle (Sheet.below_mono (Nat.le_succ _) x hx) hm
  have hready (cell : Cell) (hc : cell ∈ body.cells F.outcome) :
      Ready F (F.rank id) (e.graph.begun id (.computed body true last)).sheet cell :=
    ⟨hsheet ▸ hF.holds covered hbody cell hc, hF.lower covered hbody cell hc⟩
  have hrun := serves.exec depth within (hg.lawful hbody)
    (e := { e with
      graph := e.graph.begun id (.computed body true last)
      tracking := some [] :: e.tracking })
    hbegun (hsheet ▸ hF) hready (hsheet ▸ hidle) rfl
  obtain ⟨_, freshness, sources, subscribers, owner⟩ := n
  subst kind
  simp only [Engine.runNode, found]
  refine hrun.map ?_
  rintro ⟨o, e'⟩ ⟨g, rfl, hr, hg', rfl, hcells⟩
  obtain ⟨n₂, hn₂, hkept | ⟨-, hup⟩⟩ := hr.find (begun_self found _)
  case inr => exact absurd hup.idle (by simp [Node.isRunning])
  have hwhole := CoherentOn.refreshed_finished found rfl late hr hg'
    (hg'.result_proper (body?_of_kind hn₂ hkept.kind)) (record [] (body.cells g.shown))
  obtain ⟨n', hn', hkind', hclean', -⟩ := finished_self hn₂ hkept.kind (hkept.clean_iff.2 rfl)
    (record [] (body.cells g.shown)) (body.result g.shown)
  refine ⟨g.finished id (record [] (body.cells g.shown)) (body.result g.shown), ?_,
    hwhole.mono ?_, hg'.finished_settled hn₂ hkept.kind hcells, n', hn', ?_⟩
  · rw [storeOutcome_closeRun]
    rfl
  · rintro x (hx | rfl)
    · exact Sheet.below_mono (Nat.le_succ _) x (hsheet ▸ hx)
    · exact ⟨⟨body, hbody⟩, covered, Nat.lt_succ_self _⟩
  · exact (Node.isSettled_computed hkind').2 ⟨rfl, hclean'⟩

/-- Asking one source settles it. -/
theorem ask (serves : ServesOn P F d refresh) (hg : e.graph.CoherentOn P)
    (hF : e.graph.sheet.Obeys F) {cell : Cell} (ready : Ready F bound e.graph.sheet cell)
    (idle : e.graph.Idle (e.graph.sheet.below F bound)) :
    Yields (bound ≤ d)
      (if (e.graph.node? cell.node).any Node.isIdleComputed then refresh cell.node e else some e)
      fun e' => ∃ g, e' = { e with graph := g } ∧
        e.graph.Refreshed (e.graph.sheet.below F bound) g ∧ g.CoherentOn P ∧
          g.Settled cell.node := by
  obtain ⟨kind, x⟩ := cell
  cases kind with
  | signal =>
    obtain ⟨v, hv⟩ := ready.holds
    obtain ⟨n, hn, hkind⟩ := value?_eq_some.1 hv
    have hidle : ((e.graph.node? x).any Node.isIdleComputed) = false := by
      simp [hn, Node.isIdleComputed, hkind]
    rw [if_neg (by simp [hidle])]
    exact .some ⟨e.graph, rfl, .refl hg.shown_proper, hg, n, hn, by simp [Node.isSettled, hkind]⟩
  | computed =>
    obtain ⟨body, hbody⟩ := ready.holds
    obtain ⟨covered, hlower⟩ := ready.lower rfl
    obtain ⟨n, running, last, hn, hkind⟩ := body?_eq_some.1 hbody
    have hwithin := Sheet.below_mono (s := e.graph.sheet) (F := F) (Nat.succ_le_of_lt hlower)
    have hrunning := idle ⟨⟨body, hbody⟩, covered, hlower⟩ hn
    have hidle : ((e.graph.node? x).any Node.isIdleComputed) = true := by
      simp_all [Node.isIdleComputed, Node.isRunning]
    rw [if_pos hidle]
    refine (serves hg hF hbody covered (idle.mono hwithin)).mono (Nat.lt_of_lt_of_le hlower) ?_
    rintro _ ⟨g, rfl, hr, hg', hset⟩
    exact ⟨g, rfl, hr.mono hwithin, hg', hset⟩

/-- Asking the first source of a stale node and then, unless it made the node dirty, the others. -/
theorem askSources_cons (serves : ServesOn P F d refresh) (hg : e.graph.CoherentOn P)
    (hF : e.graph.sheet.Obeys F) (idle : e.graph.Idle (e.graph.sheet.below F bound)) {id : NodeId}
    (far : ¬e.graph.sheet.below F bound id) {n : Node (Program σ)}
    (found : e.graph.node? id = some n) (stale : n.freshness = .stale) {cell : Cell}
    (ready : Ready F bound e.graph.sheet cell) {rest : List NodeId}
    {Q : Graph (Program σ) → Node (Program σ) → Prop}
    (dirty : ∀ g m, m.freshness = .dirty → Q g m)
    (next : ∀ {g : Graph (Program σ)} {m : Node (Program σ)},
      e.graph.Refreshed (e.graph.sheet.below F bound) g → g.CoherentOn P → g.Settled cell.node →
      g.node? id = some m → n.Kept m → m.freshness = .stale →
      Yields (bound ≤ d) (Engine.askSources refresh id rest { e with graph := g }) fun e' => ∃ g',
        e' = { e with graph := g' } ∧ g.Refreshed (g.sheet.below F bound) g' ∧ g'.CoherentOn P ∧
          ∃ k, g'.node? id = some k ∧ m.Kept k ∧ Q g' k) :
    Yields (bound ≤ d) (Engine.askSources refresh id (cell.node :: rest) e) fun e' => ∃ g,
      e' = { e with graph := g } ∧ e.graph.Refreshed (e.graph.sheet.below F bound) g ∧
        g.CoherentOn P ∧ ∃ m, g.node? id = some m ∧ n.Kept m ∧ Q g m := by
  refine (serves.ask hg hF ready idle).bind ?_
  rintro _ ⟨g, rfl, hr, hg', hset⟩
  obtain ⟨m, hm, hkept | ⟨hbelow, -⟩⟩ := hr.find found
  case inr => exact absurd hbelow far
  have hfresh : g.freshness? id = some m.freshness := by simp [freshness?, hm]
  simp only [hfresh, Option.some.injEq]
  split
  next hdirty => exact .some ⟨g, rfl, hr, hg', m, hm, hkept, dirty g m hdirty⟩
  next hdirty =>
    have hstale : m.freshness = .stale :=
      (hkept.freshness.resolve_right fun h => hdirty h.2).trans stale
    refine (next hr hg' hset hm hkept hstale).mono (fun h => h) ?_
    rintro _ ⟨g', rfl, hr', hg'', k, hk, hkept', hend⟩
    exact ⟨g', rfl, hr.trans (hr.sheet ▸ hr'), hg'', k, hk, hkept.trans hkept', hend⟩

end ServesOn

/-- Each source of a stale node is ready by the time it is asked: when the ones before it show what
is forecast. -/
def WalkableOn (P : NodeId → Prop) (F : Forecast) (bound : Nat) (s : Sheet σ) (id : NodeId)
    (sources : List NodeId) : Prop :=
  ∀ {g : Graph (Program σ)} {n : Node (Program σ)} {before after : List NodeId} {x : NodeId},
    g.CoherentOn P → g.sheet = s → g.node? id = some n → n.freshness = .stale →
    n.sources = sources → sources = before ++ x :: after →
    (∀ y ∈ before, (g.shown y).Alike (F.outcome y)) → ∃ cell : Cell, cell.node = x ∧ Ready F bound s cell

namespace ServesOn

/-- Asks the sources of a stale node: it is dirty in the end, or all its sources are settled. -/
theorem askSources (serves : ServesOn P F d refresh) (within : ∀ x, F.covers x → P x)
    (hg : e.graph.CoherentOn P) (hF : e.graph.sheet.Obeys F) (idle : e.graph.Idle (e.graph.sheet.below F bound)) {id : NodeId}
    (far : ¬e.graph.sheet.below F bound id) {n : Node (Program σ)}
    (found : e.graph.node? id = some n) (stale : n.freshness = .stale)
    (walkable : WalkableOn P F bound e.graph.sheet id n.sources) {before rest : List NodeId}
    (sources : n.sources = before ++ rest)
    (asked : ∀ s ∈ before, e.graph.Settled s ∧ (e.graph.shown s).Alike (F.outcome s)) :
    Yields (bound ≤ d) (Engine.askSources refresh id rest e) fun e' => ∃ g,
      e' = { e with graph := g } ∧ e.graph.Refreshed (e.graph.sheet.below F bound) g ∧
        g.CoherentOn P ∧ ∃ m, g.node? id = some m ∧ n.Kept m ∧
          (m.freshness = .dirty ∨ ∀ s ∈ m.sources, g.Settled s) := by
  induction rest generalizing e before n with
  | nil =>
    refine .some ⟨e.graph, rfl, .refl hg.shown_proper, hg, n, found, .refl n, .inr fun s hs => ?_⟩
    exact (asked s (by simpa [sources] using hs)).1
  | cons x rest ih =>
    obtain ⟨cell, rfl, hready⟩ := walkable hg rfl found stale rfl sources fun y hy => (asked y hy).2
    refine serves.askSources_cons hg hF idle far found stale hready (fun _ _ hd => .inl hd)
      fun {g m} hr hg' hset hm hkept hstale => ?_
    have hsheet := hr.sheet
    have hasked (s : NodeId) (hs : s ∈ before ++ [cell.node]) :
        g.Settled s ∧ (g.shown s).Alike (F.outcome s) := by
      rcases List.mem_append.1 hs with hs | hs
      · obtain ⟨hset', hshown⟩ := hr.of_settled (asked s hs).1
        exact ⟨hset', hshown ▸ (asked s hs).2⟩
      · obtain rfl := List.mem_singleton.1 hs
        exact ⟨hset, Ready.alike_on (hsheet ▸ hready) within hg' (hsheet ▸ hF) hset⟩
    exact ih (e := { e with graph := g }) hg' (hsheet ▸ hF) (hsheet ▸ hr.idle idle)
      (hsheet ▸ far) hm hstale (hsheet ▸ hkept.sources ▸ walkable)
      (show m.sources = (before ++ [cell.node]) ++ rest by simp [hkept.sources, sources]) hasked

end ServesOn

/-- The recorded sources of a stale computed can be asked one after the other: as long as they show
what is forecast, the next one is a cell that the body reads from scratch as well. -/
theorem walkable_computed {s : Sheet σ} (within : ∀ x, F.covers x → P x) (hF : s.Obeys F)
    {id : NodeId} {body : Program σ} (found : s.body? id = some body) (covered : F.covers id)
    (sources : List NodeId) : WalkableOn P F (F.rank id) s id sources := by
  rintro g n before after x hg rfl hn hstale rfl hsources halike
  obtain ⟨n', running, last, hn', hkind⟩ := body?_eq_some.1 found
  obtain rfl := Option.some.inj (hn.symm.trans hn')
  have hrunning : running = false :=
    Bool.eq_false_iff.2 fun hr => by
      simp [hg.running hn (by simp [Node.isRunning, hkind, hr])] at hstale
  subst hrunning
  have hcurrent := hg.current (within _ covered) hn hkind (by simp [hstale])
  obtain ⟨cell, hcell, rfl⟩ := (hg.lawful found).next_read _ F.outcome
    (hcurrent.sources.symm.trans hsources) List.nil_prefix halike
  exact ⟨cell, rfl, hF.holds covered found cell hcell, hF.lower covered found cell hcell⟩

/-- One level of nesting over a way of refreshing that serves the ranks below. -/
theorem ServesOn.refreshOver (serves : ServesOn P F d refresh) (within : ∀ x, F.covers x → P x) :
    ServesOn P F (d + 1) (refreshOver depth refresh) := by
  intro e id body hg hF found covered idle
  obtain ⟨n, running, last, hn, hkind⟩ := body?_eq_some.1 found
  have hbelow : e.graph.sheet.below F (F.rank id + 1) id :=
    ⟨⟨body, found⟩, covered, Nat.lt_succ_self _⟩
  obtain rfl : running = false := by simpa [Node.isRunning, hkind] using idle hbelow hn
  have hfresh : e.graph.freshness? id = some n.freshness := by simp [freshness?, hn]
  simp only [Engine.refreshOver, hn]
  cases hcase : n.freshness with
  | clean =>
    simp only [reduceCtorEq, if_false, Option.bind_some, hfresh, hcase]
    exact .some ⟨e.graph, rfl, .refl hg.shown_proper, hg, n, hn,
      (Node.isSettled_computed hkind).2 ⟨rfl, hcase⟩⟩
  | dirty =>
    simp only [reduceCtorEq, if_false, Option.bind_some, hfresh, hcase]
    exact (serves.runNode depth within hg hF hn hkind (by simp [hcase]) covered idle).mono
      Nat.le_of_lt_succ fun _ h => h
  | stale =>
    simp only [if_true]
    have hwithin := Sheet.below_mono (s := e.graph.sheet) (F := F) (Nat.le_succ (F.rank id))
    have hasked := serves.askSources within hg hF (idle.mono hwithin)
      (fun h => Nat.lt_irrefl _ h.2.2) hn hcase (walkable_computed within hF found covered n.sources)
      (show n.sources = [] ++ n.sources from rfl) (by simp)
    refine (hasked.mono Nat.le_of_lt_succ fun _ h => h).bind ?_
    rintro _ ⟨g, rfl, hr, hg', m, hm, hkept, hend⟩
    have hsheet := hr.sheet
    have hfresh' : g.freshness? id = some m.freshness := by simp [freshness?, hm]
    have hkind' := hkept.kind.trans hkind
    simp only [hfresh']
    cases hcase' : m.freshness with
    | clean => simp [hkept.clean_iff.1 hcase'] at hcase
    | dirty =>
      have hran := serves.runNode depth (e := { e with graph := g }) within hg'
        (hsheet ▸ hF) hm hkind' (by simp [hcase']) covered (hsheet ▸ hr.idle idle)
      refine hran.mono Nat.le_of_lt_succ ?_
      rintro _ ⟨g', rfl, hr', hg'', hset⟩
      exact ⟨g', rfl, (hr.mono hwithin).trans (hsheet ▸ hr'), hg'', hset⟩
    | stale =>
      have hsources := hend.resolve_left (by simp [hcase'])
      refine .some ⟨g.setFreshness id .clean, rfl, ?_, hg'.rested hm hcase' fun _ => hsources,
        m.withFreshness .clean, ?_,
        (Node.isSettled_computed (n := m.withFreshness .clean) hkind').2 ⟨rfl, rfl⟩⟩
      · exact (hr.mono hwithin).trans ((hg'.refreshed_rested hm hcase').mono fun x hx => hx ▸ hbelow)
      · rw [node?_setFreshness, if_pos rfl, hm, Option.map_some]

/-- Enough depth serves every rank below it. -/
theorem servesOn_refreshWithin (within : ∀ x, F.covers x → P x) (d : Nat) :
    ServesOn P F d (refreshWithin d : NodeId → Engine σ → Option (Engine σ)) := by
  induction d with
  | zero => exact fun _ _ _ _ _ => .none (Nat.not_lt_zero _)
  | succ d ih => exact ih.refreshOver d within

/-! ## Graphs that are coherent throughout -/

/-- A way of refreshing settles covered computeds, as long as its depth is above their rank. -/
def Serves (F : Forecast) (d : Nat) (refresh : NodeId → Engine σ → Option (Engine σ)) : Prop :=
  ∀ {e : Engine σ} {id : NodeId} {body : Program σ}, e.graph.Coherent → e.graph.sheet.Obeys F →
    e.graph.sheet.body? id = some body → F.covers id →
    e.graph.Idle (e.graph.sheet.below F (F.rank id + 1)) →
    Yields (F.rank id < d) (refresh id e) fun e' => ∃ g, e' = { e with graph := g } ∧
      e.graph.Refreshed (e.graph.sheet.below F (F.rank id + 1)) g ∧ g.Coherent ∧ g.Settled id

theorem Serves.on (serves : Serves F d refresh) : ServesOn (fun _ => True) F d refresh :=
  fun hg hF found covered idle => (serves hg.coherent hF found covered idle).mono (fun h => h)
    fun _ ⟨g, he, hr, hg', hset⟩ => ⟨g, he, hr, hg'.on _, hset⟩

theorem serves_refreshWithin (F : Forecast) (d : Nat) :
    Serves F d (refreshWithin d : NodeId → Engine σ → Option (Engine σ)) :=
  fun hg hF found covered idle =>
    (servesOn_refreshWithin (fun _ _ => trivial) d (hg.on _) hF found covered idle).mono (fun h => h)
      fun _ ⟨g, he, hr, hg', hset⟩ => ⟨g, he, hr, hg'.coherent, hset⟩

theorem Ready.alike {g : Graph (Program σ)} {cell : Cell} (h : Ready F bound g.sheet cell)
    (hg : g.Coherent) (hF : g.sheet.Obeys F) (settled : g.Settled cell.node) :
    (g.shown cell.node).Alike (F.outcome cell.node) :=
  h.alike_on (fun _ _ => trivial) (hg.on _) hF settled

theorem readCell_spec (serves : Serves F d refresh) (hg : e.graph.Coherent)
    (hF : e.graph.sheet.Obeys F) {cell : Cell} (ready : Ready F bound e.graph.sheet cell)
    (idle : e.graph.Idle (e.graph.sheet.below F bound)) (tracked : Bool) :
    Yields (bound ≤ d) (e.readCell refresh cell tracked) fun (o, e') => ∃ g,
      e' = ({ e with graph := g } : Engine σ).trackIf tracked cell.node ∧
        e.graph.Refreshed (e.graph.sheet.below F bound) g ∧ g.Coherent ∧ g.Settled cell.node ∧
        o = g.shown cell.node :=
  (ServesOn.readCell serves.on (hg.on _) hF ready idle tracked).mono (fun h => h)
    fun _ ⟨g, he, hr, hg', h⟩ => ⟨g, he, hr, hg'.coherent, h⟩

/-- Asking the first source of a stale node and then, unless it made the node dirty, the others. -/
theorem askSources_cons (serves : Serves F d refresh) (hg : e.graph.Coherent)
    (hF : e.graph.sheet.Obeys F) (idle : e.graph.Idle (e.graph.sheet.below F bound)) {id : NodeId}
    (far : ¬e.graph.sheet.below F bound id) {n : Node (Program σ)}
    (found : e.graph.node? id = some n) (stale : n.freshness = .stale) {cell : Cell}
    (ready : Ready F bound e.graph.sheet cell) {rest : List NodeId}
    {Q : Graph (Program σ) → Node (Program σ) → Prop}
    (dirty : ∀ g m, m.freshness = .dirty → Q g m)
    (next : ∀ {g : Graph (Program σ)} {m : Node (Program σ)},
      e.graph.Refreshed (e.graph.sheet.below F bound) g → g.Coherent → g.Settled cell.node →
      g.node? id = some m → n.Kept m → m.freshness = .stale →
      Yields (bound ≤ d) (askSources refresh id rest { e with graph := g }) fun e' => ∃ g',
        e' = { e with graph := g' } ∧ g.Refreshed (g.sheet.below F bound) g' ∧ g'.Coherent ∧
          ∃ k, g'.node? id = some k ∧ m.Kept k ∧ Q g' k) :
    Yields (bound ≤ d) (askSources refresh id (cell.node :: rest) e) fun e' => ∃ g,
      e' = { e with graph := g } ∧ e.graph.Refreshed (e.graph.sheet.below F bound) g ∧
        g.Coherent ∧ ∃ m, g.node? id = some m ∧ n.Kept m ∧ Q g m := by
  refine (ServesOn.askSources_cons serves.on (hg.on _) hF idle far found stale ready dirty
    fun hr hg' hset hm hkept hstale => ?_).mono (fun h => h)
    fun _ ⟨g, he, hr, hg', h⟩ => ⟨g, he, hr, hg'.coherent, h⟩
  exact (next hr hg'.coherent hset hm hkept hstale).mono (fun h => h)
    fun _ ⟨g, he, hr, hg', h⟩ => ⟨g, he, hr, hg'.on _, h⟩

/-- Each source of a stale node is ready by the time it is asked: when the ones before it show what
is forecast. -/
def Walkable (F : Forecast) (bound : Nat) (s : Sheet σ) (id : NodeId) (sources : List NodeId) :
    Prop :=
  ∀ {g : Graph (Program σ)} {n : Node (Program σ)} {before after : List NodeId} {x : NodeId},
    g.Coherent → g.sheet = s → g.node? id = some n → n.freshness = .stale → n.sources = sources →
    sources = before ++ x :: after → (∀ y ∈ before, (g.shown y).Alike (F.outcome y)) →
    ∃ cell : Cell, cell.node = x ∧ Ready F bound s cell

/-- Asks the sources of a stale node: it is dirty in the end, or all its sources are settled. -/
theorem askSources_spec (serves : Serves F d refresh) (hg : e.graph.Coherent)
    (hF : e.graph.sheet.Obeys F) (idle : e.graph.Idle (e.graph.sheet.below F bound)) {id : NodeId}
    (far : ¬e.graph.sheet.below F bound id) {n : Node (Program σ)}
    (found : e.graph.node? id = some n) (stale : n.freshness = .stale)
    (walkable : Walkable F bound e.graph.sheet id n.sources) {before rest : List NodeId}
    (sources : n.sources = before ++ rest)
    (asked : ∀ s ∈ before, e.graph.Settled s ∧ (e.graph.shown s).Alike (F.outcome s)) :
    Yields (bound ≤ d) (askSources refresh id rest e) fun e' => ∃ g,
      e' = { e with graph := g } ∧ e.graph.Refreshed (e.graph.sheet.below F bound) g ∧
        g.Coherent ∧ ∃ m, g.node? id = some m ∧ n.Kept m ∧
          (m.freshness = .dirty ∨ ∀ s ∈ m.sources, g.Settled s) :=
  (ServesOn.askSources serves.on (fun _ _ => trivial) (hg.on _) hF idle far found stale
    (fun hg' => walkable hg'.coherent) sources asked).mono (fun h => h)
    fun _ ⟨g, he, hr, hg', h⟩ => ⟨g, he, hr, hg'.coherent, h⟩

end Engine

end LiveTemplate.Reactive
