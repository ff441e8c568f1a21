import LiveTemplate.Proofs.Reactive.Refresh

/-!
# Bystanders of a read

A read of a computed whose evaluation comes back to itself may leave the computeds on its way with
results and sources that are not those of their bodies. Computeds whose evaluation ends are
bystanders: what is remembered of them stays coherent, whatever is read (`Engine.Bears`,
`Engine.bears_refreshWithin`).

When such a one is read on the way, it is brought up to date as always (`Engine.ServesOn`), so what
follows is about the others. Nothing is said about what becomes of these.
-/
namespace LiveTemplate.Reactive

variable {β σ : Type}

namespace Graph

/-- At most results, edges and freshness have changed. -/
structure Stirred (g h : Graph β) : Prop where
  pending : h.pending = g.pending
  skeleton : ∀ x, (h.node? x).map (·.kind.skeleton) = (g.node? x).map (·.kind.skeleton)

def IsCell (g : Graph β) (id : NodeId) : Prop :=
  ∃ n, g.node? id = some n ∧ n.isEffect = false

section Stirred

variable {P : NodeId → Prop} {g h k : Graph β} {id : NodeId}

theorem Stirred.refl (g : Graph β) : g.Stirred g := ⟨rfl, fun _ => rfl⟩

theorem Stirred.trans (hs : g.Stirred h) (hs' : h.Stirred k) : g.Stirred k :=
  ⟨hs'.pending.trans hs.pending, fun x => (hs'.skeleton x).trans (hs.skeleton x)⟩

theorem Refreshed.stirred (hr : g.Refreshed P h) : g.Stirred h :=
  ⟨hr.pending, skeleton_of_refreshed hr⟩

theorem Stirred.find (hs : g.Stirred h) {n : Node β} (hn : g.node? id = some n) :
    ∃ m, h.node? id = some m ∧ m.kind.skeleton = n.kind.skeleton := by
  have hx := hs.skeleton id
  rw [hn, Option.map_some] at hx
  exact Option.map_eq_some_iff.1 hx

theorem Stirred.origin (hs : g.Stirred h) {m : Node β} (hm : h.node? id = some m) :
    ∃ n, g.node? id = some n ∧ m.kind.skeleton = n.kind.skeleton := by
  have hx := (hs.skeleton id).symm
  rw [hm, Option.map_some] at hx
  obtain ⟨n, hn, hk⟩ := Option.map_eq_some_iff.1 hx
  exact ⟨n, hn, hk.symm⟩

theorem Stirred.computed (hs : g.Stirred h) {n : Node β} {body : β} {running : Bool}
    {last : Option Outcome} (hn : g.node? id = some n) (kind : n.kind = .computed body running last) :
    ∃ m last', h.node? id = some m ∧ m.kind = .computed body running last' := by
  obtain ⟨m, hm, hk⟩ := hs.find hn
  rw [kind] at hk
  cases hk' : m.kind <;> simp_all [NodeKind.skeleton]

theorem Stirred.isCell (hs : g.Stirred h) (cell : g.IsCell id) : h.IsCell id := by
  obtain ⟨n, hn, heffect⟩ := cell
  obtain ⟨m, hm, hk⟩ := hs.find hn
  exact ⟨m, hm, (Node.isEffect_of_skeleton hk).trans heffect⟩

theorem Stirred.idle (hs : g.Stirred h) (idle : g.Idle P) : h.Idle P := by
  intro x m hx hm
  obtain ⟨n, hn, hk⟩ := hs.origin hm
  exact (Node.isRunning_of_skeleton hk).trans (idle hx hn)

theorem Stirred.sheet {g h : Graph (Program σ)} (hs : g.Stirred h) : h.sheet = g.sheet :=
  sheet_of_skeleton hs.skeleton

theorem node_of_isIdleComputed (idle : (g.node? id).any Node.isIdleComputed = true) :
    ∃ n body last, g.node? id = some n ∧ n.kind = .computed body false last := by
  cases hn : g.node? id with
  | none => simp [hn] at idle
  | some n =>
    rw [hn, Option.any_some] at idle
    cases hk : n.kind <;> simp_all [Node.isIdleComputed]

theorem stirred_setFreshness (g : Graph β) (id : NodeId) (f : Freshness) :
    g.Stirred (g.setFreshness id f) := by
  refine ⟨rfl, fun x => ?_⟩
  rw [node?_setFreshness]
  split
  · cases g.node? x <;> rfl
  · rfl

end Stirred

/-- The covered computeds are coherent, and none of them is running. -/
structure Sure (F : Forecast) (g : Graph (Program σ)) : Prop where
  coherent : g.CoherentOn F.covers
  obeys : g.sheet.Obeys F
  idle : g.Idle F.covers

section Sure

variable {F : Forecast} {g h : Graph (Program σ)} {id : NodeId} {n : Node (Program σ)}
  {body : Program σ} {last : Option Outcome} {sources : List NodeId} {outcome : Outcome}

theorem Sure.stirred (sure : g.Sure F) (hs : g.Stirred h) (coherent : h.CoherentOn F.covers) :
    h.Sure F :=
  ⟨coherent, hs.sheet ▸ sure.obeys, hs.idle sure.idle⟩

theorem Sure.begun (sure : g.Sure F) (found : g.node? id = some n)
    (kind : n.kind = .computed body false last) (late : n.freshness ≠ .clean)
    (apart : ¬F.covers id) : (g.begun id (.computed body true last)).Sure F := by
  refine ⟨sure.coherent.begun found kind late, sheet_begun found kind ▸ sure.obeys,
    fun {x m} hx hm => ?_⟩
  have hne : x ≠ id := by
    rintro rfl
    exact apart hx
  exact sure.idle hx ((begun_other hne).symm.trans hm)

/-- However the run of a computed that is not covered ends. -/
theorem Sure.finished (sure : g.Sure F) (found : g.node? id = some n)
    (kind : n.kind = .computed body true last) (apart : ¬F.covers id) (proper : outcome.Proper)
    (cells : ∀ s ∈ sources, g.IsCell s) : (g.finished id sources outcome).Sure F := by
  refine ⟨sure.coherent.finished found kind proper cells fun covered => absurd covered apart,
    sheet_finished found kind _ _ ▸ sure.obeys, fun {x m} hx hm => ?_⟩
  have hne : x ≠ id := by
    rintro rfl
    exact apart hx
  obtain ⟨m₀, hm₀, hkept, -⟩ := finished_of_ne sure.coherent.linked found kind hne hm
  exact (Node.isRunning_of_skeleton hkept.skeleton).trans (sure.idle hx hm₀)

/-- A run as a whole. -/
theorem Stirred.finished (found : g.node? id = some n) (kind : n.kind = .computed body false last)
    (hs : (g.begun id (.computed body true last)).Stirred h) (sources : List NodeId)
    (outcome : Outcome) : g.Stirred (h.finished id sources outcome) := by
  obtain ⟨m, last', hm, hkind⟩ := hs.computed (begun_self found _) rfl
  refine ⟨(pending_finished _ _ _ _).trans hs.pending, fun x => ?_⟩
  have hx := kind_finished hm hkind sources outcome x
  by_cases hid : x = id
  · subst hid
    rw [if_pos rfl] at hx
    obtain ⟨k, hk, hkind'⟩ := Option.map_eq_some_iff.1 hx
    simp [hk, hkind', found, kind, NodeKind.skeleton]
  · rw [if_neg hid] at hx
    have hmap := congrArg (Option.map NodeKind.skeleton) hx
    simp only [Option.map_map, Function.comp_def] at hmap
    rw [hmap, hs.skeleton, begun_other hid]

end Sure

end Graph

namespace Engine

open Reactive.Graph

variable {F : Forecast} {refresh : NodeId → Engine σ → Option (Engine σ)} {e e' : Engine σ}
  {o : Outcome}

/-- A way of refreshing lets the covered computeds alone, or brings them up to date as it should. -/
def Bears (F : Forecast) (refresh : NodeId → Engine σ → Option (Engine σ)) : Prop :=
  ∀ {e e' : Engine σ} {id : NodeId} {n : Node (Program σ)} {body : Program σ}
    {last : Option Outcome}, e.graph.Sure F → e.graph.node? id = some n →
    n.kind = .computed body false last → refresh id e = some e' →
    ∃ g, e' = { e with graph := g } ∧ e.graph.Stirred g ∧ g.Sure F

namespace Bears

/-- A read, of any cell. -/
theorem readCell (bears : Bears F refresh) (sure : e.graph.Sure F) {cell : Cell} {tracked : Bool}
    (read : e.readCell refresh cell tracked = some (o, e')) :
    ∃ g, e.graph.Stirred g ∧ g.Sure F ∧ o.Proper ∧
      (e' = ({ e with graph := g } : Engine σ).trackIf tracked cell.node ∧ g.IsCell cell.node ∨
        e' = { e with graph := g }) := by
  unfold Engine.readCell at read
  split at read
  · split at read
    next hn =>
      obtain ⟨rfl, rfl⟩ := Prod.mk.inj (Option.some.inj read)
      exact ⟨e.graph, .refl _, sure, sure.coherent.proper hn, .inl ⟨rfl, _, hn, rfl⟩⟩
    next =>
      obtain ⟨rfl, rfl⟩ := Prod.mk.inj (Option.some.inj read)
      exact ⟨e.graph, .refl _, sure, trivial, .inr rfl⟩
  · split at read
    next =>
      obtain ⟨rfl, rfl⟩ := Prod.mk.inj (Option.some.inj read)
      exact ⟨e.graph, .refl _, sure, trivial, .inr rfl⟩
    next hn =>
      obtain ⟨e₁, hrefresh, he⟩ := Option.map_eq_some_iff.1 read
      obtain ⟨rfl, rfl⟩ := Prod.mk.inj he
      obtain ⟨g, rfl, hs, hg⟩ := bears sure hn rfl hrefresh
      obtain ⟨m, last, hm, hkind⟩ := hs.computed hn rfl
      have hshown : Engine.shownOutcome { e with graph := g } cell.node = g.shown cell.node := by
        obtain ⟨_, _, _, _, _⟩ := m
        subst hkind
        simp only [shownOutcome, hm, shown_eq hm]
        cases last <;> rfl
      refine ⟨g, hs, hg, ?_, .inl ⟨rfl, m, hm, by simp [Node.isEffect, hkind]⟩⟩
      rw [hshown]
      exact hg.coherent.shown_proper _
    next =>
      obtain ⟨rfl, rfl⟩ := Prod.mk.inj (Option.some.inj read)
      exact ⟨e.graph, .refl _, sure, trivial, .inr rfl⟩

/-- A lawful program, whatever it reads. -/
theorem exec (bears : Bears F refresh) {depth : Nat} {p q : Program σ} (h : p.Alike q)
    (sure : e.graph.Sure F) {seen : List NodeId} {rest : List (Option (List NodeId))}
    (tracking : e.tracking = some seen :: rest) (cells : ∀ s ∈ seen, e.graph.IsCell s)
    (run : p.exec depth refresh e = some (o, e')) :
    ∃ g seen', e' = { e with graph := g, tracking := some seen' :: rest } ∧ e.graph.Stirred g ∧
      g.Sure F ∧ o.Proper ∧ ∀ s ∈ seen', g.IsCell s := by
  induction h generalizing e seen with
  | done h =>
    obtain ⟨rfl, rfl⟩ := Prod.mk.inj (Option.some.inj run)
    exact ⟨e.graph, seen, by rw [← tracking], .refl _, sure, h.left, cells⟩
  | @read cell next next' _ ih =>
    obtain ⟨⟨r, e₁⟩, hread, hrest⟩ := Option.bind_eq_some_iff.1 run
    obtain ⟨g, hs, hg, hproper, hcase⟩ := bears.readCell sure hread
    have hcells (s : NodeId) (mem : s ∈ seen) : g.IsCell s := hs.isCell (cells s mem)
    -- the read cell is recorded, or it is not
    obtain ⟨seen₁, htracking, hcells₁⟩ : ∃ seen₁,
        e₁ = { e with graph := g, tracking := some seen₁ :: rest } ∧ ∀ s ∈ seen₁, g.IsCell s := by
      rcases hcase with ⟨rfl, hcell⟩ | rfl
      · refine ⟨enlist cell.node seen, by simp [trackIf, track, tracking], fun s mem => ?_⟩
        rcases mem_enlist.1 mem with rfl | mem
        · exact hcell
        · exact hcells s mem
      · exact ⟨seen, by rw [← tracking], hcells⟩
    subst htracking
    obtain ⟨g', seen', rfl, hs', h⟩ := ih r r (.refl hproper) (e := { e with
      graph := g, tracking := some seen₁ :: rest }) hg rfl hcells₁ hrest
    exact ⟨g', seen', rfl, hs.trans hs', h⟩

/-- A run of a computed that is not covered. -/
theorem runNode (bears : Bears F refresh) {depth : Nat} (sure : e.graph.Sure F) {id : NodeId}
    {n : Node (Program σ)} {body : Program σ} {last : Option Outcome}
    (found : e.graph.node? id = some n) (kind : n.kind = .computed body false last)
    (late : n.freshness ≠ .clean) (apart : ¬F.covers id)
    (run : Engine.runNode depth refresh id e = some e') :
    ∃ g, e' = { e with graph := g } ∧ e.graph.Stirred g ∧ g.Sure F := by
  have hbegun := sure.begun found kind late apart
  have hlawful := sure.coherent.lawful (body?_of_kind found kind)
  obtain ⟨_, freshness, sources, subscribers, owner⟩ := n
  subst kind
  simp only [Engine.runNode, found] at run
  obtain ⟨⟨o, e₁⟩, hexec, rfl⟩ := Option.map_eq_some_iff.1 run
  obtain ⟨g, seen, rfl, hs, hg, hproper, hcells⟩ := bears.exec hlawful
    (e := { e with
      graph := e.graph.begun id (.computed body true last)
      tracking := some [] :: e.tracking })
    hbegun rfl (by simp) hexec
  obtain ⟨m, last', hm, hkind⟩ := hs.computed (begun_self found _) rfl
  refine ⟨g.finished id seen o, ?_, Stirred.finished found rfl hs seen o,
    hg.finished hm hkind apart hproper hcells⟩
  rw [storeOutcome_closeRun]
  rfl

/-- Any sources are asked. -/
theorem askSources (bears : Bears F refresh) {id : NodeId} {sources : List NodeId}
    (sure : e.graph.Sure F) (asked : Engine.askSources refresh id sources e = some e') :
    ∃ g, e' = { e with graph := g } ∧ e.graph.Stirred g ∧ g.Sure F := by
  induction sources generalizing e with
  | nil =>
    obtain rfl := Option.some.inj asked
    exact ⟨e.graph, rfl, .refl _, sure⟩
  | cons source rest ih =>
    obtain ⟨e₁, hfirst, hrest⟩ := Option.bind_eq_some_iff.1 asked
    obtain ⟨g, rfl, hs, hg⟩ : ∃ g, e₁ = { e with graph := g } ∧ e.graph.Stirred g ∧ g.Sure F := by
      split at hfirst
      next hidle =>
        obtain ⟨n, body, last, hn, hkind⟩ := node_of_isIdleComputed hidle
        exact bears sure hn hkind hfirst
      next =>
        obtain rfl := Option.some.inj hfirst
        exact ⟨e.graph, rfl, .refl _, sure⟩
    split at hrest
    · obtain rfl := Option.some.inj hrest
      exact ⟨g, rfl, hs, hg⟩
    · obtain ⟨g', rfl, hs', hg'⟩ := ih (e := { e with graph := g }) hg hrest
      exact ⟨g', rfl, hs.trans hs', hg'⟩

/-- One level of nesting, for a computed that is not covered. -/
theorem refreshOver (bears : Bears F refresh) {depth : Nat} (sure : e.graph.Sure F) {id : NodeId}
    {n : Node (Program σ)} {body : Program σ} {last : Option Outcome}
    (found : e.graph.node? id = some n) (kind : n.kind = .computed body false last)
    (apart : ¬F.covers id) (run : Engine.refreshOver depth refresh id e = some e') :
    ∃ g, e' = { e with graph := g } ∧ e.graph.Stirred g ∧ g.Sure F := by
  obtain ⟨e₁, hasked, hsettled⟩ := Option.bind_eq_some_iff.1 run
  obtain ⟨g, rfl, hs, hg⟩ : ∃ g, e₁ = { e with graph := g } ∧ e.graph.Stirred g ∧ g.Sure F := by
    simp only [found] at hasked
    split at hasked
    · exact bears.askSources sure hasked
    · obtain rfl := Option.some.inj hasked
      exact ⟨e.graph, rfl, .refl _, sure⟩
  obtain ⟨m, last', hm, hkind⟩ := hs.computed found kind
  have hfresh : g.freshness? id = some m.freshness := by simp [freshness?, hm]
  simp only [hfresh] at hsettled
  split at hsettled
  next hdirty =>
    have hlate : m.freshness ≠ .clean := by simp [Option.some.inj hdirty]
    obtain ⟨g', rfl, hs', hg'⟩ := bears.runNode hg hm hkind hlate apart hsettled
    exact ⟨g', rfl, hs.trans hs', hg'⟩
  next hstale =>
    obtain rfl := Option.some.inj hsettled
    have hrest := stirred_setFreshness g id .clean
    exact ⟨_, rfl, hs.trans hrest, hg.stirred hrest
      (hg.coherent.rested hm (Option.some.inj hstale) fun covered => absurd covered apart)⟩
  next =>
    obtain rfl := Option.some.inj hsettled
    exact ⟨g, rfl, hs, hg⟩

end Bears

/-- What is refreshed is covered, and then it is brought up to date, or it is not. -/
theorem bears_refreshWithin (F : Forecast) (depth : Nat) :
    Bears F (refreshWithin depth : NodeId → Engine σ → Option (Engine σ)) := by
  induction depth with
  | zero => exact fun _ _ _ => nofun
  | succ depth ih =>
    intro e e' id n body last sure found kind run
    by_cases covered : F.covers id
    · obtain ⟨g, rfl, hr, hg, -⟩ := (servesOn_refreshWithin (fun _ h => h) (depth + 1)
        sure.coherent sure.obeys (body?_of_kind found kind) covered
        (Idle.mono sure.idle fun x hx => hx.2.1)).1 e' run
      exact ⟨g, rfl, hr.stirred, sure.stirred hr.stirred hg⟩
    · exact ih.refreshOver sure found kind covered run

end Engine

end LiveTemplate.Reactive
