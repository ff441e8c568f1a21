import LiveTemplate.Proofs.Reactive.Watching

/-!
# Running effects

An effect is not a cell: nothing reads it, and coherence says little of it. So a graph that differs
from a coherent one in its effects only is coherent too (`Graph.Coherent.of_memory`), and bringing an
effect up to date is for the other nodes like bringing up to date the computeds that it reads.
-/
namespace LiveTemplate.Reactive

variable {β σ : Type}

/-- What a signal or a computed is and remembers; an effect counts as absent. -/
def Node.memory? (n : Node β) : Option (NodeKind β × Freshness × List NodeId) :=
  if n.isEffect then none else some (n.kind, n.freshness, n.sources)

theorem Node.memory?_effect {n : Node β} (h : n.isEffect = true) : n.memory? = none := by
  simp [memory?, h]

theorem Node.memory?_congr {n m : Node β} (kind : m.kind = n.kind)
    (freshness : m.freshness = n.freshness) (sources : m.sources = n.sources) :
    m.memory? = n.memory? := by
  cases n
  cases m
  subst kind freshness sources
  rfl

theorem Node.memory?_eq_some {n : Node β} {k : NodeKind β} {f : Freshness} {s : List NodeId} :
    n.memory? = some (k, f, s) ↔
      n.isEffect = false ∧ n.kind = k ∧ n.freshness = f ∧ n.sources = s := by
  cases h : n.isEffect <;> simp [memory?, h]

namespace Graph

/-- The graphs differ in their effects and in subscribers only. -/
def SameCells (g h : Graph β) : Prop :=
  ∀ x, (h.node? x).bind Node.memory? = (g.node? x).bind Node.memory?

variable {g h k : Graph β}

theorem SameCells.symm (hs : g.SameCells h) : h.SameCells g := fun x => (hs x).symm

theorem SameCells.trans (hs : g.SameCells h) (hs' : h.SameCells k) : g.SameCells k :=
  fun x => (hs' x).trans (hs x)

theorem SameCells.find (hs : g.SameCells h) {x : NodeId} {m : Node β} (hm : h.node? x = some m)
    (cell : m.isEffect = false) :
    ∃ n, g.node? x = some n ∧ n.kind = m.kind ∧ n.freshness = m.freshness ∧
      n.sources = m.sources := by
  have hx := hs x
  have hmem : m.memory? = some (m.kind, m.freshness, m.sources) :=
    Node.memory?_eq_some.2 ⟨cell, rfl, rfl, rfl⟩
  rw [hm, Option.bind_some, hmem] at hx
  obtain ⟨n, hn, hmemory⟩ := Option.bind_eq_some_iff.1 hx.symm
  exact ⟨n, hn, (Node.memory?_eq_some.1 hmemory).2⟩

theorem SameCells.settled (hs : g.SameCells h) {x : NodeId} (settled : g.Settled x) :
    h.Settled x := by
  obtain ⟨n, hn, hset⟩ := settled
  obtain ⟨m, hm, hk, hf, -⟩ := hs.symm.find hn (Node.isEffect_of_isSettled hset)
  exact ⟨m, hm, (Node.isSettled_congr hk hf).trans hset⟩

theorem SameCells.shown (hs : g.SameCells h) : h.shown = g.shown := by
  funext x
  -- an effect shows what a node that is gone shows
  have blank {g h : Graph β} (hs : g.SameCells h) (hx : ∀ n, g.node? x = some n → n.isEffect = true)
      : g.shown x = h.shown x := by
    have hleft : g.shown x = .error (.reactive (.disposed .computed)) := by
      cases hg : g.node? x with
      | none => simp [Graph.shown, hg]
      | some n =>
        have := hx n hg
        rw [shown_eq hg]
        cases hk : n.kind <;> simp_all [Node.isEffect, NodeKind.shown]
    have hright : h.shown x = .error (.reactive (.disposed .computed)) := by
      cases hh : h.node? x with
      | none => simp [Graph.shown, hh]
      | some m =>
        rw [shown_eq hh]
        cases heffect : m.isEffect with
        | true => cases hk : m.kind <;> simp_all [Node.isEffect, NodeKind.shown]
        | false =>
          obtain ⟨n, hn, hk, -⟩ := hs.find hh heffect
          have := hx n hn
          rw [Node.isEffect, hk, ← Node.isEffect, heffect] at this
          cases this
    rw [hleft, hright]
  by_cases hx : ∀ n, g.node? x = some n → n.isEffect = true
  · exact (blank hs hx).symm
  · simp only [not_forall, Bool.not_eq_true] at hx
    obtain ⟨n, hn, heffect⟩ := hx
    obtain ⟨m, hm, hk, -⟩ := hs.symm.find hn heffect
    rw [shown_eq hn, shown_eq hm, hk]

theorem SameCells.sheet {g h : Graph (Program σ)} (hs : g.SameCells h) : h.sheet = g.sheet := by
  have through {α : Type} (f : NodeKind (Program σ) → Option α)
      (hf : ∀ body running, f (.effect body running) = none) (x : NodeId) :
      (h.node? x).bind (fun n => f n.kind) = (g.node? x).bind (fun n => f n.kind) := by
    have reduce (n : Node (Program σ)) : f n.kind = n.memory?.bind fun m => f m.1 := by
      cases hk : n.kind <;> simp [Node.memory?, Node.isEffect, hk, hf]
    simp only [reduce]
    rw [← Option.bind_assoc, ← Option.bind_assoc, hs x]
  exact sheet_congr (through _ fun _ _ => rfl) (through _ fun _ _ => rfl)

/-- Effects may change as long as they have live cells for sources and are not marked in a run. -/
theorem Coherent.of_memory {g h : Graph (Program σ)} (hg : g.Coherent) (linked : h.Linked)
    (same : g.SameCells h)
    (effects : ∀ {x : NodeId} {m : Node (Program σ)}, h.node? x = some m → m.isEffect = true →
      (m.isRunning = true → m.freshness = .clean) ∧
      ∀ s ∈ m.sources, ∃ t, g.node? s = some t ∧ t.isEffect = false) : h.Coherent := by
  have cell {s : NodeId} (hs : ∃ t, g.node? s = some t ∧ t.isEffect = false) :
      ∃ t, h.node? s = some t ∧ t.isEffect = false := by
    obtain ⟨t, ht, heffect⟩ := hs
    obtain ⟨t', ht', hk, -⟩ := same.symm.find ht heffect
    exact ⟨t', ht', by rwa [Node.isEffect, hk]⟩
  have computed {m : Node (Program σ)} {body : Program σ} {running : Bool} {last : Option Outcome}
      (hk : m.kind = .computed body running last) : m.isEffect = false := by
    simp [Node.isEffect, hk]
  constructor
  · exact linked
  · intro x m hm
    rw [← shown_eq hm, same.shown]
    exact hg.shown_proper x
  · intro x body hbody
    exact hg.lawful (same.sheet ▸ hbody)
  · intro x s m hm hs
    cases heffect : m.isEffect with
    | true => exact cell ((effects hm heffect).2 s hs)
    | false =>
      obtain ⟨n, hn, -, -, hsources⟩ := same.find hm heffect
      exact cell (hg.cells hn (hsources ▸ hs))
  · intro x m hm hr
    cases heffect : m.isEffect with
    | true => exact (effects hm heffect).1 hr
    | false =>
      obtain ⟨n, hn, hk, hf, -⟩ := same.find hm heffect
      rw [← hf]
      exact hg.running hn (by rwa [Node.isRunning, hk])
  · intro x m body last hm hk hf
    obtain ⟨n, hn, hk', hf', hsources⟩ := same.find hm (computed hk)
    exact (hg.current hn (hk'.trans hk) (hf' ▸ hf)).congr same.shown same.sheet (by rw [hk'])
      hsources.symm
  · intro x m body last hm hk hf s hs
    obtain ⟨n, hn, hk', hf', hsources⟩ := same.find hm (computed hk)
    exact same.settled (hg.settled hn (hk'.trans hk) (hf'.trans hf) s (hsources ▸ hs))

/-- Coherence is about the nodes: the scopes and the queue do not matter. -/
theorem Coherent.congr {g h : Graph (Program σ)} (hg : g.Coherent)
    (same : ∀ x, h.node? x = g.node? x) : h.Coherent := by
  refine hg.of_memory (hg.linked.congr fun x => by rw [same]) (fun x => by rw [same])
    fun {x m} hm _ => ?_
  rw [same] at hm
  exact ⟨hg.running hm, fun s hmem => hg.cells hm hmem⟩

/-! ## A run -/

def effectFinished (g : Graph β) (id : NodeId) (sources : List NodeId) : Graph β :=
  (g.relink id sources).modifyNode id fun n =>
    match n.kind with
    | .effect body _ => { n with kind := .effect body false }
    | _ => n

section Run

variable {g h : Graph (Program σ)} {id : NodeId} {n : Node (Program σ)} {body : Program σ}
  {running : Bool} {sources : List NodeId}

theorem sameCells_begun (found : g.node? id = some n) (kind : n.kind = .effect body running) :
    g.SameCells (g.begun id (.effect body true)) := by
  intro x
  by_cases hx : x = id
  · subst hx
    rw [begun_self found, found]
    simp [Node.memory?, Node.isEffect, kind]
  · rw [begun_other hx]

/-- The run of an effect is not one of a computed. -/
theorem idle_begun_effect (found : g.node? id = some n) (kind : n.kind = .effect body running)
    (idle : g.Idle g.sheet.Computes) : (g.begun id (.effect body true)).Idle g.sheet.Computes := by
  rintro x m ⟨body', hbody⟩ hm
  have hne : x ≠ id := by
    rintro rfl
    simp [sheet, found, kind, NodeKind.formula?] at hbody
  rw [begun_other hne] at hm
  exact idle ⟨body', hbody⟩ hm

theorem Coherent.begun_effect (hg : g.Coherent) (found : g.node? id = some n)
    (kind : n.kind = .effect body running) : (g.begun id (.effect body true)).Coherent := by
  refine hg.of_memory (hg.linked.modifyNode id fun _ => rfl) (sameCells_begun found kind)
    fun {x m} hm heffect => ?_
  by_cases hx : x = id
  · subst hx
    obtain rfl := Option.some.inj ((begun_self found _).symm.trans hm)
    exact ⟨fun _ => rfl, fun s hs => hg.cells found hs⟩
  · rw [begun_other hx] at hm
    exact ⟨hg.running hm, fun s hs => hg.cells hm hs⟩

theorem effectFinished_self (found : g.node? id = some n) (kind : n.kind = .effect body running)
    (live : ∀ s ∈ sources, (g.node? s).isSome) :
    ∃ m, (g.effectFinished id sources).node? id = some m ∧ m.kind = .effect body false ∧
      m.freshness = n.freshness ∧ m.sources = sources := by
  have hrelink := node?_relink found sources id
  rw [found, Option.map_some, List.filter_eq_self.2 live] at hrelink
  refine ⟨{ relinked id n.sources sources sources id n with kind := .effect body false }, ?_, rfl,
    rfl, by simp [relinked]⟩
  rw [effectFinished, node?_modifyNode_self, hrelink, Option.map_some]
  simp only [relinked, kind]

theorem effectFinished_other (found : g.node? id = some n) (sources : List NodeId) {x : NodeId}
    {m : Node (Program σ)}
    (other : x ≠ id) (hm : g.node? x = some m) :
    ∃ m', (g.effectFinished id sources).node? x = some m' ∧ m'.kind = m.kind ∧
      m'.freshness = m.freshness ∧ m'.sources = m.sources := by
  refine ⟨relinked id n.sources sources (sources.filter fun s => (g.node? s).isSome) x m, ?_, rfl,
    rfl, by simp [relinked, other]⟩
  rw [effectFinished, node?_modifyNode_of_ne _ _ other, node?_relink found, hm, Option.map_some]

theorem isSome_effectFinished (found : g.node? id = some n) (sources : List NodeId) (x : NodeId) :
    ((g.effectFinished id sources).node? x).isSome = (g.node? x).isSome := by
  rw [effectFinished, node?_modifyNode]
  split <;> simp [node?_relink found]

theorem pending_effectFinished (g : Graph β) (id : NodeId) (sources : List NodeId) :
    (g.effectFinished id sources).pending = g.pending := by
  rw [effectFinished, pending_modifyNode, pending_relink]

theorem effectFinished_of_ne (found : g.node? id = some n) {x : NodeId} {m : Node (Program σ)}
    (other : x ≠ id) (hm : (g.effectFinished id sources).node? x = some m) :
    ∃ m₀, g.node? x = some m₀ ∧ m.kind = m₀.kind ∧ m.freshness = m₀.freshness ∧
      m.sources = m₀.sources := by
  have hlive := (isSome_effectFinished found sources x).symm.trans (by rw [hm])
  obtain ⟨m₀, hm₀⟩ := Option.isSome_iff_exists.1 hlive
  obtain ⟨m', hm', hsame⟩ := effectFinished_other found sources other hm₀
  obtain rfl := Option.some.inj (hm.symm.trans hm')
  exact ⟨m₀, hm₀, hsame⟩

theorem sameCells_effectFinished (found : g.node? id = some n)
    (kind : n.kind = .effect body running) (live : ∀ s ∈ sources, (g.node? s).isSome) :
    g.SameCells (g.effectFinished id sources) := by
  intro x
  by_cases hx : x = id
  · subst hx
    obtain ⟨m, hm, hk, -⟩ := effectFinished_self found kind live
    simp [hm, found, Node.memory?, Node.isEffect, hk, kind]
  · cases hg : g.node? x with
    | none =>
      have hlive := isSome_effectFinished found sources x
      simp_all
    | some m =>
      obtain ⟨m', hm', hk, hf, hs⟩ := effectFinished_other found sources hx hg
      rw [hm', Option.bind_some, Option.bind_some, Node.memory?_congr hk hf hs]

theorem Coherent.effectFinished (hg : g.Coherent) (found : g.node? id = some n)
    (kind : n.kind = .effect body running)
    (cells : ∀ s ∈ sources, ∃ t, g.node? s = some t ∧ t.isEffect = false) :
    (g.effectFinished id sources).Coherent := by
  have live (s : NodeId) (hs : s ∈ sources) : (g.node? s).isSome := by
    obtain ⟨t, ht, -⟩ := cells s hs
    simp [ht]
  refine hg.of_memory ?_ (sameCells_effectFinished found kind live) fun {x m} hm heffect => ?_
  · refine (hg.linked.relink found sources).modifyNode id fun n => ?_
    cases hk : n.kind <;> simp [ends]
  · by_cases hx : x = id
    · subst hx
      obtain ⟨m', hm', hk, -, hs⟩ := effectFinished_self found kind live
      obtain rfl := Option.some.inj (hm.symm.trans hm')
      exact ⟨fun hr => by simp [Node.isRunning, hk] at hr, fun s hmem => cells s (hs ▸ hmem)⟩
    · obtain ⟨m₀, hm₀, hk, hf, hs⟩ := effectFinished_of_ne found hx hm
      refine ⟨fun hr => ?_, fun s hmem => hg.cells hm₀ (hs ▸ hmem)⟩
      exact hf.trans (hg.running hm₀ (by rwa [Node.isRunning, ← hk]))

/-- The whole run of an effect, seen from the graph before it. -/
theorem Coherent.refreshed_effect {P : NodeId → Prop} (found : g.node? id = some n)
    (kind : n.kind = .effect body false) (late : n.freshness ≠ .clean)
    (hr : (g.begun id (.effect body true)).Refreshed P h)
    (live : ∀ s ∈ sources, (h.node? s).isSome) :
    g.Refreshed (fun x => P x ∨ x = id) (h.effectFinished id sources) ∧
      ∃ n₂ m, h.node? id = some n₂ ∧ n₂.kind = .effect body true ∧
        (h.effectFinished id sources).node? id = some m ∧ m.kind = .effect body false ∧
        m.freshness = .clean ∧ m.sources = sources := by
  obtain ⟨n₂, hn₂, hkept | ⟨-, hup⟩⟩ := hr.find (begun_self found _)
  case inr => exact absurd hup.idle (by simp [Node.isRunning])
  have hclean₂ : n₂.freshness = .clean := hkept.clean_iff.2 rfl
  obtain ⟨m, hm, hk, hf, hs⟩ := effectFinished_self hn₂ hkept.kind live
  refine ⟨⟨?_, fun x => ?_, fun {x m₁ m₃} hm₁ hm₃ => ?_,
    fun {x m₁ m₃} hm₁ hm₃ hstale hstale' s hs => ?_, fun {x m₁ m₃} hm₁ hm₃ hstale hdirty => ?_⟩,
    n₂, m, hn₂, hkept.kind, hm, hk, hf.trans hclean₂, hs⟩
  · exact (pending_effectFinished _ _ _).trans hr.pending
  · rw [isSome_effectFinished hn₂ sources, hr.live, node?_begun]
    split <;> simp
  · by_cases hx : x = id
    · subst hx
      obtain rfl := Option.some.inj (found.symm.trans hm₁)
      obtain rfl := Option.some.inj (hm.symm.trans hm₃)
      exact .inr ⟨.inr rfl, by rw [hk, kind], by simp [Node.isRunning, kind], late,
        hf.trans hclean₂⟩
    · obtain ⟨m₂, hm₂, hk₂, hf₂, hs₂⟩ := effectFinished_of_ne hn₂ hx hm₃
      rcases hr.each ((begun_other hx).trans hm₁) hm₂ with hkept₁ | ⟨hp, hup⟩
      · exact .inl ⟨hk₂.trans hkept₁.kind, hs₂.trans hkept₁.sources, hf₂ ▸ hkept₁.freshness⟩
      · exact .inr ⟨.inl hp, by rw [hk₂, hup.skeleton], hup.idle, hup.late, hf₂.trans hup.clean⟩
  · by_cases hx : x = id
    · subst hx
      obtain rfl := Option.some.inj (hm.symm.trans hm₃)
      simp [hf, hclean₂] at hstale'
    · obtain ⟨m₂, hm₂, -, hf₂, -⟩ := effectFinished_of_ne hn₂ hx hm₃
      have hfirst := hr.steady ((begun_other hx).trans hm₁) hm₂ hstale (hf₂ ▸ hstale') s hs
      rwa [(sameCells_begun found kind).shown,
        ← (sameCells_effectFinished hn₂ hkept.kind live).shown] at hfirst
  · have hx : x ≠ id := by
      rintro rfl
      obtain rfl := Option.some.inj (hm.symm.trans hm₃)
      simp [hf, hclean₂] at hdirty
    obtain ⟨m₂, hm₂, -, hf₂, -⟩ := effectFinished_of_ne hn₂ hx hm₃
    obtain ⟨s, hs, news⟩ := hr.roused ((begun_other hx).trans hm₁) hm₂ hstale (hf₂ ▸ hdirty)
    have hsame := sameCells_effectFinished hn₂ hkept.kind live
    obtain ⟨t, b, running, last, ht, hkind, hdiffers⟩ := news.differs
    have hsid : s ≠ id := by
      rintro rfl
      obtain rfl := Option.some.inj ((begun_self found _).symm.trans ht)
      cases hkind
    exact ⟨s, hs, fun settled => news.late ((sameCells_begun found kind).settled settled),
      hsame.settled news.settled, t, b, running, last, (begun_other hsid).symm.trans ht, hkind,
      hsame.shown ▸ hdiffers⟩

end Run

end Graph

theorem Graph.SameCells.fresh {g h : Graph (Program σ)} (hs : g.SameCells h) {r : Reading}
    (hf : g.Fresh r) : h.Fresh r := by
  rw [Graph.Fresh, hs.sheet, hs.shown]
  exact hf.imp_left fun seen => ⟨seen.1, hs.settled seen.2.1, seen.2.2⟩

namespace Engine

open Reactive.Graph

theorem restEffect_closeRun (e : Engine σ) (id : NodeId) :
    (e.closeRun id).restEffect id =
      { e with
        graph := e.graph.effectFinished id e.collected
        tracking := e.tracking.drop 1 } := by
  simp only [closeRun, popFrame, restEffect, Graph.effectFinished]
  congr 2
  funext n
  cases n.kind <;> rfl

variable {F : Forecast} {depth d : Nat} {mode : Bool → Prop} {label : Nat} {p : Program Journal}
  {refresh : NodeId → Engine Journal → Option (Engine Journal)} {e e' : Engine Journal} {id : NodeId}
  {n : Node (Program Journal)}

/-- What a run of an effect leaves: a sighting that is fresh, and the live cells of it for sources. -/
structure Saw (mode : Bool → Prop) (id : NodeId) (readings : List Reading)
    (g : Graph (Program Journal)) : Prop where
  fresh : ∀ r ∈ readings, g.Fresh r
  sources : ∀ {m : Node (Program Journal)}, g.node? id = some m → ∀ s ∈ m.sources,
    ∃ r ∈ readings, r.cell.node = s ∧ g.sheet.Holds r.cell
  recorded : (∀ t, mode t → t = true) → ∀ r ∈ readings, g.sheet.Holds r.cell →
    ∀ {m : Node (Program Journal)}, g.node? id = some m → r.cell.node ∈ m.sources

/-- What is left when an effect did not have to run: if it was late, then its sources are settled
and show what they showed. -/
structure Passed (id : NodeId) (g h : Graph (Program Journal)) : Prop where
  sources : ∀ {n m : Node (Program Journal)}, g.node? id = some n → h.node? id = some m →
    m.sources = n.sources
  same : ∀ {n : Node (Program Journal)}, g.node? id = some n → n.freshness = .clean → h = g
  steady : ∀ {n : Node (Program Journal)}, g.node? id = some n → n.freshness ≠ .clean →
    n.freshness = .stale ∧ ∀ s ∈ n.sources, h.Settled s ∧ (g.shown s).Alike (h.shown s)

/-- An effect was brought up to date. -/
structure Attended (mode : Bool → Prop) (id : NodeId) (label : Nat) (e e' : Engine Journal) :
    Prop where
  frame : e' = { e with graph := e'.graph, host := e'.host }
  refreshed : e.graph.Refreshed (fun x => e.graph.sheet.Computes x ∨ x = id) e'.graph
  coherent : e'.graph.Coherent
  clean : ∀ {m : Node (Program Journal)}, e'.graph.node? id = some m → m.freshness = .clean
  ending : e'.host = e.host ∧ Passed id e.graph e'.graph ∨
    ∃ readings, e'.host = e.host ++ [⟨label, readings⟩] ∧ Saw mode id readings e'.graph

theorem runNode_effect (serves : Serves F d refresh) (covers : ∀ x, F.covers x)
    (reads : p.Reads mode) (hg : e.graph.Coherent) (hF : e.graph.sheet.Obeys F)
    (idle : e.graph.Idle e.graph.sheet.Computes) (found : e.graph.node? id = some n)
    (kind : n.kind = .effect (p.watched label []) false) (late : n.freshness ≠ .clean)
    (ran : runNode depth refresh id e = some e') :
    (∃ readings, e'.host = e.host ++ [⟨label, readings⟩] ∧ Saw mode id readings e'.graph) ∧
      e' = { e with graph := e'.graph, host := e'.host } ∧
      e.graph.Refreshed (fun x => e.graph.sheet.Computes x ∨ x = id) e'.graph ∧
      e'.graph.Coherent ∧
      ∀ {m : Node (Program Journal)}, e'.graph.node? id = some m → m.freshness = .clean := by
  have hsheet := (sameCells_begun found kind).sheet
  have hidle : (e.graph.begun id (.effect (p.watched label []) true)).Idle e.graph.sheet.Computes :=
    idle_begun_effect found kind idle
  obtain ⟨_, freshness, sources, subscribers, owner⟩ := n
  subst kind
  simp only [runNode, found, Option.map_eq_some_iff] at ran
  obtain ⟨⟨o, e₂⟩, hexec, rfl⟩ := ran
  obtain ⟨g, readings, sources', rfl, hr, hg', hfresh, hlive, -, hall⟩ :=
    exec_watched (e := { e with
      graph := e.graph.begun id (.effect (p.watched label []) true)
      tracking := some [] :: e.tracking }) serves covers reads (hg.begun_effect found rfl)
      (hsheet ▸ hF) (hsheet ▸ hidle) rfl hexec
  have hcells (s : NodeId) (hs : s ∈ sources') : ∃ t, g.node? s = some t ∧ t.isEffect = false := by
    obtain ⟨r, -, rfl, holds⟩ := (hlive s hs).resolve_left (by simp)
    exact node_of_holds holds
  have hsome (s : NodeId) (hs : s ∈ sources') : (g.node? s).isSome := by
    obtain ⟨t, ht, -⟩ := hcells s hs
    simp [ht]
  obtain ⟨hwhole, n₂, m, hn₂, hk₂, hm, hk, hclean, hsources⟩ :=
    Coherent.refreshed_effect found rfl late hr hsome
  have hsame := sameCells_effectFinished hn₂ hk₂ hsome
  have hgraph : (({ e with
      graph := g
      tracking := some sources' :: e.tracking
      host := e.host ++ [⟨label, readings⟩] } : Engine Journal).closeRun id).restEffect id =
        { e with graph := g.effectFinished id sources', host := e.host ++ [⟨label, readings⟩] } :=
    restEffect_closeRun _ _
  simp only [List.nil_append] at hgraph ⊢
  rw [hgraph]
  refine ⟨⟨readings, rfl, fun r hr => hsame.fresh (hfresh r hr), fun hm' s hs => ?_,
    fun hmode r hr holds m' hm' => ?_⟩, rfl, hwhole.mono fun x hx => ?_,
    hg'.effectFinished hn₂ hk₂ hcells, fun hm' => ?_⟩
  · obtain rfl := Option.some.inj (hm.symm.trans hm')
    rw [hsources] at hs
    obtain ⟨r, hr, hnode, holds⟩ := (hlive s hs).resolve_left (by simp)
    exact ⟨r, hr, hnode, hsame.sheet ▸ holds⟩
  · obtain rfl := Option.some.inj (hm.symm.trans hm')
    rw [hsources]
    exact hall hmode r hr (hsame.sheet ▸ holds)
  · rwa [← hsheet]
  · obtain rfl := Option.some.inj (hm.symm.trans hm')
    exact hclean

theorem exists_bound {α : Type} (f : α → Nat) (xs : List α) : ∃ bound, ∀ x ∈ xs, f x < bound := by
  induction xs with
  | nil => exact ⟨0, by simp⟩
  | cons x xs ih =>
    obtain ⟨bound, h⟩ := ih
    refine ⟨f x + bound + 1, fun y hy => ?_⟩
    rcases List.mem_cons.1 hy with rfl | hy
    · omega
    · have := h y hy
      omega

/-- The sources of an effect can be asked in any order, since the forecast covers every computed. -/
theorem walkable_effect (covers : ∀ x, F.covers x) {bound : Nat} {s : Sheet Journal} {id : NodeId}
    {sources : List NodeId} (lower : ∀ x ∈ sources, F.rank x < bound) :
    Walkable F bound s id sources := by
  rintro g n before after x hg rfl hn - rfl hsources -
  have hx : x ∈ n.sources := by simp [hsources]
  obtain ⟨m, hm, heffect⟩ := hg.cells hn hx
  cases hk : m.kind with
  | signal v => exact ⟨⟨.signal, x⟩, rfl, ⟨v, value?_eq_some.2 ⟨m, hm, hk⟩⟩, nofun⟩
  | computed body running last =>
    exact ⟨⟨.computed, x⟩, rfl, ⟨body, body?_of_kind hm hk⟩, fun _ => ⟨covers x, lower x hx⟩⟩
  | effect body running => simp [Node.isEffect, hk] at heffect

/-- A stale effect need not run if its sources, once up to date, did not make it dirty. -/
theorem attended_rested (found : e.graph.node? id = some n) (stale : n.freshness = .stale)
    {g : Graph (Program Journal)} (hr : e.graph.Refreshed e.graph.sheet.Computes g) (hg : g.Coherent)
    {m : Node (Program Journal)} (hm : g.node? id = some m) (kept : n.Kept m)
    (stale' : m.freshness = .stale) (settled : ∀ s ∈ m.sources, g.Settled s) :
    Attended mode id label e { e with graph := g.setFreshness id .clean } := by
  have hrest := (hg.on fun _ => True).refreshed_rested hm stale'
  have hself : (g.setFreshness id .clean).node? id = some (m.withFreshness .clean) := by
    rw [node?_setFreshness, if_pos rfl, hm, Option.map_some]
  refine ⟨rfl, (hr.mono fun x hx => .inl hx).trans (hrest.mono fun x hx => .inr hx),
    ((hg.on _).rested hm stale' fun _ => settled).coherent, fun hm' => ?_, .inl ⟨rfl, fun hn hm' => ?_,
    fun hn hclean => ?_, fun hn _ => ?_⟩⟩
  · obtain rfl := Option.some.inj (hself.symm.trans hm')
    rfl
  · obtain rfl := Option.some.inj (hself.symm.trans hm')
    obtain rfl := Option.some.inj (found.symm.trans hn)
    exact kept.sources
  · obtain rfl := Option.some.inj (found.symm.trans hn)
    simp [stale] at hclean
  · obtain rfl := Option.some.inj (found.symm.trans hn)
    refine ⟨stale, fun s hs => ?_⟩
    obtain ⟨hset, hshown⟩ := hrest.of_settled (settled s (kept.sources ▸ hs))
    exact ⟨hset, hshown ▸ hr.steady found hm stale stale' s hs⟩

/-- Brings an effect up to date: it runs, or what it read is as it was. -/
theorem refresh_effect (serves : Serves F d refresh) (covers : ∀ x, F.covers x)
    (reads : p.Reads mode) (hg : e.graph.Coherent) (hF : e.graph.sheet.Obeys F)
    (idle : e.graph.Idle e.graph.sheet.Computes) (found : e.graph.node? id = some n)
    (kind : n.kind = .effect (p.watched label []) false)
    (refreshed : refreshOver depth refresh id e = some e') : Attended mode id label e e' := by
  have hfresh : e.graph.freshness? id = some n.freshness := by simp [freshness?, found]
  simp only [refreshOver, found] at refreshed
  cases hcase : n.freshness with
  | clean =>
    simp only [hcase, reduceCtorEq, if_false, Option.bind_some, hfresh, Option.some.injEq]
      at refreshed
    subst refreshed
    refine ⟨rfl, .refl hg.shown_proper, hg, fun hm => ?_, .inl ⟨rfl, fun hn hm => ?_, fun _ _ => rfl,
      fun hn hlate => ?_⟩⟩
    · obtain rfl := Option.some.inj (found.symm.trans hm)
      exact hcase
    · rw [Option.some.inj (hn.symm.trans hm)]
    · obtain rfl := Option.some.inj (found.symm.trans hn)
      exact absurd hcase hlate
  | dirty =>
    simp only [hcase, reduceCtorEq, if_false, Option.bind_some, hfresh] at refreshed
    obtain ⟨hran, hframe, hr, hg', hclean⟩ :=
      runNode_effect serves covers reads hg hF idle found kind (by simp [hcase]) refreshed
    exact ⟨hframe, hr, hg', hclean, .inr hran⟩
  | stale =>
    simp only [hcase, if_true, Option.bind_eq_some_iff] at refreshed
    obtain ⟨e₁, hask, refreshed⟩ := refreshed
    obtain ⟨bound, hbound⟩ := exists_bound F.rank n.sources
    have hbelow (x : NodeId) (hx : e.graph.sheet.below F bound x) : e.graph.sheet.Computes x := hx.1
    have hfar : ¬e.graph.sheet.Computes id := by
      rintro ⟨body, hbody⟩
      simp [sheet, found, kind, NodeKind.formula?] at hbody
    obtain ⟨g, rfl, hr, hg', m, hm, hkept, hend⟩ := (askSources_spec serves hg hF
      (idle.mono hbelow) (fun h => hfar h.1) found hcase (walkable_effect covers hbound)
      (show n.sources = [] ++ n.sources from rfl) (by simp)).1 _ hask
    have hr' := hr.mono hbelow
    have hsheet := hr.sheet
    have hfresh' : g.freshness? id = some m.freshness := by simp [freshness?, hm]
    have hkind' := hkept.kind.trans kind
    simp only [hfresh'] at refreshed
    cases hcase' : m.freshness with
    | clean => simp [hkept.clean_iff.1 hcase'] at hcase
    | dirty =>
      rw [hcase'] at refreshed
      obtain ⟨hran, hframe, hr'', hg'', hclean⟩ :=
        runNode_effect (e := { e with graph := g }) serves covers reads hg' (hsheet ▸ hF)
          (hsheet ▸ hr.idle idle) hm hkind' (by simp [hcase']) refreshed
      refine ⟨hframe, ?_, hg'', hclean, .inr hran⟩
      exact (hr'.mono fun x hx => .inl hx).trans (hr''.mono fun x hx => hsheet ▸ hx)
    | stale =>
      simp only [hcase', Option.some.injEq] at refreshed
      subst refreshed
      exact attended_rested found hcase hr' hg' hm hkept hcase' (hend.resolve_left (by simp [hcase']))

end Engine

end LiveTemplate.Reactive
