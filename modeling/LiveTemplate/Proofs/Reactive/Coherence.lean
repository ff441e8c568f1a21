import LiveTemplate.Proofs.Reactive.Edges
import LiveTemplate.Proofs.Reactive.Scratch

/-!
# Coherent graphs

What ties the remembered outcomes, the freshness and the recorded edges of the computeds together.
In a coherent graph a computed that is not dirty recorded what its body reads as things stand, and
remembers what comes of that; and all that a clean one recorded is settled: a signal, or a clean
computed that is not running. The invariant says nothing about a computed in the middle of its run,
so that it holds there as well.

From it, a settled computed shows its outcome from scratch (`Coherent.alike_of_settled`). Where some
computeds did not record all that they read, the invariant can still hold of the others
(`CoherentOn`), and this is all that those need that read none of the former.
-/
namespace LiveTemplate.Reactive

variable {β σ : Type}

/-- What a node shows to a reader as it stands. -/
def NodeKind.shown : NodeKind β → Outcome
  | .signal value => .ok value
  | .computed _ _ (some outcome) => outcome
  | .computed _ _ none => .ok .undefined
  | .effect _ _ => .error (.reactive (.disposed .computed))

namespace Node

def isRunning (n : Node β) : Bool :=
  match n.kind with
  | .computed _ running _ => running
  | .effect _ running => running
  | .signal _ => false

/-- Whether a reader of the node sees what the node is up to date with. -/
def isSettled (n : Node β) : Bool :=
  match n.kind with
  | .signal _ => true
  | .computed _ running _ => !running && n.isClean
  | .effect _ _ => false

theorem isClean_iff (n : Node β) : n.isClean = true ↔ n.freshness = .clean := by
  simp [isClean]

theorem isEffect_of_isSettled {n : Node β} (h : n.isSettled = true) : n.isEffect = false := by
  cases hk : n.kind <;> simp_all [isSettled, isEffect]

theorem kind_of_isEffect {n : Node β} (h : n.isEffect = true) :
    ∃ body running, n.kind = .effect body running := by
  cases hk : n.kind with
  | effect body running => exact ⟨body, running, rfl⟩
  | _ => simp [isEffect, hk] at h

theorem isSettled_congr {n m : Node β} (kind : m.kind = n.kind)
    (freshness : m.freshness = n.freshness) : m.isSettled = n.isSettled := by
  simp [isSettled, isClean, kind, freshness]

theorem isSettled_computed {n : Node β} {body : β} {running : Bool} {last : Option Outcome}
    (kind : n.kind = .computed body running last) :
    n.isSettled = true ↔ running = false ∧ n.freshness = .clean := by
  simp [isSettled, kind, isClean]

end Node

namespace Graph

def shown (g : Graph β) (id : NodeId) : Outcome :=
  match g.node? id with
  | some n => n.kind.shown
  | none => .error (.reactive (.disposed .computed))

theorem shown_eq {g : Graph β} {id : NodeId} {n : Node β} (h : g.node? id = some n) :
    g.shown id = n.kind.shown := by
  simp [shown, h]

theorem shown_congr {g h : Graph β} {id : NodeId}
    (same : (h.node? id).map (·.kind) = (g.node? id).map (·.kind)) : h.shown id = g.shown id := by
  unfold shown
  cases hg : g.node? id <;> cases hh : h.node? id <;> simp_all

def Settled (g : Graph β) (id : NodeId) : Prop :=
  ∃ n, g.node? id = some n ∧ n.isSettled = true

theorem value?_eq_some {g : Graph (Program σ)} {id : NodeId} {v : Value} :
    g.sheet.value? id = some v ↔ ∃ n, g.node? id = some n ∧ n.kind = .signal v := by
  simp only [sheet, Option.bind_eq_some_iff]
  refine exists_congr fun n => and_congr_right fun _ => ?_
  cases n.kind <;> simp [NodeKind.value?]

theorem body?_eq_some {g : Graph (Program σ)} {id : NodeId} {body : Program σ} :
    g.sheet.body? id = some body ↔
      ∃ n running last, g.node? id = some n ∧ n.kind = .computed body running last := by
  simp only [sheet, Option.bind_eq_some_iff]
  constructor
  · rintro ⟨n, hn, hk⟩
    cases h : n.kind <;> simp [NodeKind.formula?, h] at hk
    exact ⟨n, _, _, hn, by rw [h, hk]⟩
  · rintro ⟨n, running, last, hn, hk⟩
    exact ⟨n, hn, by simp [NodeKind.formula?, hk]⟩

theorem body?_of_kind {g : Graph (Program σ)} {id : NodeId} {n : Node (Program σ)}
    {body : Program σ} {running : Bool} {last : Option Outcome} (h : g.node? id = some n)
    (kind : n.kind = .computed body running last) : g.sheet.body? id = some body :=
  body?_eq_some.2 ⟨n, running, last, h, kind⟩

theorem value?_of_body? {g : Graph (Program σ)} {id : NodeId} {body : Program σ}
    (h : g.sheet.body? id = some body) : g.sheet.value? id = none := by
  obtain ⟨n, running, last, hn, hk⟩ := body?_eq_some.1 h
  simp [sheet, hn, hk, NodeKind.value?]

theorem node_of_holds {g : Graph (Program σ)} {cell : Cell} (holds : g.sheet.Holds cell) :
    ∃ n, g.node? cell.node = some n ∧ n.isEffect = false := by
  obtain ⟨kind, id⟩ := cell
  cases kind with
  | signal =>
    obtain ⟨v, hv⟩ := holds
    obtain ⟨n, hn, hk⟩ := value?_eq_some.1 hv
    exact ⟨n, hn, by simp [Node.isEffect, hk]⟩
  | computed =>
    obtain ⟨body, hbody⟩ := holds
    obtain ⟨n, _, _, hn, hk⟩ := body?_eq_some.1 hbody
    exact ⟨n, hn, by simp [Node.isEffect, hk]⟩

/-- A node recorded what its body reads as things stand, and shows what comes of that. -/
structure Current (g : Graph (Program σ)) (body : Program σ) (n : Node (Program σ)) : Prop where
  sources : n.sources = record [] (body.cells g.shown)
  shown : n.kind.shown.Alike (body.result g.shown)
  holds : ∀ cell ∈ body.cells g.shown, g.sheet.Holds cell

structure Coherent (g : Graph (Program σ)) : Prop where
  linked : g.Linked
  proper : ∀ {id : NodeId} {n : Node (Program σ)}, g.node? id = some n → n.kind.shown.Proper
  lawful : ∀ {id : NodeId} {body : Program σ}, g.sheet.body? id = some body → body.Lawful
  cells : ∀ {id s : NodeId} {n : Node (Program σ)}, g.node? id = some n → s ∈ n.sources →
    ∃ m, g.node? s = some m ∧ m.isEffect = false
  running : ∀ {id : NodeId} {n : Node (Program σ)}, g.node? id = some n → n.isRunning = true →
    n.freshness = .clean
  current : ∀ {id : NodeId} {n : Node (Program σ)} {body : Program σ} {last : Option Outcome},
    g.node? id = some n → n.kind = .computed body false last → n.freshness ≠ .dirty →
      g.Current body n
  settled : ∀ {id : NodeId} {n : Node (Program σ)} {body : Program σ} {last : Option Outcome},
    g.node? id = some n → n.kind = .computed body false last → n.freshness = .clean →
      ∀ s ∈ n.sources, g.Settled s

theorem coherent_empty : (empty : Graph (Program σ)).Coherent :=
  ⟨linked_empty, nofun, nofun, nofun, nofun, nofun, nofun⟩

theorem ranked_empty : (empty : Graph (Program σ)).sheet.Ranked := by
  refine ⟨fun _ => 0, fun t ht id body hbody => ?_⟩
  rw [ht.1] at hbody
  cases hbody

/-- Coherence as far as computeds of a property are concerned. The others may remember and have
recorded anything. -/
structure CoherentOn (P : NodeId → Prop) (g : Graph (Program σ)) : Prop where
  linked : g.Linked
  proper : ∀ {id : NodeId} {n : Node (Program σ)}, g.node? id = some n → n.kind.shown.Proper
  lawful : ∀ {id : NodeId} {body : Program σ}, g.sheet.body? id = some body → body.Lawful
  cells : ∀ {id s : NodeId} {n : Node (Program σ)}, g.node? id = some n → s ∈ n.sources →
    ∃ m, g.node? s = some m ∧ m.isEffect = false
  running : ∀ {id : NodeId} {n : Node (Program σ)}, g.node? id = some n → n.isRunning = true →
    n.freshness = .clean
  current : ∀ {id : NodeId} {n : Node (Program σ)} {body : Program σ} {last : Option Outcome},
    P id → g.node? id = some n → n.kind = .computed body false last → n.freshness ≠ .dirty →
      g.Current body n
  settled : ∀ {id : NodeId} {n : Node (Program σ)} {body : Program σ} {last : Option Outcome},
    P id → g.node? id = some n → n.kind = .computed body false last → n.freshness = .clean →
      ∀ s ∈ n.sources, g.Settled s

theorem Coherent.on {g : Graph (Program σ)} (hg : g.Coherent) (P : NodeId → Prop) :
    g.CoherentOn P :=
  ⟨hg.linked, hg.proper, hg.lawful, hg.cells, hg.running, fun _ => hg.current, fun _ => hg.settled⟩

theorem CoherentOn.coherent {g : Graph (Program σ)} (hg : g.CoherentOn fun _ => True) :
    g.Coherent :=
  ⟨hg.linked, hg.proper, hg.lawful, hg.cells, hg.running, hg.current trivial, hg.settled trivial⟩

theorem CoherentOn.mono {g : Graph (Program σ)} {P Q : NodeId → Prop} (hg : g.CoherentOn Q)
    (weaker : ∀ x, P x → Q x) : g.CoherentOn P :=
  { hg with
    current := fun hx => hg.current (weaker _ hx)
    settled := fun hx => hg.settled (weaker _ hx) }

theorem CoherentOn.shown_proper {g : Graph (Program σ)} {P : NodeId → Prop} (hg : g.CoherentOn P)
    (id : NodeId) : (g.shown id).Proper := by
  unfold shown
  split
  next n hn => exact hg.proper hn
  next => trivial

theorem Coherent.shown_proper {g : Graph (Program σ)} (hg : g.Coherent) (id : NodeId) :
    (g.shown id).Proper :=
  (hg.on fun _ => True).shown_proper id

theorem Current.mem_sources {g : Graph (Program σ)} {body : Program σ} {n : Node (Program σ)}
    (h : g.Current body n) {id : NodeId} :
    id ∈ n.sources ↔ ∃ cell ∈ body.cells g.shown, cell.node = id := by
  simp [h.sources, mem_record]

/-- What a node recorded stays current as long as its sources show what agrees with it. -/
theorem Current.mono {g h : Graph (Program σ)} {body : Program σ} {n m : Node (Program σ)}
    (hn : g.Current body n) (lawful : body.Lawful) (kind : m.kind = n.kind)
    (sources : m.sources = n.sources)
    (holds : ∀ cell, cell.node ∈ n.sources → g.sheet.Holds cell → h.sheet.Holds cell)
    (alike : ∀ s ∈ n.sources, (g.shown s).Alike (h.shown s)) : h.Current body m := by
  obtain ⟨hcells, hresult⟩ := lawful.follow h.shown g.shown fun cell hc _ =>
    (alike _ (hn.mem_sources.2 ⟨cell, hc, rfl⟩)).symm
  exact
    { sources := by rw [sources, hn.sources, hcells]
      shown := by rw [kind]; exact hn.shown.trans hresult.symm
      holds := by
        rw [hcells]
        exact fun cell hc => holds cell (hn.mem_sources.2 ⟨cell, hc, rfl⟩) (hn.holds cell hc) }

section Alike

variable {g : Graph (Program σ)} {P : NodeId → Prop} {F : Forecast}

theorem CoherentOn.alike_of_signal (hg : g.CoherentOn P) (hF : g.sheet.Obeys F) {id : NodeId}
    {v : Value} (found : g.sheet.value? id = some v) : (g.shown id).Alike (F.outcome id) := by
  obtain ⟨n, hn, hkind⟩ := value?_eq_some.1 found
  have hproper := hg.shown_proper id
  simp only [shown_eq hn, hkind, NodeKind.shown, hF.signal found] at hproper ⊢
  exact .refl hproper

/-- A settled computed shows its outcome from scratch. -/
theorem CoherentOn.alike_of_computed (hg : g.CoherentOn P) (within : ∀ x, F.covers x → P x)
    (hF : g.sheet.Obeys F) {id : NodeId} {body : Program σ} (found : g.sheet.body? id = some body)
    (covered : F.covers id) (settled : g.Settled id) : (g.shown id).Alike (F.outcome id) := by
  induction hk : F.rank id using Nat.strongRecOn generalizing id body with
  | ind k ih =>
    subst hk
    obtain ⟨n, running, last, hn, hkind⟩ := body?_eq_some.1 found
    obtain ⟨n', hn', hset⟩ := settled
    obtain rfl := Option.some.inj (hn.symm.trans hn')
    obtain ⟨rfl, hclean⟩ := (Node.isSettled_computed hkind).1 hset
    have hcurrent := hg.current (within _ covered) hn hkind (by simp [hclean])
    have hanswers (cell : Cell) (hc : cell ∈ body.cells F.outcome)
        (hc' : cell ∈ body.cells g.shown) :
        (g.shown cell.node).Alike (F.outcome cell.node) := by
      have hsettled := hg.settled (within _ covered) hn hkind hclean _
        (hcurrent.mem_sources.2 ⟨cell, hc', rfl⟩)
      have hholds := hF.holds covered found cell hc
      have hlower := hF.lower covered found cell hc
      obtain ⟨kind, source⟩ := cell
      cases kind with
      | signal =>
        obtain ⟨v, hv⟩ := hholds
        exact hg.alike_of_signal hF hv
      | computed =>
        obtain ⟨body', found'⟩ := hholds
        exact ih _ (hlower rfl).2 found' (hlower rfl).1 hsettled rfl
    obtain ⟨-, hresult⟩ := (hg.lawful found).follow _ _ hanswers
    rw [shown_eq hn, ← hF.computed covered found]
    exact hcurrent.shown.trans hresult

/-- A settled cell shows its outcome from scratch. -/
theorem CoherentOn.alike_of_settled (hg : g.CoherentOn P) (within : ∀ x, F.covers x → P x)
    (hF : g.sheet.Obeys F) {cell : Cell} (holds : g.sheet.Holds cell)
    (covered : cell.kind = .computed → F.covers cell.node) (settled : g.Settled cell.node) :
    (g.shown cell.node).Alike (F.outcome cell.node) := by
  obtain ⟨kind, id⟩ := cell
  cases kind with
  | signal =>
    obtain ⟨v, hv⟩ := holds
    exact hg.alike_of_signal hF hv
  | computed =>
    obtain ⟨body, hbody⟩ := holds
    exact hg.alike_of_computed within hF hbody (covered rfl) settled

theorem Coherent.alike_of_settled (hg : g.Coherent) (hF : g.sheet.Obeys F) {cell : Cell}
    (holds : g.sheet.Holds cell) (covered : cell.kind = .computed → F.covers cell.node)
    (settled : g.Settled cell.node) : (g.shown cell.node).Alike (F.outcome cell.node) :=
  (hg.on fun _ => True).alike_of_settled (fun _ _ => trivial) hF holds covered settled

end Alike

end Graph

end LiveTemplate.Reactive
