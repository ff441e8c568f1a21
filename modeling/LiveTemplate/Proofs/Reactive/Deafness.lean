import Mathlib.Data.Set.Finite.List
import Mathlib.Order.WellFounded
import LiveTemplate.Proofs.Reactive.Bystanders
import LiveTemplate.Proofs.Reactive.Cycles

/-!
# Computeds that do not hear

A computed that is running answers a read with a fault, and that read is not recorded. So a computed
that was run because of its own subscriber may have no source left that could tell it that the fault
is a thing of the past: it is deaf. So is one that counts as clean though a source that was running
when it was asked is not.

Where the evaluation of a computed from scratch neither comes back, nor comes to a cell that is gone
or to a deaf computed, a read gives its outcome from scratch. And a read makes no computed deaf but
those whose evaluation comes to one of the three (`Engine.Roamed.reads_unhindered`).
-/
namespace LiveTemplate.Reactive

open Relation (ReflTransGen TransGen)

variable {σ : Type}

/-- A program that does not come up with the fault of a cycle by itself. -/
inductive Program.Honest : Program σ → Prop where
  | done {o : Outcome} (h : o ≠ .error (.reactive .cyclic)) : Honest (.done o)
  | read (cell : Cell) (tracked : Bool) {next : Outcome → Program σ}
      (h : ∀ r, r ≠ .error (.reactive .cyclic) → Honest (next r)) : Honest (.read cell tracked next)

/-- A forecast cut down to some of the nodes it covers. -/
def Forecast.only (F : Forecast) (P : NodeId → Prop) : Forecast :=
  { F with covers := fun x => F.covers x ∧ P x }

namespace Sheet

/-- The evaluation of a program from scratch comes to a read of a cell that is gone. -/
inductive Stumbles (s : Sheet σ) : Program σ → Prop where
  | goneSignal {id : NodeId} {tracked : Bool} {next : Outcome → Program σ}
      (gone : s.value? id = none) : Stumbles s (.read ⟨.signal, id⟩ tracked next)
  | goneComputed {id : NodeId} {tracked : Bool} {next : Outcome → Program σ}
      (gone : s.body? id = none) : Stumbles s (.read ⟨.computed, id⟩ tracked next)
  | signal {id : NodeId} {v : Value} {tracked : Bool} {next : Outcome → Program σ}
      (found : s.value? id = some v) (rest : Stumbles s (next (.ok v))) :
      Stumbles s (.read ⟨.signal, id⟩ tracked next)
  | computed {id : NodeId} {body : Program σ} {r : Outcome} {tracked : Bool}
      {next : Outcome → Program σ} (found : s.body? id = some body) (inner : s.Evaluates body r)
      (rest : Stumbles s (next r)) : Stumbles s (.read ⟨.computed, id⟩ tracked next)

/-- The evaluation of a computed comes back to it, or to a cell that is gone. -/
def Obstacle (s : Sheet σ) (x : NodeId) : Prop :=
  s.Reenters x ∨ ∃ body, s.body? x = some body ∧ s.Stumbles body

variable {s : Sheet σ}

theorem Asks.found {p : Program σ} {y : NodeId} (h : s.Asks p y) : ∃ body, s.body? y = some body := by
  induction h with
  | here found => exact ⟨_, found⟩
  | signal _ _ ih => exact ih
  | computed _ _ _ ih => exact ih
  | goneSignal _ _ ih => exact ih
  | goneComputed _ _ ih => exact ih

theorem Ends.not_stumbles {k : Nat} {p : Program σ} {o : Outcome} (h : s.Ends k p o) :
    ¬s.Stumbles p := by
  intro stumbles
  induction stumbles generalizing k with
  | goneSignal gone => cases h with
    | signal found => simp [gone] at found
  | goneComputed gone => cases h with
    | computed found => simp [gone] at found
  | signal found _ ih => cases h with
    | signal found' rest =>
      obtain rfl := Option.some.inj (found.symm.trans found')
      exact ih rest
  | computed found inner _ ih => cases h with
    | computed found' inner' rest =>
      obtain rfl := Option.some.inj (found.symm.trans found')
      obtain rfl := inner.functional inner'.evaluates
      exact ih rest

/-- An evaluation that ends comes to no obstacle. -/
theorem Ends.whole {c x : NodeId} {k : Nat} {body : Program σ} {o : Outcome}
    (found : s.body? c = some body) (h : s.Ends k body o) (calls : ReflTransGen s.Calls c x) :
    ¬s.Obstacle x := by
  obtain ⟨k', body', r, found', ends⟩ : ∃ k' body' r, s.body? x = some body' ∧ s.Ends k' body' r := by
    rcases Relation.reflTransGen_iff_eq_or_transGen.1 calls with rfl | calls
    · exact ⟨k, body, o, found, h⟩
    · obtain ⟨k', -, body', r, found', ends⟩ := ends_of_calls calls found h
      exact ⟨k', body', r, found', ends⟩
  rintro (reenters | ⟨body'', found'', stumbles⟩)
  · exact reenters.endless found' ends
  · obtain rfl := Option.some.inj (found'.symm.trans found'')
    exact ends.not_stumbles stumbles

/-- The fault of a cycle is no outcome from scratch if no body comes up with it. -/
theorem Ends.honest (honest : ∀ {id body}, s.body? id = some body → body.Honest) {k : Nat}
    {p : Program σ} {o : Outcome} (h : s.Ends k p o) (hp : p.Honest) :
    o ≠ .error (.reactive .cyclic) := by
  induction h with
  | done => cases hp with
    | done h => exact h
  | signal _ _ ih => cases hp with
    | read _ _ h => exact ih (h _ (by simp))
  | computed found _ _ ihInner ih => cases hp with
    | read _ _ h => exact ih (h _ (ihInner (honest found)))

theorem Ends.asks (apart : ∀ id body, s.body? id = some body → s.value? id = none) {k : Nat}
    {p : Program σ} {o : Outcome} (h : s.Ends k p o) {cell : Cell}
    (mem : cell ∈ p.cells s.outcome) (kind : cell.kind = .computed) : s.Asks p cell.node := by
  induction h with
  | done => simp [Program.cells] at mem
  | signal found _ ih =>
    simp only [Program.cells, outcome_signal found, List.mem_cons] at mem
    rcases mem with rfl | mem
    · cases kind
    · exact .signal found (ih mem)
  | computed found inner _ _ ih =>
    simp only [Program.cells, outcome_computed (apart _ _ found) found inner.evaluates,
      List.mem_cons] at mem
    rcases mem with rfl | mem
    · exact .here found
    · exact .computed found inner.evaluates (ih mem)

/-- A forecast of what ends may be cut down to nodes that call each other only. -/
theorem obeys_only (apart : ∀ id body, s.body? id = some body → s.value? id = none)
    {P : NodeId → Prop} (closed : ∀ {x y}, P x → s.Calls x y → P y) :
    s.Obeys (s.forecast.only P) where
  signal := (obeys_forecast apart).signal
  computed covered := (obeys_forecast apart).computed covered.1
  holds covered := (obeys_forecast apart).holds covered.1
  lower {id body} covered found cell mem kind := by
    obtain ⟨hcovers, hlower⟩ := (obeys_forecast apart).lower covered.1 found cell mem kind
    obtain ⟨k, o, ends⟩ := covered.1 body found
    exact ⟨⟨hcovers, closed covered.2 ⟨body, found, ends.asks apart mem kind⟩⟩, hlower⟩

end Sheet

namespace Graph

variable {g h : Graph (Program σ)} {P : NodeId → Prop} {c x : NodeId}

/-- If whatever a program asks for ends, and none of it is gone, the program ends. -/
theorem CoherentOn.exists_ends (hg : g.CoherentOn P) {p q : Program σ} (alike : p.Alike q)
    (whole : ¬g.sheet.Stumbles p)
    (asked : ∀ y, g.sheet.Asks p y → ∃ k body r, g.sheet.body? y = some body ∧ g.sheet.Ends k body r) :
    ∃ k o, g.sheet.Ends k p o := by
  induction alike with
  | done => exact ⟨0, _, .done _⟩
  | @read cell next _ _ ih =>
    obtain ⟨kind, id⟩ := cell
    cases kind with
    | signal =>
      cases hv : g.sheet.value? id with
      | none => exact absurd (.goneSignal hv) whole
      | some v =>
        obtain ⟨k, o, hrest⟩ := ih (.ok v) (.ok v) (.refl (hg.proper_of_value? hv))
          (fun h => whole (.signal hv h)) fun y hy => asked y (.signal hv hy)
        exact ⟨k, o, .signal hv hrest⟩
    | computed =>
      cases hb : g.sheet.body? id with
      | none => exact absurd (.goneComputed hb) whole
      | some body =>
        obtain ⟨k, body', r, hb', hinner⟩ := asked id (.here hb)
        obtain rfl := Option.some.inj (hb.symm.trans hb')
        have hproper := hg.proper_of_evaluates hinner.evaluates (hg.lawful hb)
        obtain ⟨l, o, hrest⟩ := ih r r (.refl hproper)
          (fun h => whole (.computed hb hinner.evaluates h))
          fun y hy => asked y (.computed hb hinner.evaluates hy)
        exact ⟨max k l + 1, o, .computed hb (hinner.mono (by omega)) (hrest.mono (by omega))⟩

/-- There are finitely many computeds, so an evaluation without an obstacle ends. -/
theorem CoherentOn.covers_of_whole (hg : g.CoherentOn P)
    (whole : ∀ x, ReflTransGen g.sheet.Calls c x → ¬g.sheet.Obstacle x) :
    g.sheet.forecast.covers c := by
  intro body found
  let Called := {x // ReflTransGen g.sheet.Calls c x}
  have hfound (a : Called) : ∃ body, g.sheet.body? a = some body := by
    rcases ReflTransGen.cases_tail a.2 with heq | ⟨y, -, _, -, hasks⟩
    · exact ⟨body, by rwa [heq]⟩
    · exact hasks.found
  have : Finite Called := by
    obtain ⟨keys, hkeys⟩ := g.nodes.exists_keys
    have hlisted : {x | ReflTransGen g.sheet.Calls c x} ⊆ {x | x ∈ keys} := fun x hx => by
      obtain ⟨body, hbody⟩ := hfound ⟨x, hx⟩
      obtain ⟨n, _, _, hn, -⟩ := body?_eq_some.1 hbody
      exact hkeys x (by rw [← Graph.node?, hn]; rfl)
    exact (keys.finite_toSet.subset hlisted).to_subtype
  have : IsTrans Called fun a b => TransGen g.sheet.Calls b a := ⟨fun _ _ _ hab hbc => hbc.trans hab⟩
  have : Std.Irrefl fun a b : Called => TransGen g.sheet.Calls b a :=
    ⟨fun a cycle => whole a a.2 (.inl cycle)⟩
  have hends (a : Called) : ∃ k body r, g.sheet.body? a = some body ∧ g.sheet.Ends k body r := by
    induction a using (Finite.wellFounded_of_trans_of_irrefl
      fun a b : Called => TransGen g.sheet.Calls b a).induction with
    | _ a ih =>
      obtain ⟨body, hbody⟩ := hfound a
      obtain ⟨k, o, hends⟩ := hg.exists_ends (hg.lawful hbody)
        (fun h => whole a a.2 (.inr ⟨body, hbody, h⟩)) fun y hy =>
          ih ⟨y, a.2.tail ⟨body, hbody, hy⟩⟩ (.single ⟨body, hbody, hy⟩)
      exact ⟨k, body, o, hbody, hends⟩
  obtain ⟨k, body', r, hbody', hends⟩ := hends ⟨c, .refl⟩
  obtain rfl := Option.some.inj (found.symm.trans hbody')
  exact ⟨k, r, hends⟩

/-! ## Deafness -/

/-- A computed that would not hear of all that concerns it. -/
def Deaf (g : Graph (Program σ)) (x : NodeId) : Prop :=
  ∃ n body last, g.node? x = some n ∧ n.kind = .computed body false last ∧
    (n.freshness ≠ .dirty ∧ ¬g.Current body n ∨ n.freshness = .clean ∧ ∃ s ∈ n.sources, ¬g.Settled s)

/-- The evaluation of a computed comes to an obstacle or to a deaf computed. -/
def Hindered (g : Graph (Program σ)) (c : NodeId) : Prop :=
  ∃ x, ReflTransGen g.sheet.Calls c x ∧ (g.sheet.Obstacle x ∨ g.Deaf x)

theorem CoherentOn.not_deaf (hg : g.CoherentOn P) (hx : P x) : ¬g.Deaf x := by
  rintro ⟨n, body, last, hn, hk, ⟨higher, hcurrent⟩ | ⟨clean, s, hs, hsettled⟩⟩
  · exact hcurrent (hg.current hx hn hk higher)
  · exact hsettled (hg.settled hx hn hk clean s hs)

theorem CoherentOn.of_hearing {Q : NodeId → Prop} (hg : g.CoherentOn P)
    (hearing : ∀ x, Q x → ¬g.Deaf x) : g.CoherentOn Q :=
  { hg with
    current := fun {x n body last} hx hn hk higher => by
      by_contra hcurrent
      exact hearing x hx ⟨n, body, last, hn, hk, .inl ⟨higher, hcurrent⟩⟩
    settled := fun {x n body last} hx hn hk clean s hs => by
      by_contra hsettled
      exact hearing x hx ⟨n, body, last, hn, hk, .inr ⟨clean, s, hs, hsettled⟩⟩ }

/-- What is not hindered is covered, and sure. -/
theorem CoherentOn.sure (hg : g.CoherentOn P) (idle : g.Idle fun _ => True) :
    g.Sure (g.sheet.forecast.only fun x => ¬g.Hindered x) where
  coherent := hg.of_hearing fun x hx hdeaf => hx.2 ⟨x, .refl, .inr hdeaf⟩
  obeys := Sheet.obeys_only (fun _ _ => value?_of_body?) fun hx calls ⟨y, hy, h⟩ =>
    hx ⟨y, .head calls hy, h⟩
  idle := Idle.mono idle fun _ _ => trivial

theorem CoherentOn.covers (hg : g.CoherentOn P) (free : ¬g.Hindered x) :
    (g.sheet.forecast.only fun x => ¬g.Hindered x).covers x :=
  ⟨hg.covers_of_whole fun y hy hob => free ⟨y, hy, .inl hob⟩, free⟩

/-- A disposal makes only those computeds deaf that have recorded what is gone. -/
theorem CoherentOn.deaf_of_left (hg : g.CoherentOn P) (hl : g.Left h) (deaf : h.Deaf x) :
    g.Deaf x ∨ ∃ n, g.node? x = some n ∧ ∃ s ∈ n.sources, h.node? s = none := by
  by_contra hnone
  obtain ⟨hearing, hleft⟩ := not_or.1 hnone
  refine ((hg.of_hearing (Q := (· = x)) fun y hy => hy ▸ hearing).left hl ?_).not_deaf rfl deaf
  rintro _ n rfl hn s hs
  by_contra hgone
  exact hleft ⟨n, hn, s, hs, Option.not_isSome_iff_eq_none.1 hgone⟩

/-- A write makes no computed deaf. -/
theorem CoherentOn.deaf_of_written (hg : g.CoherentOn P) {id : NodeId} {n : Node (Program σ)}
    {old value : Value} (found : g.node? id = some n) (kind : n.kind = .signal old)
    (proper : value.Proper) (idle : g.Idle fun _ => True)
    (deaf : (g.written id value n.subscribers).Deaf x) : g.Deaf x := by
  by_contra hearing
  exact ((hg.of_hearing (Q := (· = x)) fun y hy => hy ▸ hearing).written found kind proper
    idle).not_deaf rfl deaf

end Graph

namespace Engine

open Reactive.Graph

variable {e e' : Engine Journal}

/-- An engine in which nothing is running, with lawful bodies and nothing but effects in its queue.
Its computeds may be deaf. -/
structure AtRest (e : Engine Journal) : Prop where
  coherent : e.graph.CoherentOn fun _ => False
  idle : e.graph.Idle fun _ => True
  still : e.flushing = false
  queued : ∀ x ∈ e.graph.pending, ∃ n, e.graph.node? x = some n ∧ n.isEffect = true

/-- The engines that clients can bring about from a reached one when bodies may read each other in any
way. They may read and dispose of anything, and no flush finds an effect. -/
inductive Roamed (mode : Bool → Prop) (allowed : Except Fault Unit → Prop) (settings : Settings) :
    Engine Journal → Prop where
  | reached {e : Engine Journal} (reached : Reached mode allowed settings e) :
      Roamed mode allowed settings e
  | newSignal {e : Engine Journal} {value : Value} {id : NodeId} {g : Graph (Program Journal)}
      (roamed : Roamed mode allowed settings e) (proper : value.Proper)
      (inserted : e.graph.insertNode (.signal value) .clean none = (id, g)) :
      Roamed mode allowed settings { e with graph := g }
  | newComputed {e : Engine Journal} {body : Program Journal} {id : NodeId}
      {g : Graph (Program Journal)} (roamed : Roamed mode allowed settings e) (lawful : body.Lawful)
      (inserted : e.graph.insertNode (.computed body false none) .dirty none = (id, g)) :
      Roamed mode allowed settings { e with graph := g }
  | read {e e' : Engine Journal} {depth : Nat} {cell : Cell} {tracked : Bool} {o : Outcome}
      (roamed : Roamed mode allowed settings e)
      (read : e.readCell (refreshWithin depth) cell tracked = some (o, e')) :
      Roamed mode allowed settings e'
  | write {e e' : Engine Journal} {depth : Nat} {id : NodeId} {value : Value} {r : Except Fault Unit}
      (roamed : Roamed mode allowed settings e) (proper : value.Proper)
      (effectless : e.batchDepth = 0 → e.graph.Effectless)
      (written : writeSignal (refreshWithin depth) id value e = some (r, e')) :
      Roamed mode allowed settings e'
  | dispose {e : Engine Journal} (roamed : Roamed mode allowed settings e) (work : List Doomed) :
      Roamed mode allowed settings { e with graph := e.graph.remove work }
  | openBatch {e : Engine Journal} (roamed : Roamed mode allowed settings e) :
      Roamed mode allowed settings { e with batchDepth := e.batchDepth + 1 }
  | closeBatch {e e' : Engine Journal} {depth : Nat} {r : Except Fault Unit}
      (roamed : Roamed mode allowed settings e) (opened : 0 < e.batchDepth)
      (effectless : e.batchDepth = 1 → e.graph.Effectless)
      (flushed : flush (refreshWithin depth) { e with batchDepth := e.batchDepth - 1 } = some (r, e')) :
      Roamed mode allowed settings e'

theorem Visited.roamed {mode : Bool → Prop} {allowed : Except Fault Unit → Prop} {settings : Settings}
    (visited : Visited mode allowed settings e) : Roamed mode allowed settings e := by
  induction visited with
  | reached reached => exact .reached reached
  | newSignal _ proper inserted ih => exact ih.newSignal proper inserted
  | newComputed _ lawful inserted ih => exact ih.newComputed lawful inserted
  | read _ _ read ih => exact ih.read read
  | write _ proper effectless written ih => exact ih.write proper effectless written
  | openBatch _ ih => exact ih.openBatch
  | closeBatch _ opened effectless flushed ih => exact ih.closeBatch opened effectless flushed

theorem AtRest.insertNode (h : e.AtRest) {kind : NodeKind (Program Journal)} {freshness : Freshness}
    (coherent : (e.graph.insertNode kind freshness none).2.CoherentOn fun _ => False)
    (resting : ∀ n : Node (Program Journal), n.kind = kind → n.isRunning = false) :
    ({ e with graph := (e.graph.insertNode kind freshness none).2 } : Engine Journal).AtRest := by
  refine ⟨coherent, fun {x n} _ hn => ?_, h.still, fun x hx => ?_⟩
  · rcases insertNode_origin hn with ⟨-, rfl⟩ | hn
    · exact resting _ rfl
    · exact h.idle trivial hn
  · obtain ⟨n, hn, heffect⟩ := h.queued x hx
    exact ⟨n, (insertNode_live hn).2, heffect⟩

theorem AtRest.written (h : e.AtRest) {id : NodeId} {n : Node (Program Journal)} {old value : Value}
    (found : e.graph.node? id = some n) (kind : n.kind = .signal old) (proper : value.Proper) :
    ({ e with graph := e.graph.written id value n.subscribers } : Engine Journal).AtRest :=
  ⟨h.coherent.written found kind proper h.idle, idle_written found value _ h.idle, h.still,
    queued_written found kind _ h.queued⟩

theorem AtRest.left (h : e.AtRest) {g : Graph (Program Journal)} (hl : e.graph.Left g) :
    ({ e with graph := g } : Engine Journal).AtRest := by
  refine ⟨h.coherent.left hl nofun, fun {x m} _ hm => ?_, h.still, fun x hx => ?_⟩
  · obtain ⟨n, hn, hk, -⟩ := hl.origin hm
    rw [Node.isRunning, hk]
    exact h.idle trivial hn
  · obtain ⟨mem, hlive⟩ := hl.queued x hx
    obtain ⟨n, hn, heffect⟩ := h.queued x mem
    obtain ⟨m, hm⟩ := Option.isSome_iff_exists.1 (hlive (by simp [hn]))
    obtain ⟨n', hn', hk, -⟩ := hl.origin hm
    obtain rfl := Option.some.inj (hn.symm.trans hn')
    exact ⟨m, hm, by rwa [Node.isEffect, hk]⟩

/-- A read makes no computed deaf whose evaluation is not hindered. -/
theorem AtRest.read (h : e.AtRest) {depth : Nat} {cell : Cell} {tracked : Bool} {o : Outcome}
    (read : e.readCell (refreshWithin depth) cell tracked = some (o, e')) :
    e'.AtRest ∧ e.graph.Stirred e'.graph ∧ ∀ x, e'.graph.Deaf x → e.graph.Hindered x := by
  obtain ⟨g, hs, hg, -, hcase⟩ := Bears.readCell (bears_refreshWithin _ depth)
    (h.coherent.sure h.idle) read
  obtain ⟨hgraph, hflushing⟩ : e'.graph = g ∧ e'.flushing = e.flushing := by
    rcases hcase with ⟨rfl, -⟩ | rfl
    · obtain ⟨tracking, heq⟩ := trackIf_eq { e with graph := g } tracked cell.node
      rw [heq]
      exact ⟨rfl, rfl⟩
    · exact ⟨rfl, rfl⟩
  refine ⟨⟨hgraph ▸ hg.coherent.mono fun _ hx => hx.elim, hgraph ▸ hs.idle h.idle,
    hflushing.trans h.still, fun x hx => ?_⟩, hgraph ▸ hs, fun x hx => ?_⟩
  · rw [hgraph, hs.pending] at hx
    obtain ⟨n, hn, heffect⟩ := h.queued x hx
    obtain ⟨m, hm, hk⟩ := hs.find hn
    exact ⟨m, hgraph ▸ hm, (Node.isEffect_of_skeleton hk).trans heffect⟩
  · by_contra free
    exact hg.coherent.not_deaf (h.coherent.covers free) (hgraph ▸ hx)

theorem AtRest.batch (h : e.AtRest) (batchDepth : Nat) :
    ({ e with batchDepth := batchDepth } : Engine Journal).AtRest :=
  ⟨h.coherent, h.idle, h.still, h.queued⟩

variable {mode : Bool → Prop} {allowed : Except Fault Unit → Prop} {settings : Settings}

theorem Roamed.atRest (roamed : Roamed mode allowed settings e) : e.AtRest := by
  induction roamed with
  | reached reached =>
    have hp := reached.poised
    exact ⟨hp.sound.coherent.on _, hp.sound.idle, hp.still, hp.sound.queued⟩
  | newSignal _ proper inserted ih =>
    obtain rfl := congrArg Prod.snd inserted
    exact ih.insertNode (ih.coherent.insertNode proper (by simp) (by simp))
      fun n hn => by simp [Node.isRunning, hn]
  | newComputed _ lawful inserted ih =>
    obtain rfl := congrArg Prod.snd inserted
    refine ih.insertNode (ih.coherent.insertNode .undefined ?_ (by simp))
      fun n hn => by simp [Node.isRunning, hn]
    rintro _ _ _ ⟨⟩
    exact ⟨lawful, rfl, rfl⟩
  | read _ read ih => exact (ih.read read).1
  | write _ proper effectless written ih =>
    rcases writeSignal_cases written with ⟨-, rfl⟩ | ⟨-, rfl⟩ | ⟨n, old, hn, hk, -, hflush⟩
    · exact ih
    · exact ih
    · have hwritten := ih.written hn hk proper
      obtain rfl := flush_of_effectless hwritten.still hwritten.queued
        (fun rest => (effectless rest).written hn _ _) hflush
      exact hwritten
  | dispose _ work ih => exact ih.left (left_remove ih.coherent.linked work)
  | openBatch _ ih => exact ih.batch _
  | @closeBatch e _ _ _ _ opened effectless flushed ih =>
    have hclosed := ih.batch (e.batchDepth - 1)
    obtain rfl := flush_of_effectless hclosed.still hclosed.queued
      (fun rest => effectless (by simp only at rest; omega)) flushed
    exact hclosed

theorem Roamed.written (roamed : Roamed mode allowed settings e) (effectless : e.graph.Effectless)
    {id : NodeId} {old value : Value} {freshness : Freshness} {sources subscribers : List NodeId}
    {owner : Option ScopeId}
    (found : e.graph.node? id = some ⟨.signal old, freshness, sources, subscribers, owner⟩)
    (changed : old.equals value = false) (proper : value.Proper) :
    Roamed mode allowed settings { e with graph := e.graph.written id value subscribers } := by
  have hrest := roamed.atRest
  obtain ⟨r, written⟩ := exists_writeSignal hrest.still hrest.queued effectless found changed
  exact roamed.write proper (fun _ => effectless) written

/-- If the evaluation of a computed comes to no obstacle and to no deaf computed, a read of it gives
its outcome from scratch, whatever has been read before. Only the others may show the fault of a
cycle, or be deaf after a read. -/
theorem Roamed.reads_unhindered (roamed : Roamed mode allowed settings e)
    (honest : ∀ {id body}, e.graph.sheet.body? id = some body → body.Honest) {c : NodeId}
    {body : Program Journal} (found : e.graph.sheet.body? c = some body) (tracked : Bool) :
    ∃ enough, ∀ depth,
      (¬e.graph.Hindered c → enough ≤ depth →
        (e.readCell (refreshWithin depth) ⟨.computed, c⟩ tracked).isSome) ∧
      ∀ {o : Outcome} {e' : Engine Journal},
        e.readCell (refreshWithin depth) ⟨.computed, c⟩ tracked = some (o, e') →
        (e.graph.Hindered c ∨ o ≠ .error (.reactive .cyclic) ∧
          ∃ r, e.graph.sheet.Gives ⟨.computed, c⟩ r ∧ o.Alike r) ∧
        ∀ x, e'.graph.Deaf x → e.graph.Hindered x := by
  have hrest := roamed.atRest
  set F := e.graph.sheet.forecast.only fun x => ¬e.graph.Hindered x
  have hsure : e.graph.Sure F := hrest.coherent.sure hrest.idle
  have hready (free : ¬e.graph.Hindered c) :
      Ready F (F.rank c + 1) e.graph.sheet ⟨.computed, c⟩ :=
    ⟨⟨body, found⟩, fun _ => ⟨hrest.coherent.covers free, Nat.lt_succ_self _⟩⟩
  have hserved (depth : Nat) (free : ¬e.graph.Hindered c) :=
    ServesOn.readCell (servesOn_refreshWithin (fun _ h => h) depth) hsure.coherent hsure.obeys
      (hready free) (Idle.mono hsure.idle fun x hx => hx.2.1) tracked
  refine ⟨F.rank c + 1, fun depth => ⟨fun free => (hserved depth free).2, fun {o e'} read => ⟨?_,
    (hrest.read read).2.2⟩⟩⟩
  by_cases free : e.graph.Hindered c
  · exact .inl free
  right
  obtain ⟨g, -, hr, hg, hset, rfl⟩ := (hserved depth free).1 _ read
  have hcovers := hrest.coherent.covers free
  have hobeys : g.sheet.Obeys F := by
    rw [hr.sheet]
    exact hsure.obeys
  have halike := hg.alike_of_computed (fun _ h => h) hobeys (hr.sheet ▸ found) hcovers hset
  obtain ⟨k, r, hends⟩ := hcovers.1 body found
  have houtcome : F.outcome c = r :=
    Sheet.outcome_computed (value?_of_body? found) found hends.evaluates
  rw [houtcome] at halike
  refine ⟨fun hcyclic => hends.honest honest (honest found) ?_, r,
    .computed found hends.evaluates, halike⟩
  rw [hcyclic] at halike
  exact halike.eq_of_error

/-! ## The pair of computeds once more -/

namespace Pair

theorem honest_reading {cell : Cell} {next : Value → Program Journal} (h : ∀ v, (next v).Honest) :
    (reading cell next).Honest := by
  refine .read _ _ fun r hr => ?_
  cases r with
  | ok v => exact h v
  | error f => exact .done hr

theorem honest_pure (v : Value) : (Program.pure v : Program Journal).Honest :=
  .done (by simp)

theorem honest_cells {flag : Bool} {id : NodeId} {body : Program Journal}
    (found : (cells flag).sheet.body? id = some body) : body.Honest := by
  obtain rfl | rfl | rfl := body_cells found
  · exact honest_reading fun _ => honest_pure _
  · exact honest_reading honest_pure
  · refine honest_reading fun v => ?_
    split
    · exact honest_reading fun _ => honest_reading fun _ => honest_pure _
    · exact honest_pure _

/-- One of the two has been read while the flag was set. -/
def caught (first : NodeId) : Engine Journal :=
  ((engine true).readCell (refreshWithin 3) ⟨.computed, first⟩ true).elim (engine true) Prod.snd

/-- Then the flag has been taken back. -/
def freed (first : NodeId) : Engine Journal :=
  { caught first with graph := (caught first).graph.written flag (.bool false) [inner] }

theorem read_caught {first : NodeId} (h : first = inner ∨ first = outer) :
    ∃ o, (engine true).readCell (refreshWithin 3) ⟨.computed, first⟩ true = some (o, caught first) := by
  have hsome : ((engine true).readCell (refreshWithin 3) ⟨.computed, first⟩ true).isSome := by
    rcases h with rfl | rfl <;> cbv
  obtain ⟨⟨o, e'⟩, hread⟩ := Option.isSome_iff_exists.1 hsome
  exact ⟨o, by rw [caught, hread]; rfl⟩

theorem flag_caught {first : NodeId} (h : first = inner ∨ first = outer) :
    (caught first).graph.node? flag = some ⟨.signal (.bool true), .clean, [], [inner], none⟩ := by
  rcases h with rfl | rfl <;> cbv

theorem roamed_freed {first : NodeId} (h : first = inner ∨ first = outer) (mode : Bool → Prop)
    (allowed : Except Fault Unit → Prop) : Roamed mode allowed .default (freed first) ∧
      (freed first).graph.sheet.body? = (cells true).sheet.body? := by
  obtain ⟨o, hread⟩ := read_caught h
  have hstart := (visited_engine true mode allowed).roamed
  obtain ⟨-, hstirred, -⟩ := hstart.atRest.read hread
  have heffectless : (caught first).graph.Effectless := fun x m hm => by
    obtain ⟨n, hn, hk⟩ := hstirred.origin hm
    exact (Node.isEffect_of_skeleton hk).trans (bare_cells hn).1
  refine ⟨(hstart.read hread).written heffectless (flag_caught h) rfl (.bool false), ?_⟩
  exact (body?_written (flag_caught h) rfl _).trans (by rw [hstirred.sheet]; rfl)

theorem bodies_freed {first : NodeId} (h : first = inner ∨ first = outer) {id : NodeId}
    {body : Program Journal} (found : (freed first).graph.sheet.body? id = some body) : body.Honest := by
  rw [(roamed_freed h (fun _ => True) Calm).2] at found
  exact honest_cells found

/-- When the flag is not set, the evaluation of the outer computed comes to the inner one, and ends. -/
theorem ends_outer {s : Sheet Journal} (hflag : s.value? flag = some (.bool false))
    (hinner : s.body? inner = some innerBody) : s.Ends 1 outerBody (.ok .null) :=
  .computed hinner (.signal hflag (.done _)) (.done _)

theorem calls_outer {s : Sheet Journal} (hflag : s.value? flag = some (.bool false))
    (houter : s.body? outer = some outerBody) (hinner : s.body? inner = some innerBody) {x : NodeId}
    (calls : ReflTransGen s.Calls outer x) : x = outer ∨ x = inner := by
  induction calls with
  | refl => exact .inl rfl
  | tail _ calls ih =>
    obtain ⟨body, found, asks⟩ := calls
    rcases ih with rfl | rfl
    · obtain rfl := Option.some.inj (houter.symm.trans found)
      cases asks with
      | here => exact .inr rfl
      | @computed _ _ _ r _ _ _ _ rest => cases r <;> cases rest
      | goneComputed _ rest => cases rest
    · obtain rfl := Option.some.inj (hinner.symm.trans found)
      cases asks with
      | signal found' rest =>
        obtain rfl := Option.some.inj (hflag.symm.trans found')
        cases rest
      | goneSignal gone => simp [hflag] at gone

theorem outer_freed : (freed outer).graph.node? outer = some ⟨.computed outerBody false
    (some (.error (.reactive .cyclic))), .stale, [inner], [], none⟩ := by cbv

theorem inner_freed : (freed outer).graph.node? inner = some ⟨.computed innerBody false
    (some (.error (.reactive .cyclic))), .dirty, [flag], [outer], none⟩ := by cbv

/-- The outer computed has recorded the inner one, and knows what this one shows. -/
theorem not_deaf_outer : ¬(freed outer).graph.Deaf outer := by
  rintro ⟨n, body, last, hn, hk, ⟨-, hcurrent⟩ | ⟨clean, -⟩⟩ <;>
    obtain rfl := Option.some.inj (outer_freed.symm.trans hn)
  · cases hk
    have hshown : (freed outer).graph.shown inner = .error (.reactive .cyclic) := shown_eq inner_freed
    refine hcurrent ⟨?_, ?_, ?_⟩
    · simp [outerBody, reading, Program.cells, hshown, Program.fail, enlist]
    · simp only [outerBody, reading, Program.result, hshown, Program.fail]
      exact .refl trivial
    · simp only [outerBody, reading, Program.cells, hshown, Program.fail, List.mem_singleton]
      rintro _ rfl
      exact ⟨innerBody, body?_of_kind inner_freed rfl⟩
  · cases clean

/-- The inner one will run again. -/
theorem not_deaf_inner : ¬(freed outer).graph.Deaf inner := by
  rintro ⟨n, body, last, hn, -, ⟨higher, -⟩ | ⟨clean, -⟩⟩ <;>
    obtain rfl := Option.some.inj (inner_freed.symm.trans hn)
  · exact higher rfl
  · cases clean

end Pair

/-- The inner computed was read first, and the outer one does not hear that the cycle is gone. -/
theorem cyclic_outlives_cycle : ∃ e', Roamed (· = true) Calm .default (Pair.freed Pair.inner) ∧
    (∀ {id body}, (Pair.freed Pair.inner).graph.sheet.body? id = some body → body.Honest) ∧
    (Pair.freed Pair.inner).readCell (refreshWithin 4) ⟨.computed, Pair.outer⟩ true =
      some (.error (.reactive .cyclic), e') ∧
    ¬∃ x, ReflTransGen (Pair.freed Pair.inner).graph.sheet.Calls Pair.outer x ∧
      (Pair.freed Pair.inner).graph.sheet.Reenters x := by
  have hread : ((Pair.freed Pair.inner).readCell (refreshWithin 4) ⟨.computed, Pair.outer⟩
    true).isSome := by cbv
  have hcyclic : (((Pair.freed Pair.inner).readCell (refreshWithin 4) ⟨.computed, Pair.outer⟩
    true).get hread).1 = .error (.reactive .cyclic) := by cbv
  obtain ⟨hroamed, hbodies⟩ := Pair.roamed_freed (.inl rfl) (· = true) Calm
  refine ⟨_, hroamed, Pair.bodies_freed (.inl rfl),
    (Option.some_get hread).symm.trans (congrArg some (Prod.ext hcyclic rfl)), ?_⟩
  rintro ⟨x, calls, reenters⟩
  exact (Pair.ends_outer (by cbv) (hbodies ▸ rfl)).whole (hbodies ▸ rfl) calls (.inl reenters)

/-- The outer computed was read first, and a read of it gives its outcome from scratch again. -/
theorem reads_freed : ¬(Pair.freed Pair.outer).graph.Hindered Pair.outer ∧ ∃ enough, ∀ depth,
    enough ≤ depth → ∃ o e', (Pair.freed Pair.outer).readCell (refreshWithin depth)
      ⟨.computed, Pair.outer⟩ true = some (o, e') ∧ o ≠ .error (.reactive .cyclic) := by
  obtain ⟨hroamed, hbodies⟩ := Pair.roamed_freed (.inr rfl) (· = true) Calm
  have hflag : (Pair.freed Pair.outer).graph.sheet.value? Pair.flag = some (.bool false) := by cbv
  have houter : (Pair.freed Pair.outer).graph.sheet.body? Pair.outer = some Pair.outerBody :=
    hbodies ▸ rfl
  have hinner : (Pair.freed Pair.outer).graph.sheet.body? Pair.inner = some Pair.innerBody :=
    hbodies ▸ rfl
  have hfree : ¬(Pair.freed Pair.outer).graph.Hindered Pair.outer := by
    rintro ⟨x, calls, obstacle | deaf⟩
    · exact (Pair.ends_outer hflag hinner).whole houter calls obstacle
    · rcases Pair.calls_outer hflag houter hinner calls with rfl | rfl
      · exact Pair.not_deaf_outer deaf
      · exact Pair.not_deaf_inner deaf
  obtain ⟨enough, hreads⟩ := Roamed.reads_unhindered hroamed (Pair.bodies_freed (.inr rfl)) houter true
  refine ⟨hfree, enough, fun depth hdepth => ?_⟩
  obtain ⟨⟨o, e'⟩, hread⟩ := Option.isSome_iff_exists.1 ((hreads depth).1 hfree hdepth)
  exact ⟨o, e', hread, (((hreads depth).2 hread).1.resolve_left hfree).1⟩

end Engine

end LiveTemplate.Reactive
