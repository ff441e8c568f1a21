import Mathlib.Logic.Relation
import LiveTemplate.Proofs.Reactive.Attention
import LiveTemplate.Proofs.Reactive.Operations

/-!
# Propagation

A top-level write, update or batch first prepares the graph: it brings computeds up to date and
stores values, and no effect runs (`Graph.Prepared`). Then the queue is worked off once. So every
effect runs at most once, after the last write, and sees outcomes from scratch for the values that
are stored in the end (`Engine.Reached.propagates`). An effect runs if it saw something that is no
longer right, and only if a signal was written that it is reachable from.
-/
namespace LiveTemplate.Reactive

namespace Program

variable {σ : Type}

/-- What a client can do at top level to change signals. -/
inductive Operation : Program σ → Prop where
  | set (id : NodeId) {value : Value} (proper : value.Proper) : Operation (set id value)
  | update (id : NodeId) {change : Value → Value} (proper : ∀ v, v.Proper → (change v).Proper) :
      Operation (update id change)
  | batch {body : Program σ} (inner : body.Operates) : Operation (.batch body .done)

/-- A run of the program stores a value in the signal: it comes to a write that is not skipped. -/
def Stores (depth : Nat) (refresh : NodeId → Engine σ → Option (Engine σ)) (p : Program σ)
    (e : Engine σ) (id : NodeId) : Prop :=
  ∃ value next e₁, p.Comes depth refresh e (.write id value next) e₁ ∧
    ¬(e₁.settings.writeEquality = .skipEqual ∧
      ∃ old, e₁.graph.sheet.value? id = some old ∧ old.equals value = true)

end Program

namespace Graph

variable {mode : Bool → Prop} {g h k : Graph (Program Journal)} {wrote : NodeId → Prop}

/-- The second graph comes from the first by bringing computeds up to date and by storing values in
signals of a property. -/
inductive Prepared (wrote : NodeId → Prop) (g : Graph (Program Journal)) :
    Graph (Program Journal) → Prop where
  | refl : Prepared wrote g g
  | refreshed {h k : Graph (Program Journal)} (first : Prepared wrote g h)
      (refreshed : h.Refreshed h.sheet.Computes k) (coherent : k.Coherent) : Prepared wrote g k
  | written {h : Graph (Program Journal)} {id : NodeId} {n : Node (Program Journal)}
      {old value : Value} (first : Prepared wrote g h) (found : h.node? id = some n)
      (kind : n.kind = .signal old) (proper : value.Proper) (stored : wrote id) :
      Prepared wrote g (h.written id value n.subscribers)

theorem Prepared.trans {wrote' : NodeId → Prop} (hp : g.Prepared wrote h) (hp' : h.Prepared wrote' k)
    (weaker : ∀ x, wrote' x → wrote x) : g.Prepared wrote k := by
  induction hp' with
  | refl => exact hp
  | refreshed _ hr hk ih => exact ih.refreshed hr hk
  | written _ found kind proper stored ih => exact ih.written found kind proper (weaker _ stored)

theorem Prepared.sound (hs : g.Sound mode) (hp : g.Prepared wrote h) : h.Sound mode := by
  induction hp with
  | refl => exact hs
  | refreshed _ hr hk ih => exact ih.refreshed hr hk
  | written _ found kind proper _ ih => exact ih.written found kind proper

theorem Prepared.effectAt (hp : g.Prepared wrote h) {x : NodeId} {l : Nat} :
    h.EffectAt x l ↔ g.EffectAt x l := by
  induction hp with
  | refl => rfl
  | refreshed _ hr _ ih => exact (effectAt_of_skeleton (skeleton_of_refreshed hr)).trans ih
  | written _ found kind _ _ ih =>
    exact Iff.trans ⟨effectAt_written found, fun hx => hx.written found kind _ _⟩ ih

theorem Prepared.pays {D : Duty} {journal : Journal} (hs : g.Sound mode) (hp : g.Prepared wrote h)
    (pays : g.Pays D journal) : h.Pays D journal := by
  induction hp with
  | refl => exact pays
  | refreshed _ hr _ ih => exact Pays.refreshed ih hr fun _ hx => hx
  | written first found kind _ _ ih => exact Pays.written (first.sound hs) ih found kind

/-! ## What no write reaches -/

/-- The second node is recorded as a subscriber of the first. -/
def Feeds (g : Graph (Program Journal)) (x y : NodeId) : Prop :=
  ∃ n, g.node? x = some n ∧ y ∈ n.subscribers

/-- The second node can be reached from the first along recorded subscribers. -/
def Reaches (g : Graph (Program Journal)) : NodeId → NodeId → Prop :=
  Relation.ReflTransGen g.Feeds

/-- The nodes of a property are settled cells or clean effects, none of them is queued, and all that
they recorded is of the property. -/
structure Quiet (K : NodeId → Prop) (g : Graph (Program Journal)) : Prop where
  fresh : ∀ {x : NodeId} {n : Node (Program Journal)}, K x → g.node? x = some n →
    n.isSettled = true ∨ n.isEffect = true ∧ n.freshness = .clean
  closed : ∀ {x s : NodeId} {n : Node (Program Journal)}, K x → g.node? x = some n →
    s ∈ n.sources → K s
  unqueued : ∀ {x : NodeId}, K x → x ∉ g.pending

theorem Quiet.refreshed {K : NodeId → Prop} (hK : g.Quiet K)
    (hr : g.Refreshed g.sheet.Computes h) : h.Quiet K := by
  have hkept {x : NodeId} {m : Node (Program Journal)} (hx : K x) (hm : h.node? x = some m) :
      ∃ n, g.node? x = some n ∧ n.Kept m := by
    obtain ⟨n, hn, hkept | ⟨⟨body, hbody⟩, hup⟩⟩ := hr.origin hm
    · exact ⟨n, hn, hkept⟩
    · obtain ⟨n', _, _, hn', hk⟩ := body?_eq_some.1 hbody
      obtain rfl := Option.some.inj (hn.symm.trans hn')
      rcases hK.fresh hx hn with hset | ⟨-, hclean⟩
      · exact absurd ((Node.isSettled_computed hk).1 hset).2 hup.late
      · exact absurd hclean hup.late
  refine ⟨fun {x m} hx hm => ?_, fun {x s m} hx hm hs => ?_, fun hx => ?_⟩
  · obtain ⟨n, hn, hk⟩ := hkept hx hm
    rw [hk.isSettled, hk.clean_iff, Node.isEffect, hk.kind]
    exact hK.fresh hx hn
  · obtain ⟨n, hn, hk⟩ := hkept hx hm
    exact hK.closed hx hn (hk.sources ▸ hs)
  · rw [hr.pending]
    exact hK.unqueued hx

theorem Quiet.written {K : NodeId → Prop} (hg : g.Coherent) (hK : g.Quiet K) {id : NodeId}
    {n : Node (Program Journal)} {value : Value} (found : g.node? id = some n) (far : ¬K id) :
    (g.written id value n.subscribers).Quiet K := by
  have houtward {x y : NodeId} {m : Node (Program Journal)} (hm : g.node? x = some m)
      (hy : y ∈ m.subscribers) (hKy : K y) : K x := by
    obtain ⟨k, hk⟩ := Option.isSome_iff_exists.1 (hg.linked.subscriber_live hm hy)
    exact hK.closed hKy hk ((hg.linked.edge hk hm).2 hy)
  have hspare {x : NodeId} (hx : K x) : ¬g.Carries id x := by
    rintro ⟨n', hn', marked⟩
    induction marked with
    | target mem _ _ => exact far (houtward hn' mem hx)
    | onward _ found mem _ _ ih => exact ih (houtward found mem hx)
  have hsame {x : NodeId} (hx : K x) : (g.written id value n.subscribers).node? x = g.node? x :=
    (written_spared found value (hspare hx)).1 fun h => far (h ▸ hx)
  refine ⟨fun hx hm => ?_, fun hx hm hs => ?_, fun hx hmem => hK.unqueued hx
    ((written_spared found value (hspare hx)).2 hmem)⟩
  · exact hK.fresh hx ((hsame hx).symm.trans hm)
  · exact hK.closed hx ((hsame hx).symm.trans hm) hs

theorem Prepared.quiet {K : NodeId → Prop} (hs : g.Sound mode) (hp : g.Prepared wrote h)
    (hK : g.Quiet K) (far : ∀ x, wrote x → ¬K x) : h.Quiet K := by
  induction hp with
  | refl => exact hK
  | refreshed _ hr _ ih => exact ih.refreshed hr
  | written first found _ _ stored ih =>
    exact ih.written (first.sound hs).coherent found (far _ stored)

/-- At rest, when no effect is late, all that an effect can be reached from is quiet. -/
theorem Sound.quiet (hs : g.Sound mode) (queues : g.QueuesBut none) (minding : g.Minding)
    (rooted : g.Rooted) (drained : g.pending = []) {id : NodeId} {n : Node (Program Journal)}
    (found : g.node? id = some n) (effect : n.isEffect = true) : g.Quiet fun x => g.Reaches x id := by
  have hclean {x : NodeId} {m : Node (Program Journal)} (hm : g.node? x = some m)
      (heffect : m.isEffect = true) : m.freshness = .clean := by
    by_contra hlate
    simpa [drained] using queues hm heffect hlate
  refine ⟨fun {x m} hx hm => ?_, fun {x s m} hx hm hmem => ?_, fun _ => by simp [drained]⟩
  · induction hx using Relation.ReflTransGen.head_induction_on generalizing m with
    | refl =>
      obtain rfl := Option.some.inj (found.symm.trans hm)
      exact .inr ⟨effect, hclean hm effect⟩
    | head hfeeds _ ih =>
      obtain ⟨m', hm', hsub⟩ := hfeeds
      obtain rfl := Option.some.inj (hm.symm.trans hm')
      obtain ⟨k, hk⟩ := Option.isSome_iff_exists.1 (hs.coherent.linked.subscriber_live hm hsub)
      have hmem := (hs.coherent.linked.edge hk hm).2 hsub
      have settled {x : NodeId} (h : g.Settled x) (hx : g.node? x = some m) : m.isSettled = true := by
        obtain ⟨t, ht, hset⟩ := h
        rwa [← Option.some.inj (ht.symm.trans hx)]
      rcases ih hk with hset | ⟨heffect, hclean'⟩
      · cases hkind : k.kind with
        | signal v => simp [rooted hk hkind] at hmem
        | computed body running last =>
          obtain ⟨rfl, hclean'⟩ := (Node.isSettled_computed hkind).1 hset
          exact .inl (settled (hs.coherent.settled hk hkind hclean' _ hmem) hm)
        | effect body running => simp [Node.isSettled, hkind] at hset
      · exact .inl (settled ((minding hk heffect hmem).settled hk hclean') hm)
  · obtain ⟨k, hk⟩ := Option.isSome_iff_exists.1 (hs.coherent.linked.source_live hm hmem)
    exact .head ⟨k, hk, (hs.coherent.linked.edge hm hk).1 hmem⟩ hx

end Graph

/-! ## Before the flush -/

namespace Program

variable {σ : Type} {depth : Nat} {refresh : NodeId → Engine σ → Option (Engine σ)}
  {e e₁ e₂ : Engine σ} {x : NodeId}

theorem Stores.read {cell : Cell} {tracked : Bool} {next : Outcome → Program σ} {r : Outcome}
    (read : e.readCell refresh cell tracked = some (r, e₁)) (h : (next r).Stores depth refresh e₁ x) :
    (Program.read cell tracked next).Stores depth refresh e x := by
  obtain ⟨value, next', e₂, comes, stored⟩ := h
  exact ⟨value, next', e₂, .read read comes, stored⟩

theorem Stores.write {id : NodeId} {value : Value} {next : Except Fault Unit → Program σ}
    {r : Except Fault Unit} (written : e.writeSignal refresh id value = some (r, e₁))
    (h : (next r).Stores depth refresh e₁ x) :
    (Program.write id value next).Stores depth refresh e x := by
  obtain ⟨value', next', e₂, comes, stored⟩ := h
  exact ⟨value', next', e₂, .write written comes, stored⟩

theorem Stores.inner {body : Program σ} {next : Outcome → Program σ}
    (h : body.Stores depth refresh { e with batchDepth := e.batchDepth + 1 } x) :
    (Program.batch body next).Stores depth refresh e x := by
  obtain ⟨value, next', e₂, comes, stored⟩ := h
  exact ⟨value, next', e₂, .inner comes, stored⟩

theorem Stores.batch {body : Program σ} {next : Outcome → Program σ} {r : Outcome}
    {f : Except Fault Unit}
    (ran : body.exec depth refresh { e with batchDepth := e.batchDepth + 1 } = some (r, e₁))
    (flushed : Engine.flush refresh { e₁ with batchDepth := e₁.batchDepth - 1 } = some (f, e₂))
    (h : (next (f.bind fun () => r)).Stores depth refresh e₂ x) :
    (Program.batch body next).Stores depth refresh e x := by
  obtain ⟨value, next', e₃, comes, stored⟩ := h
  exact ⟨value, next', e₃, .batch ran flushed comes, stored⟩

end Program

namespace Engine

open Reactive.Graph

variable {mode : Bool → Prop} {depth d : Nat} {e e' : Engine Journal}

/-- A write in a batch stores the value, or changes nothing. -/
theorem writeSignal_held (depth : Nat) (held : 0 < e.batchDepth) {id : NodeId} {value : Value}
    (proper : value.Proper) {r : Except Fault Unit}
    (written : writeSignal (refreshWithin d) id value e = some (r, e'))
    (next : Except Fault Unit → Program Journal) :
    ∃ g, e' = { e with graph := g } ∧
      e.graph.Prepared ((Program.write id value next).Stores depth (refreshWithin d) e) g := by
  rcases writeSignal_cases written with ⟨-, rfl⟩ | ⟨-, rfl⟩ | ⟨n, old, hn, hk, hstored, hflush⟩
  · exact ⟨e'.graph, rfl, .refl⟩
  · exact ⟨e'.graph, rfl, .refl⟩
  · rw [flush_held (by exact held)] at hflush
    obtain ⟨-, rfl⟩ := Prod.mk.inj (Option.some.inj hflush)
    refine ⟨_, rfl, .written .refl hn hk proper ⟨value, next, e, .here _ _, ?_⟩⟩
    rintro ⟨hskip, old', hold, hequal⟩
    obtain rfl := Option.some.inj ((value?_eq_some.2 ⟨n, hn, hk⟩).symm.trans hold)
    exact hstored ⟨hskip, hequal⟩

/-- In a batch, operations prepare the graph and nothing else. -/
theorem Poised.exec_held {p : Program Journal} (operates : p.Operates) (hp : Poised mode e)
    (held : 0 < e.batchDepth) {o : Outcome} (ran : p.exec depth (refreshWithin d) e = some (o, e')) :
    (∃ g, e' = { e with graph := g } ∧
      e.graph.Prepared (p.Stores depth (refreshWithin d) e) g) ∧ Poised mode e' ∧ o.Proper := by
  induction operates generalizing e e' o with
  | done proper =>
    simp only [Program.exec, Option.some.injEq, Prod.mk.injEq] at ran
    obtain ⟨rfl, rfl⟩ := ran
    exact ⟨⟨e.graph, rfl, .refl⟩, hp, proper⟩
  | read cell tracked rest ih =>
    simp only [Program.exec, Option.bind_eq_some_iff] at ran
    obtain ⟨⟨r, e₁⟩, hread, ran⟩ := ran
    obtain ⟨g, rfl, hr, hg, hfresh⟩ := hp.read hread
    obtain ⟨⟨g', rfl, hprep⟩, hp', ho⟩ := ih r (fresh_proper hg hfresh) (hp.refreshed hr hg) held ran
    exact ⟨⟨g', rfl, (Prepared.refl.refreshed hr hg).trans hprep fun x hx => hx.read hread⟩, hp', ho⟩
  | @write id value next proper rest ih =>
    simp only [Program.exec, Option.bind_eq_some_iff] at ran
    obtain ⟨⟨r, e₁⟩, hwrite, ran⟩ := ran
    have hp₁ := (hp.move (.write proper hwrite trivial : Move mode (fun _ => True) _ _)).1
    obtain ⟨g, rfl, hprep⟩ := writeSignal_held depth held proper hwrite next
    obtain ⟨⟨g', rfl, hprep'⟩, hp', ho⟩ := ih r hp₁ held ran
    exact ⟨⟨g', rfl, hprep.trans hprep' fun x hx => hx.write hwrite⟩, hp', ho⟩
  | batch inner rest ihInner ih =>
    simp only [Program.exec, Option.bind_eq_some_iff] at ran
    obtain ⟨⟨r, e₁⟩, hbody, ⟨f, e₂⟩, hflush, ran⟩ := ran
    have hp₀ := (hp.move (.openBatch e : Move mode (fun _ => True) _ _)).1
    obtain ⟨⟨g, rfl, hprep⟩, hp₁, hproper⟩ := ihInner hp₀ (Nat.succ_pos _) hbody
    have hp₂ := (hp₁.move
      (.closeBatch (Nat.succ_pos _) hflush trivial : Move mode (fun _ => True) _ _)).1
    have hend := hflush
    rw [flush_held (by simpa using held)] at hend
    obtain ⟨-, rfl⟩ := Prod.mk.inj (Option.some.inj hend)
    obtain ⟨⟨g', rfl, hprep'⟩, hp', ho⟩ := ih _ (proper_bind hproper) hp₂ held ran
    exact ⟨⟨g', rfl, (Prepared.refl.trans hprep fun x hx => hx.inner).trans hprep'
      fun x hx => hx.batch hbody hflush⟩, hp', ho⟩

/-- So nothing runs before the batch is closed. -/
theorem Poised.comes_held {p q : Program Journal} (operates : p.Operates) (hp : Poised mode e)
    (held : 0 < e.batchDepth) (comes : p.Comes depth (refreshWithin d) e q e') :
    e'.host = e.host := by
  induction comes with
  | here => rfl
  | @read cell tracked next r e e₁ e₂ q hread _ ih => cases operates with
    | read _ _ rest =>
      obtain ⟨g, rfl, hr, hg, hfresh⟩ := hp.read hread
      exact ih (rest _ (fresh_proper hg hfresh)) (hp.refreshed hr hg) held
  | @write id value next r e e₁ e₂ q hwrite _ ih => cases operates with
    | write _ proper rest =>
      have hp₁ := (hp.move (.write proper hwrite trivial : Move mode (fun _ => True) _ _)).1
      obtain ⟨g, rfl, -⟩ := writeSignal_held depth held proper hwrite next
      exact ih (rest _) hp₁ held
  | @inner body next e e₁ q _ ih => cases operates with
    | batch inner rest =>
      exact ih inner (hp.move (.openBatch e : Move mode (fun _ => True) _ _)).1 (Nat.succ_pos _)
  | @batch body next r f e e₁ e₂ e₃ q hbody hflush _ ih => cases operates with
    | batch inner rest =>
      have hp₀ := (hp.move (.openBatch e : Move mode (fun _ => True) _ _)).1
      obtain ⟨⟨g, rfl, -⟩, hp₁, hproper⟩ := hp₀.exec_held inner (Nat.succ_pos _) hbody
      have hp₂ := (hp₁.move
        (.closeBatch (Nat.succ_pos _) hflush trivial : Move mode (fun _ => True) _ _)).1
      rw [flush_held (by simpa using held)] at hflush
      obtain ⟨-, rfl⟩ := Prod.mk.inj (Option.some.inj hflush)
      exact ih (rest _ (proper_bind hproper)) hp₂ held

/-! ## Whole operations -/

/-- What an operation does before its flush: it prepares the graph. -/
def Readies (depth d : Nat) (p : Program Journal) (e e' : Engine Journal) : Prop :=
  ∃ g, e.graph.Prepared (p.Stores depth (refreshWithin d) e) g ∧
    flush (refreshWithin d) { e with graph := g } = some (.ok (), e')

/-- A write at rest that succeeds stores the value or changes nothing, and then flushes. -/
theorem Poised.set_cases (hp : Poised mode e) (rest : e.batchDepth = 0) {id : NodeId}
    {value v : Value} (ran : (Program.set id value).exec depth (refreshWithin d) e = some (.ok v, e')) :
    ∃ g, flush (refreshWithin d) { e with graph := g } = some (.ok (), e') ∧
      (g = e.graph ∨ ∃ n old, e.graph.node? id = some n ∧ n.kind = .signal old ∧
        ¬(e.settings.writeEquality = .skipEqual ∧ old.equals value = true) ∧
        g = e.graph.written id value n.subscribers) := by
  simp only [Program.set, Program.exec, Option.bind_eq_some_iff] at ran
  obtain ⟨⟨r, e₁⟩, hwrite, ran⟩ := ran
  obtain ⟨rfl, rfl⟩ : r = .ok () ∧ e₁ = e' := by
    cases r with
    | ok => exact ⟨rfl, by simpa [Program.pure, Program.exec] using (Prod.mk.inj (Option.some.inj ran)).2⟩
    | error => simp [Program.fail, Program.exec] at ran
  rcases writeSignal_cases hwrite with ⟨herror, -⟩ | ⟨-, rfl⟩ | ⟨n, old, hn, hk, hstored, hflush⟩
  · cases herror
  · exact ⟨e₁.graph, flush_rest rest hp.still (hp.drained rest), .inl rfl⟩
  · exact ⟨_, hflush, .inr ⟨n, old, hn, hk, hstored, rfl⟩⟩

theorem Poised.readies_set (hp : Poised mode e) (rest : e.batchDepth = 0) {id : NodeId}
    {value v : Value} (proper : value.Proper)
    (ran : (Program.set id value).exec depth (refreshWithin d) e = some (.ok v, e')) :
    Readies depth d (.set id value) e e' := by
  obtain ⟨g, hflush, rfl | ⟨n, old, hn, hk, hstored, rfl⟩⟩ := hp.set_cases rest ran
  · exact ⟨e.graph, .refl, hflush⟩
  · refine ⟨_, .written .refl hn hk proper ⟨value, _, e, .here _ _, ?_⟩, hflush⟩
    rintro ⟨hskip, old', hold, hequal⟩
    obtain rfl := Option.some.inj ((value?_eq_some.2 ⟨n, hn, hk⟩).symm.trans hold)
    exact hstored ⟨hskip, hequal⟩

theorem Poised.readies {p : Program Journal} (operation : p.Operation) (hp : Poised mode e)
    (rest : e.batchDepth = 0) {v : Value}
    (ran : p.exec depth (refreshWithin d) e = some (.ok v, e')) : Readies depth d p e e' := by
  cases operation with
  | set id proper => exact hp.readies_set rest proper ran
  | @update id change proper =>
    simp only [Program.update, Program.peek, Program.bind, Program.handle, Program.exec,
      Option.bind_eq_some_iff] at ran
    obtain ⟨⟨r, e₁⟩, hread, ran⟩ := ran
    obtain ⟨g, rfl, hr, hg, hfresh⟩ := hp.read hread
    cases r with
    | error => simp [Program.fail, Program.exec] at ran
    | ok current =>
      obtain ⟨g', hprep, hflush⟩ :=
        (hp.refreshed hr hg).readies_set rest (proper _ (fresh_proper hg hfresh)) ran
      exact ⟨g', (Prepared.refl.refreshed hr hg).trans hprep fun x hx => hx.read hread, hflush⟩
  | batch inner =>
    simp only [Program.exec, Option.bind_eq_some_iff] at ran
    obtain ⟨⟨r, e₁⟩, hbody, ⟨f, e₂⟩, hflush, ran⟩ := ran
    have hp₀ := (hp.move (.openBatch e : Move mode (fun _ => True) _ _)).1
    obtain ⟨⟨g, rfl, hprep⟩, -⟩ := hp₀.exec_held inner (Nat.succ_pos _) hbody
    obtain ⟨hend, rfl⟩ := Prod.mk.inj (Option.some.inj ran)
    obtain rfl : f = .ok () := by
      cases f with
      | ok => rfl
      | error => cases hend
    exact ⟨g, Prepared.refl.trans hprep fun x hx => hx.inner, hflush⟩

theorem Poised.set_unheld {q : Program Journal} (hp : Poised mode e) {id : NodeId} {value : Value}
    (proper : value.Proper)
    (comes : (Program.set id value).Comes depth (refreshWithin d) e q e') :
    e'.batchDepth = e.batchDepth := by
  cases comes with
  | here => rfl
  | write hwrite rest =>
    have hdepth := hp.batchDepth_write proper hwrite
    rename_i r e₁
    cases r <;> cases rest <;> exact hdepth

/-- As long as a batch is open, no effect has run. -/
theorem Poised.operation_held {p q : Program Journal} (operation : p.Operation) (hp : Poised mode e)
    (rest : e.batchDepth = 0) (comes : p.Comes depth (refreshWithin d) e q e')
    (held : 0 < e'.batchDepth) : e'.host = e.host := by
  cases operation with
  | set id proper =>
    have hdepth := hp.set_unheld proper comes
    omega
  | update id proper =>
    cases comes with
    | here => rfl
    | read hread comes =>
      obtain ⟨g, rfl, hr, hg, hfresh⟩ := hp.read hread
      rename_i r
      cases r with
      | error =>
        cases comes
        rfl
      | ok current =>
        have hdepth := (hp.refreshed hr hg).set_unheld (proper _ (fresh_proper hg hfresh)) comes
        simp only at hdepth
        omega
  | batch inner =>
    have hp₀ := (hp.move (.openBatch e : Move mode (fun _ => True) _ _)).1
    cases comes with
    | here => rfl
    | inner comes =>
      exact Poised.comes_held (e := { e with batchDepth := e.batchDepth + 1 }) inner hp₀
        (Nat.succ_pos _) comes
    | batch hbody hflush comes =>
      obtain ⟨⟨g, rfl, -⟩, hp₁, -⟩ := hp₀.exec_held inner (Nat.succ_pos _) hbody
      cases comes
      have hdepth := batchDepth_flush (e := { e with graph := g, batchDepth := e.batchDepth + 1 - 1 })
        hp₁.sound hp₁.still hflush
      simp only at hdepth
      omega

/-- At rest, what an effect saw last is right, as long as no flush has given up. -/
theorem Reached.right_latest {settings : Settings} (tracked : ∀ t, mode t → t = true)
    (reached : Reached mode Calm settings e) (rest : e.batchDepth = 0) {id : NodeId} {label : Nat}
    (hat : e.graph.EffectAt id label) {r : Reading} (hr : r ∈ e.host.latest label) :
    r.Right e.graph.sheet := by
  have hp := reached.poised
  obtain ⟨n, hn, heffect⟩ := hat.isEffect
  have hclean : n.freshness = .clean := by
    by_contra hlate
    simpa [hp.drained rest] using reached.upholds (upheld_queues mode Calm) hn heffect hlate
  rcases (reached.upholds (upheld_pays tracked)).1 hat hr with hheeds | hgone
  · obtain ⟨o, hgives, halike⟩ := hp.sound.right
      (.inl ⟨hheeds.holds, hheeds.settled hn hclean, rfl⟩ : e.graph.Fresh ⟨r.cell, e.graph.shown r.cell.node⟩)
    exact ⟨o, hgives, (hheeds.alike hn (by simp [hclean])).symm.trans halike⟩
  · exact hp.sound.right (.inr hgone)

theorem Reached.set {settings : Settings} {allowed : Except Fault Unit → Prop}
    (calm : ∀ r, Calm r → allowed r) (reached : Reached mode allowed settings e) {id : NodeId}
    {value v : Value} (proper : value.Proper)
    (ran : (Program.set id value).exec depth (refreshWithin d) e = some (.ok v, e')) :
    Reached mode allowed settings e' ∧ e'.batchDepth = e.batchDepth := by
  simp only [Program.set, Program.exec, Option.bind_eq_some_iff] at ran
  obtain ⟨⟨r, e₁⟩, hwrite, ran⟩ := ran
  cases r with
  | error => simp [Program.fail, Program.exec] at ran
  | ok =>
    obtain ⟨-, rfl⟩ := Prod.mk.inj (Option.some.inj ran)
    exact ⟨reached.move (.write proper hwrite (calm _ calm_ok)),
      reached.poised.batchDepth_write proper hwrite⟩

/-- An operation at rest that succeeds leaves an engine at rest. -/
theorem Reached.operation {settings : Settings} {allowed : Except Fault Unit → Prop}
    (calm : ∀ r, Calm r → allowed r) (reached : Reached mode allowed settings e)
    (rest : e.batchDepth = 0) {p : Program Journal} (operation : p.Operation) {v : Value}
    (ran : p.exec depth (refreshWithin d) e = some (.ok v, e')) :
    Reached mode allowed settings e' ∧ e'.batchDepth = 0 := by
  cases operation with
  | set id proper =>
    obtain ⟨reached', hdepth⟩ := reached.set calm proper ran
    exact ⟨reached', hdepth.trans rest⟩
  | update id proper =>
    simp only [Program.update, Program.peek, Program.bind, Program.handle, Program.exec,
      Option.bind_eq_some_iff] at ran
    obtain ⟨⟨r, e₁⟩, hread, ran⟩ := ran
    obtain ⟨reached₁, hdepth, hproper⟩ := reached.of_read hread
    cases r with
    | error => simp [Program.fail, Program.exec] at ran
    | ok current =>
      obtain ⟨reached', hdepth'⟩ := reached₁.set calm (proper _ hproper) ran
      exact ⟨reached', hdepth'.trans (hdepth.trans rest)⟩
  | batch inner =>
    simp only [Program.exec, Option.bind_eq_some_iff] at ran
    obtain ⟨⟨r, e₁⟩, hbody, ⟨f, e₂⟩, hflush, ran⟩ := ran
    have free : Free allowed { e with batchDepth := e.batchDepth + 1 } :=
      fun r hr => calm r (hr (Nat.succ_pos _))
    obtain ⟨reached₁, hdepth, -⟩ := (reached.move (.openBatch e)).exec inner free hbody
    obtain ⟨hend, rfl⟩ := Prod.mk.inj (Option.some.inj ran)
    obtain rfl : f = .ok () := by
      cases f with
      | ok => rfl
      | error => cases hend
    simp only at hdepth
    have hdepth' := batchDepth_flush (e := { e₁ with batchDepth := e₁.batchDepth - 1 })
      reached₁.poised.sound reached₁.poised.still hflush
    simp only at hdepth'
    refine ⟨reached₁.move (.closeBatch (by omega) hflush (calm _ calm_ok)), ?_⟩
    change e₂.batchDepth = 0
    omega

/-- What an operation is to do: it runs effects that were live before, each at most once and after
the last batch is closed, and all that they read is right in the end. An effect runs if something
that it saw last is wrong now, and it does not run if it cannot be reached from a signal in which the
operation stores a value. -/
structure Propagated (depth : Nat) (p : Program Journal) (e e' : Engine Journal) (recs : Journal) :
    Prop where
  host : e'.host = e.host ++ recs
  once : (recs.map (·.label)).Nodup
  live : ∀ s ∈ recs, ∃ id, e.graph.EffectAt id s.label
  held : ∀ {q : Program Journal} {e₁ : Engine Journal}, p.Comes depth (refreshWithin depth) e q e₁ →
    0 < e₁.batchDepth → e₁.host = e.host
  right : ∀ s ∈ recs, ∀ r ∈ s.readings, r.Right e'.graph.sheet
  wakes : ∀ {id : NodeId} {label : Nat}, e.graph.EffectAt id label → ∀ r ∈ e.host.latest label,
    ∀ o, e'.graph.sheet.Gives r.cell o → ¬r.outcome.Alike o → ∃ s ∈ recs, s.label = label
  spares : ∀ {id : NodeId} {label : Nat}, e.graph.EffectAt id label →
    (∀ x, p.Stores depth (refreshWithin depth) e x → ¬e.graph.Reaches x id) →
      ∀ s ∈ recs, s.label ≠ label

/-- Propagation is exact and without glitches, as long as no flush has given up. -/
theorem Reached.propagates {settings : Settings} {e e' : Engine Journal}
    (reached : Reached (· = true) Calm settings e) (rest : e.batchDepth = 0) {p : Program Journal}
    (operation : p.Operation) {depth : Nat} {v : Value} (ran : run depth p e = some (.ok v, e')) :
    ∃ recs, Propagated depth p e e' recs := by
  have hp := reached.poised
  obtain ⟨g, hprep, hflush⟩ := hp.readies operation rest ran
  obtain ⟨honward, -, recs, hhost, hrec, -⟩ := flush_spec (e := { e with graph := g })
    (attends_refreshWithin _ depth) (hprep.sound hp.sound) hp.still hflush
  refine ⟨recs, hhost, hrec.nodup, fun s hs => ?_, fun comes held => ?_, fun s hs r hr => ?_,
    fun {id label} hat r hr o hgives hwrong => ?_, fun {id label} hat far s hs hlabel => ?_⟩
  · obtain ⟨id, -, hat⟩ := hrec.queued s hs
    exact ⟨id, hprep.effectAt.1 hat⟩
  · exact hp.operation_held operation rest comes held
  · exact honward.sound.right (hrec.fresh s hs r hr)
  · -- otherwise the effect would have seen last what it saw before, and that would be right
    by_contra hunseen
    obtain ⟨reached', rest'⟩ := reached.operation (fun _ h => h) rest operation ran
    have hlatest : r ∈ e'.host.latest label := by
      rw [hhost, Journal.latest_of_unseen fun s hs hlabel => hunseen ⟨s, hs, hlabel⟩]
      exact hr
    have hat' : e'.graph.EffectAt id label := honward.effects.2 (hprep.effectAt.2 hat)
    obtain ⟨o', hgives', halike⟩ := reached'.right_latest (fun _ h => h) rest' hat' hlatest
    rw [hgives'.functional hgives] at halike
    exact hwrong halike
  · obtain ⟨x, hx, hat'⟩ := hrec.queued s hs
    obtain rfl : x = id := hp.sound.distinct (hprep.effectAt.1 hat') (hlabel ▸ hat)
    obtain ⟨n, hn, heffect⟩ := hat.isEffect
    have hquiet := hp.sound.quiet (reached.upholds (upheld_queues _ Calm))
      (reached.upholds (upheld_minding _)) (reached.upholds (upheld_rooted _ Calm)) (hp.drained rest)
      hn heffect
    exact (hprep.quiet hp.sound hquiet far).unqueued .refl hx

theorem propagates_small : ∃ v e', run 5 (.set Small.second (.bool true)) Small.engine =
    some (.ok v, e') ∧ ∃ recs, Propagated 5 (.set Small.second (.bool true)) Small.engine e' recs := by
  obtain ⟨v, e', ran⟩ := succeeds_iff.1 (show succeeds 5 (.set Small.second (.bool true)) Small.engine
    from by decide +kernel)
  have reached := @Small.reached_engine (· = true) rfl Calm
  exact ⟨v, e', ran, reached.propagates (by decide +kernel) (.set _ (.bool true)) ran⟩

end Engine

end LiveTemplate.Reactive
