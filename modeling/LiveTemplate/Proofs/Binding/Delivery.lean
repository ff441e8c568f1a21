import LiveTemplate.Proofs.Binding.Attachments
import LiveTemplate.Proofs.Binding.Stocking
import LiveTemplate.Proofs.Reactive.Operations

/-!
# What an attachment has been handed

When an attachment is up to date, the log of its sink holds what the computed has shown, up to what it
shows now (`Engine.Tuned`). This is where an operation starts from, and where it leads to if the attachment
is up to date again (`Engine.Watching.tuned`).

New nodes, and signals that are written to without effects being run, hand nothing on and keep an engine
of bindings one (`Engine.Engaged`).
-/
namespace LiveTemplate.Reactive

variable {σ : Type} {B k : Nat} {log : σ → List Value} {own : NodeId → Prop}

namespace Graph

/-- The effect of an attachment to the computed, between two runs. -/
abbrev attachment (c : NodeId) (push : Value → σ → σ) : NodeKind (Program σ) :=
  .effect (Binding.delivery c (Binding.into push)) false

/-- The node is the effect of an attachment to the computed. -/
def Delivers (g : Graph (Program σ)) (x c : NodeId) : Prop :=
  ∃ n push running, g.node? x = some n ∧
    n.kind = .effect (Binding.delivery c (Binding.into push)) running

variable {g : Graph (Program σ)} {x c : NodeId}

theorem Delivers.hooked (delivers : g.Delivers x c) : (g.shadow B).Hooked x c := by
  obtain ⟨n, push, running, hn, hk⟩ := delivers
  refine ⟨_, running, find_shadow hn, ?_⟩
  rw [Node.kind_recast, hk]
  rfl

theorem shown_shadow {body : Program σ} (found : g.sheet.body? c = some body) :
    (g.shadow B).shown c = (g.shown c).erase := by
  obtain ⟨n, running, last, hn, hk⟩ := body?_eq_some.1 found
  rw [Graph.shadow, shown_recast _ _ hn, shown_eq hn, hk]
  cases last <;> rfl

theorem shadow_insertNode (g : Graph (Program σ)) (kind : NodeKind (Program σ)) (freshness : Freshness)
    (owner : Option ScopeId) : (g.insertNode kind freshness owner).2.shadow B =
      ((g.shadow B).insertNode (kind.recast (shade σ B)) freshness owner).2 := by
  simp only [Graph.shadow, insertNode_recast]

theorem shadow_written (g : Graph (Program σ)) (id : NodeId) (v : Value) (subscribers : List NodeId) :
    (g.written id v subscribers).shadow B = (g.shadow B).written id (.text v.token) subscribers :=
  (written_recast (shade σ B) g id v subscribers).symm

end Graph

namespace Engine

open Reactive.Graph

variable {e e' : Engine σ} {x c id : NodeId} {o : Outcome} {past : List Value} {n : Node (Program σ)}
  {old v : Value} {body : Program σ}

/-- An engine of bindings in the middle of an operation. -/
structure Engaged (B k : Nat) (log : σ → List Value) (own : NodeId → Prop) (e : Engine σ) : Prop where
  stocked : ∃ rank, e.graph.sheet.Stocked k rank
  underway : Underway B k e.graph.sheet log own e

/-- The log of an attachment when it has heard of what the computed shows. -/
structure Tuned (log : σ → List Value) (x c : NodeId) (o : Outcome) (past : List Value) (e : Engine σ) :
    Prop where
  delivers : e.graph.Delivers x c
  calm : e.graph.freshness? x ≠ some .dirty
  shown : (e.graph.shown c).erase = o
  log : log e.host = past

theorem Tuned.watching (tuned : Tuned log x c o past e) (found : e.graph.sheet.body? c = some body) :
    Watching B log x c o past e := by
  refine ⟨tuned.delivers.hooked, [], .same ?_ ?_, by simp [tuned.log]⟩
  · exact fun h => tuned.calm ((freshness?_shadow e x).symm.trans h)
  · exact (shown_shadow found).trans tuned.shown

theorem Engaged.delivers (engaged : Engaged B k log own e) (hooked : (e.graph.shadow B).Hooked x c) :
    e.graph.Delivers x c := by
  obtain ⟨m, running, hm, hk⟩ := hooked
  obtain ⟨n, c', push, _, hn, heq, hkind, -⟩ := engaged.underway.attachment hm hk
  obtain rfl : c = c' := by
    injection heq with hcell
    exact congrArg Cell.node hcell
  exact ⟨n, push, running, hn, hkind⟩

/-- An attachment that is up to date has heard of all there is to hear. -/
theorem Watching.tuned (watching : Watching B log x c o past e) (engaged : Engaged B k log own e)
    (found : e.graph.sheet.body? c = some body) (clean : e.graph.freshness? x = some .clean) :
    ∃ o' past', Tuned log x c o' past' e ∧ (o' = o ∧ past' = past ∨
      o.equals o' = false ∧ past' = past ++ [o'].filterMap Except.toOption) := by
  obtain ⟨hooked, l, heard, hlog⟩ := watching
  have hdelivers := engaged.delivers hooked
  have hcalm : e.graph.freshness? x ≠ some .dirty := by simp [clean]
  have hshown := shown_shadow (B := B) found
  cases heard with
  | same _ same =>
    refine ⟨o, past, ⟨hdelivers, hcalm, hshown.symm.trans same, ?_⟩, .inl ⟨rfl, rfl⟩⟩
    simpa using hlog
  | owed dirty => exact absurd ((freshness?_shadow e x).symm.trans dirty) hcalm
  | told _ _ news =>
    exact ⟨_, _, ⟨hdelivers, hcalm, rfl, hlog.trans (by rw [hshown])⟩, .inr ⟨hshown ▸ news, rfl⟩⟩

theorem Engaged.aside (engaged : Engaged B k log own e)
    (same : ∀ x, e'.graph.node? x = e.graph.node? x) (pending : e'.graph.pending ⊆ e.graph.pending)
    (identities : e.identities ≤ e'.identities) : Engaged B k log own e' := by
  obtain ⟨stocked, underway⟩ := engaged
  rw [← sheet_of_node? same] at stocked underway
  exact ⟨stocked, underway.aside same pending identities⟩

/-- The nodes that there were are as they were, and nothing has been handed on. -/
theorem Tuned.kept (tuned : Tuned log x c o past e) (found : e.graph.sheet.body? c = some body)
    (live : ∀ {y n}, e.graph.node? y = some n → e'.graph.node? y = some n) (host : e'.host = e.host) :
    Tuned log x c o past e' := by
  obtain ⟨⟨n, push, running, hn, hk⟩, calm, shown, hlog⟩ := tuned
  obtain ⟨m, _, _, hm, -⟩ := body?_eq_some.1 found
  refine ⟨⟨n, push, running, live hn, hk⟩, ?_, ?_, host ▸ hlog⟩
  · rwa [freshness?, live hn, ← hn]
  · rwa [shown_eq (live hm), ← shown_eq hm]

/-! ## New nodes -/

section Insert

variable {kind : NodeKind (Program σ)} {freshness : Freshness} {owner : Option ScopeId}
  {own' : NodeId → Prop} {push : Value → σ → σ}

/-- Whose attachments they are does not change with a new node. -/
theorem Wired.insertNode {g : Graph (Program σ)} {p : Program σ} {y : NodeId}
    (wired : Wired log g.sheet own y p) (whose : own' y ↔ own y) :
    Wired log (g.insertNode kind freshness owner).2.sheet own' y p := by
  obtain ⟨c, push, body, rfl, hbody, hown, hother⟩ := wired
  exact ⟨c, push, body, rfl, (within_insertNode g kind freshness owner).body hbody,
    fun h => hown (whose.1 h), fun h => hother fun h' => h (whose.2 h')⟩

theorem Engaged.insertSignal (engaged : Engaged B k log own e) (bound : k ≤ B) {v : Value}
    (plain : v.Plain k) :
    Engaged B k log own { e with graph := (e.graph.insertNode (.signal v) freshness owner).2 } := by
  obtain ⟨⟨rank, stocked⟩, faithful, known, attentive⟩ := engaged
  have hstocked : (e.graph.insertNode (.signal v) freshness owner).2.sheet.Stocked k rank :=
    stocked_insertSignal stocked plain
  refine ⟨⟨rank, hstocked⟩, faithful.insertNode nofun (fun _ w => w.insertNode .rfl) nofun, known, ?_⟩
  have hranked := ranked_shadow (B := B) hstocked bound
  rw [shadow_insertNode] at hranked ⊢
  exact attentive.insertNode (attentive.coherent.insertNode (.text _) nofun nofun) hranked
    (fun n hn => by simp [Node.isRunning, hn, NodeKind.recast]) nofun

theorem Engaged.insertComputed (engaged : Engaged B k log own e) (bound : k ≤ B) {p : Program σ}
    (steady : p.Steady k e.graph.sheet.Lists) : Engaged B k log own
      { e with graph := (e.graph.insertNode (.computed p false none) .dirty owner).2 } := by
  obtain ⟨⟨rank, stocked⟩, faithful, known, attentive⟩ := engaged
  obtain ⟨rank', hstocked⟩ : ∃ rank',
      (e.graph.insertNode (.computed p false none) .dirty owner).2.sheet.Stocked k rank' :=
    stocked_insertComputed stocked steady
  refine ⟨⟨rank', hstocked⟩, faithful.insertNode nofun (fun _ w => w.insertNode .rfl) nofun, known, ?_⟩
  have hranked := ranked_shadow (B := B) hstocked bound
  rw [shadow_insertNode] at hranked ⊢
  exact attentive.insertComputed (Program.lawful_shadow _ _ _) hranked

/-- A new attachment is one's own, and its sink adds to the log, or it is not, and its sink spares it. -/
theorem Engaged.insertEffect (engaged : Engaged B k log own e) (bound : k ≤ B)
    (computes : e.graph.sheet.body? c = some body)
    (whose : ∀ {y n}, e.graph.node? y = some n → (own' y ↔ own y))
    (adds : own' (e.graph.insertNode (attachment c push) .dirty owner).1 →
      ∀ v host, log (push v host) = log host ++ [v])
    (spares : ¬own' (e.graph.insertNode (attachment c push) .dirty owner).1 →
      ∀ v host, log (push v host) = log host) :
    Engaged B k log own' { e with graph := (e.graph.insertNode (attachment c push) .dirty owner).2 } := by
  obtain ⟨⟨rank, stocked⟩, faithful, known, attentive⟩ := engaged
  have hsheet : (e.graph.insertNode (attachment c push) .dirty owner).2.sheet = e.graph.sheet :=
    sheet_insertEffect _ _
  refine ⟨⟨rank, by rwa [hsheet]⟩,
    faithful.insertNode nofun (fun hn w => w.insertNode (whose hn)) ?_, known, ?_⟩
  · rintro _ _ ⟨⟩
    exact ⟨c, push, body, rfl, by rwa [hsheet], adds, spares⟩
  · rw [shadow_insertNode]
    exact attentive.insertEffect (Program.lawful_watch (Binding.delivery c (Binding.into push)))
      (grounded_get stocked bound computes)

end Insert

/-! ## Writes -/

theorem within_written (found : e.graph.node? id = some n) (kind : n.kind = .signal old) (v : Value) :
    e.graph.sheet.Within (e.graph.written id v n.subscribers).sheet where
  value {x w} hw := by
    rw [value?_written found]
    split
    · exact ⟨_, rfl⟩
    · exact ⟨w, hw⟩
  body hb := by rwa [body?_written found kind]

theorem Engaged.written (engaged : Engaged B k log own e) (found : e.graph.node? id = some n)
    (kind : n.kind = .signal old) (plain : v.Plain k) :
    Engaged B k log own { e with graph := e.graph.written id v n.subscribers } := by
  obtain ⟨⟨rank, stocked⟩, ⟨-, told, effects⟩, known, attentive⟩ := engaged
  have hbody : (e.graph.written id v n.subscribers).sheet.body? = e.graph.sheet.body? :=
    body?_written found kind _
  refine ⟨⟨rank, stocked.grow (within_written found kind v) (fun _ => rfl) (Nat.le_refl _)
    (fun {x w} hw => ?_) fun hb => .inl (hbody ▸ hb)⟩, ⟨rfl, fun x b running o hx => ?_,
      fun x p running hx => ?_⟩, known, ?_⟩
  · rw [value?_written found] at hw
    split at hw
    · exact Option.some.inj hw ▸ plain
    · exact stocked.plain hw
  · obtain ⟨m, hm, hk⟩ := Option.map_eq_some_iff.1 hx
    obtain ⟨m₀, hm₀, hd⟩ := written_of_unset found hm fun w => by simp [hk]
    exact told (by rw [hm₀, Option.map_some, ← hd.kind, hk])
  · obtain ⟨m, hm, hk⟩ := Option.map_eq_some_iff.1 hx
    obtain ⟨m₀, hm₀, hd⟩ := written_of_unset found hm fun w => by simp [hk]
    obtain ⟨c, push, b, rfl, hb, hown⟩ := effects (by rw [hm₀, Option.map_some, ← hd.kind, hk])
    exact ⟨c, push, b, rfl, hbody ▸ hb, hown⟩
  · rw [shadow_written]
    exact attentive.written (node?_shadow found) (by rw [Node.kind_recast, kind]; rfl) (.text _)

theorem Tuned.written (tuned : Tuned log x c o past e) (engaged : Engaged B k log own e)
    (computes : e.graph.sheet.body? c = some body) (found : e.graph.node? id = some n)
    (kind : n.kind = .signal old) :
    Tuned log x c o past { e with graph := e.graph.written id v n.subscribers } := by
  obtain ⟨⟨m, push, running, hm, hk⟩, calm, shown, hlog⟩ := tuned
  have hx : x ≠ id := by
    rintro rfl
    obtain rfl := Option.some.inj (found.symm.trans hm)
    simp [kind] at hk
  have hc : c ≠ id := by
    rintro rfl
    have := value?_of_body? computes
    simp [value?_eq_some.2 ⟨n, found, kind⟩] at this
  have hcalm : m.freshness ≠ .dirty := fun h => calm (by rw [freshness?, hm, Option.map_some, h])
  have hspared : x ∉ n.subscribers := by
    intro hmem
    have hsources := engaged.underway.attentive.sources_hooked (node?_shadow hm)
      (by rw [Node.kind_recast, hk]; rfl) hcalm
    have hedge := (engaged.underway.attentive.coherent.linked.edge (node?_shadow hm)
      (node?_shadow found)).2 hmem
    rw [hsources] at hedge
    exact hc (List.mem_singleton.1 hedge).symm
  obtain ⟨m', hm', hd⟩ := (delayed_written e.graph id v n.subscribers).find
    ((revalued_other e.graph v hx).trans hm)
  refine ⟨⟨m', push, running, hm', hd.kind.trans hk⟩, fun h => ?_, ?_, hlog⟩
  · rw [freshness?, hm', Option.map_some, Option.some.injEq] at h
    exact markAll_higher hspared ((revalued_other e.graph v hx).trans hm) hcalm hm' h
  · rw [shown_written hc]
    exact shown

end Engine

end LiveTemplate.Reactive
