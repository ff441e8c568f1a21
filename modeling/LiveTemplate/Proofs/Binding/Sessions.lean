import Mathlib.Data.List.Destutter
import LiveTemplate.Proofs.Binding.Clients
import LiveTemplate.Proofs.Binding.Rendering
import LiveTemplate.Proofs.Reactive.Moments
import LiveTemplate.Proofs.Reactive.Quiescence

/-!
# Deliveries over a session

In a session a client makes bindings, attaches sinks and writes to signals, one operation after the other,
and disposes of nothing (`Binding.Operation`). The sink of an attachment to a text or attribute binding is
handed exactly what one would get by rendering the template again after each operation
(`Binding.delivered_exactly_once`): no update is lost, none is delivered twice, and nothing that a batch
passes through is delivered.

Between two operations the engine is at rest, so every attachment is up to date (`Engine.Waiting`). It
then shows what a rendering gives, and the next operation hands on what the binding shows after it if
this is news (`Engine.Waiting.hears`); the log follows by induction on the operations.
-/
namespace LiveTemplate

open Reactive

variable {σ : Type}

namespace Binding

/-- The cells that a context may hold: signals, and the computeds of text and attribute bindings. -/
def Offered (g : Graph (Program σ)) (cell : Cell) : Prop :=
  match cell.kind with
  | .signal => ∃ v, g.sheet.value? cell.node = some v
  | .computed => ∃ kind t context, kind ≠ BindingKind.property ∧
      g.sheet.body? cell.node = some (body kind t context)

/-- What a client does: nothing is disposed of, signals hold plain data, contexts hold plain data and
cells on offer, and whoever writes to the log is attached already. -/
inductive Operation (log : σ → List Value) (e : Engine σ) : Program σ → Prop where
  | fresh (next : Nat → Outcome) : Operation log e (.fresh fun i => .done (next i))
  | scope (parent : Option ScopeId) (next : Except Fault ScopeId → Outcome) :
      Operation log e (.newScope parent fun r => .done (next r))
  | signal {v : Value} (plain : v.Plain e.identities) (next : NodeId → Outcome) :
      Operation log e (.newSignal v fun id => .done (next id))
  | bind (kind : BindingKind) {source : String} {t : Template} (parsed : Template.parse source = .ok t)
      {context : Value} (made : context.Made e.identities (Offered e.graph)) (owner : Option ScopeId)
      (next : Except Fault NodeId → Outcome) :
      Operation log e (bind kind t context owner fun r => .done (next r))
  | attach {c : NodeId} {p : Program σ} (computes : e.graph.sheet.body? c = some p) (owner : ScopeId)
      {push : Value → σ → σ} (spares : ∀ v host, log (push v host) = log host)
      (next : Except Fault NodeId → Outcome) :
      Operation log e (attach c owner (into push) fun r => .done (next r))
  | set (id : NodeId) {v : Value} (plain : v.Plain e.identities) : Operation log e (.set id v)
  | update (id : NodeId) {change : Value → Value}
      (plain : ∀ v, v.Plain e.identities → (change v).Plain e.identities) :
      Operation log e (.update id change)
  | batch {p : Program σ} (writes : p.Writes e.identities) : Operation log e (.batch p .done)

/-- An operation that was not given up leads from one engine to the other. -/
def Step (log : σ → List Value) (e e' : Engine σ) : Prop :=
  ∃ p depth o, Operation log e p ∧ Engine.run depth p e = some (o, e') ∧
    ∀ runs, o ≠ .error (.reactive (.unsettled runs))

/-- With enough depth, a rendering of the template against the context returns, and gives this. -/
def Renders (source : String) (context : Value) (e : Engine σ) (o : Outcome) : Prop :=
  ∃ enough, ∀ depth, enough ≤ depth →
    ∃ e', Engine.run depth (Template.renderOnce source context) e = some (o, e')

theorem tells_body {kind : BindingKind} (coerced : kind ≠ .property) (t : Template) (context : Value) :
    (body (σ := σ) kind t context).Tells := by
  rw [body_eq_render coerced]
  exact Template.tells_render t context

theorem Offered.lists {g : Graph (Program σ)} {cell : Cell} (h : Offered g cell) : g.sheet.Lists cell := by
  obtain ⟨kind, id⟩ := cell
  cases kind with
  | signal => exact h
  | computed =>
    obtain ⟨kind, t, context, coerced, found⟩ := h
    exact ⟨_, found, tells_body coerced t context⟩

end Binding

namespace Reactive.Engine

open Binding Reactive.Graph

variable {log : σ → List Value} {own : NodeId → Prop} {e e' : Engine σ} {p : Program σ} {B k : Nat}
  {depth : Nat} {o : Outcome}

/-- An engine of bindings between two operations. -/
structure Waiting (log : σ → List Value) (own : NodeId → Prop) (e : Engine σ) : Prop where
  quiescent : e.Quiescent
  engaged : ∀ B, e.identities ≤ B → Engaged B e.identities log own e

theorem Engaged.later (engaged : Engaged B k log own e) : Engaged B e.identities log own e := by
  obtain ⟨⟨rank, stocked⟩, faithful, known, attentive⟩ := engaged
  refine ⟨⟨rank, ?_⟩, faithful, Nat.le_refl _, attentive⟩
  exact stocked.grow ⟨fun hv => ⟨_, hv⟩, fun hb => hb⟩ (fun _ => rfl) known
    (fun hv => (stocked.plain hv).mono known fun _ h => h) fun hb => .inl hb

theorem waiting_start (log : σ → List Value) (own : NodeId → Prop) (settings : Settings) (host : σ) :
    Waiting log own (start settings host) := by
  refine ⟨quiescent_start settings host, fun B _ => ⟨⟨fun _ => 0, nofun, ?_⟩,
    ⟨rfl, nofun, nofun⟩, Nat.le_refl _, ?_⟩⟩
  · rintro _ _ ⟨⟩
  · exact attentive_empty.congr (fun x => node?_recast _ _ x) (List.Subset.refl _)

theorem Engaged.advances (engaged : Engaged B e.identities log own e) (bound : e.identities ≤ B)
    (others : ∀ y, e.graph.node? y = none → ¬own y) (operation : Operation log e p) :
    Advances B e.identities log own p e := by
  cases operation with
  | fresh next => exact advances_fresh engaged next
  | scope parent next => exact advances_scope engaged parent next
  | signal plain next => exact advances_signal engaged bound plain next
  | bind kind parsed made owner next =>
    exact advances_bind engaged bound kind (Template.written_of_parse parsed)
      (made.mono (Nat.le_refl _) fun _ h => h.lists) owner next
  | attach computes owner spares next => exact advances_attach engaged bound computes spares others owner next
  | set id plain => exact advances_set engaged bound id plain
  | update id plain => exact advances_update engaged bound id plain
  | batch writes => exact advances_batch engaged bound writes

/-- One operation, and the engine waits for the next one. -/
theorem Waiting.step (waiting : Waiting log own e) (others : ∀ y, e.graph.node? y = none → ¬own y)
    (step : Step log e e') :
    Waiting log own e' ∧ ∀ B, e'.identities ≤ B → Progress B e.identities log own e e' := by
  obtain ⟨p, depth, o, operation, ran, calm⟩ := step
  have hprogress (B : Nat) (bound : e.identities ≤ B) : Progress B e.identities log own e e' := by
    obtain ⟨depth', o', e'', ran', hprogress⟩ := (waiting.engaged B bound).advances bound others operation
    obtain ⟨rfl, rfl⟩ := run_agree ran ran'
    exact hprogress calm
  have hidentities := (hprogress _ (Nat.le_refl _)).identities
  obtain ⟨_, course⟩ := run_course ran
  exact ⟨⟨waiting.quiescent.course course (run_framed ran).length,
      fun B bound => (hprogress B (hidentities.trans bound)).engaged.later⟩,
    fun B bound => hprogress B (hidentities.trans bound)⟩

theorem waiting_of_steps {settings : Settings} {host : σ}
    (steps : Relation.ReflTransGen (Step log) (start settings host) e) :
    Waiting log (fun _ => False) e := by
  induction steps with
  | refl => exact waiting_start log _ settings host
  | tail _ step ih => exact (ih.step (fun _ _ h => h) step).1

theorem insertOwned_of_live {g : Graph (Program σ)} {owner : ScopeId}
    (live : (g.scope? owner).isSome = true) (kind : NodeKind (Program σ)) :
    ∃ id h, g.insertOwned kind owner = some (id, h) :=
  ⟨_, _, if_pos live⟩

section Delivering

variable {x c : NodeId} {past : List Value} {source : String} {t : Template} {kind : BindingKind}
  {context : Value}

theorem Quiescent.clean (h : e.Quiescent) (delivers : e.graph.Delivers x c) :
    e.graph.freshness? x = some .clean := by
  obtain ⟨n, push, running, hn, hk⟩ := delivers
  rw [freshness?, hn, Option.map_some, h.effects hn (by simp [Node.isEffect, hk])]

/-- Between two operations an attachment has heard of what a rendering gives. -/
theorem Waiting.renders (waiting : Waiting log own e)
    (found : e.graph.sheet.body? c = some (body kind t context)) (coerced : kind ≠ .property)
    (parsed : Template.parse source = .ok t) (tuned : Tuned log x c o past e) :
    o.Flat ∧ Renders source context e o := by
  have hengaged := waiting.engaged _ (Nat.le_refl _)
  obtain ⟨n, running, hn, hk⟩ := tuned.delivers.hooked (B := e.identities)
  have hclean : n.freshness = .clean := by
    have := (freshness?_shadow (B := e.identities) e x).trans (waiting.quiescent.clean tuned.delivers)
    rw [freshness?, show (e.shadow e.identities).graph.node? x = some n from hn, Option.map_some] at this
    exact Option.some.inj this
  have hattentive := hengaged.underway.attentive
  have hsettled : (e.graph.shadow e.identities).Settled c := hattentive.settled hn hk hclean c (by
    simp [hattentive.sources_hooked hn hk (by simp [hclean])])
  have honce : Template.renderOnce (σ := σ) source context = .untrack (t.render context) .done := by
    simp only [Template.renderOnce, parsed]
  have hrenders := hengaged.renders (Nat.le_refl _) found (tells_body coerced t context) hsettled
  rwa [tuned.shown, body_eq_render coerced, ← honce] at hrenders

/-- After one's own sink is attached. -/
theorem Waiting.attached (waiting : Waiting log (fun _ => False) e) (found : e.graph.sheet.body? c = some p)
    (tells : p.Tells) {push : Value → σ → σ} (adds : ∀ v host, log (push v host) = log host ++ [v])
    {owner : ScopeId} {g : Graph (Program σ)}
    (inserted : e.graph.insertOwned (attachment c push) owner = some (x, g))
    {next : Except Fault NodeId → Outcome}
    (ran : run depth (Binding.attach c owner (into push) fun r => .done (next r)) e = some (o, e')) :
    Waiting log (· = x) e' ∧ e'.graph.sheet.body? c = some p ∧
      ∃ o', Tuned log x c o' (log e.host ++ [o'].filterMap Except.toOption) e' := by
  have hattach (B : Nat) (bound : e.identities ≤ B) : Engaged B e.identities log (· = x) e' ∧
      e.identities ≤ e'.identities ∧ e'.graph.sheet.body? c = some p ∧
        ∃ o', Tuned log x c o' (log e.host ++ [o'].filterMap Except.toOption) e' := by
    obtain ⟨depth', e'', ran', h⟩ := attach_tuned (waiting.engaged B bound) bound found tells adds
      (fun _ h => h) inserted next
    obtain ⟨-, rfl⟩ := run_agree ran ran'
    exact h
  obtain ⟨-, identities, hfound, htuned⟩ := hattach _ (Nat.le_refl _)
  obtain ⟨_, course⟩ := run_course ran
  exact ⟨⟨waiting.quiescent.course course (run_framed ran).length,
    fun B bound => (hattach B (identities.trans bound)).1.later⟩, hfound, htuned⟩

theorem Waiting.hears (waiting : Waiting log (· = x) e)
    (found : e.graph.sheet.body? c = some (body kind t context)) (coerced : kind ≠ .property)
    (flat : o.Flat) (tuned : Tuned log x c o past e) (step : Step log e e') :
    Waiting log (· = x) e' ∧ e'.graph.sheet.body? c = some (body kind t context) ∧
      ∃ o' past', Tuned log x c o' past' e' ∧ (o' = o ∧ past' = past ∨
        o.equals o' = false ∧ past' = past ++ [o'].filterMap Except.toOption) := by
  obtain ⟨n, _, _, hn, -⟩ := tuned.delivers
  obtain ⟨hwaiting, hprogress⟩ := waiting.step (fun y hy h => by simp [h, hn] at hy) step
  have hprogress := hprogress _ (Nat.le_refl _)
  have hfound := hprogress.body found
  have hwatching := hprogress.watching rfl flat found (tells_body coerced t context) tuned
  exact ⟨hwaiting, hfound, hwatching.tuned hprogress.engaged hfound
    (hwaiting.quiescent.clean (hprogress.engaged.delivers hwatching.hooked))⟩

theorem Waiting.delivers (waiting : Waiting log (· = x) e)
    (found : e.graph.sheet.body? c = some (body kind t context)) (coerced : kind ≠ .property)
    (parsed : Template.parse source = .ok t) {base : List Value}
    (tuned : Tuned log x c o (base ++ [o].filterMap Except.toOption) e) {later : List (Engine σ)}
    (after : List.IsChain (Step log) (e :: later)) :
    ∃ results, List.Forall₂ (Renders source context) later results ∧
      log (later.getLastD e).host =
        base ++ (results.destutter' (fun o o' => o.equals o' = false) o).filterMap Except.toOption := by
  obtain ⟨flat, -⟩ := waiting.renders found coerced parsed tuned
  induction later generalizing e o base with
  | nil => exact ⟨[], .nil, tuned.log⟩
  | cons e' later ih =>
    obtain ⟨step, after⟩ := List.isChain_cons_cons.1 after
    obtain ⟨hwaiting, hfound, o', past', htuned, hnews⟩ := waiting.hears found coerced flat tuned step
    obtain ⟨flat', hrenders⟩ := hwaiting.renders hfound coerced parsed htuned
    rw [List.getLastD_cons]
    rcases hnews with ⟨rfl, rfl⟩ | ⟨news, rfl⟩
    · obtain ⟨results, hresults, hlog⟩ := ih hwaiting hfound htuned after flat'
      refine ⟨o' :: results, .cons hrenders hresults, ?_⟩
      rw [hlog, List.destutter'_cons, if_neg (by simp [flat'.equals_self])]
    · obtain ⟨results, hresults, hlog⟩ := ih hwaiting hfound htuned after flat'
      refine ⟨o' :: results, .cons hrenders hresults, ?_⟩
      rw [hlog, List.destutter'_cons, if_pos news, List.append_assoc, ← List.filterMap_append]
      rfl

end Delivering

end Reactive.Engine

namespace Binding

open Reactive.Engine Reactive.Graph

/-- Whatever a client has done so far, its next operation returns. -/
theorem Operation.returns {log : σ → List Value} {settings : Settings} {host : σ} {e : Engine σ}
    (before : Relation.ReflTransGen (Step log) (start settings host) e) {p : Program σ}
    (operation : Operation log e p) : ∃ depth o e', run depth p e = some (o, e') := by
  obtain ⟨depth, o, e', ran, -⟩ := ((waiting_of_steps before).engaged _ (Nat.le_refl _)).advances
    (Nat.le_refl _) (fun _ _ h => h) operation
  exact ⟨depth, o, e', ran⟩

/-- The sink of an attachment is handed exactly what renderings of its template would give: at the moment
of attaching and after each later operation, but for failures and for what is the same as before. -/
theorem delivered_exactly_once {log : σ → List Value} {settings : Settings} {host : σ}
    {e₀ e₁ : Engine σ} (before : Relation.ReflTransGen (Step log) (start settings host) e₀)
    {source : String} {t : Template} (parsed : Template.parse source = .ok t) {kind : BindingKind}
    (coerced : kind ≠ .property) {context : Value} {c : NodeId}
    (bound : e₀.graph.sheet.body? c = some (body kind t context)) {owner : ScopeId}
    (live : (e₀.graph.scope? owner).isSome = true) {push : Value → σ → σ}
    (adds : ∀ v host, log (push v host) = log host ++ [v]) {next : Except Fault NodeId → Outcome}
    {depth : Nat} {o : Outcome}
    (attached : run depth (attach c owner (into push) fun r => .done (next r)) e₀ = some (o, e₁))
    {later : List (Engine σ)} (after : List.IsChain (Step log) (e₁ :: later)) :
    ∃ results, List.Forall₂ (Renders source context) (e₁ :: later) results ∧
      log (later.getLastD e₁).host = log e₀.host ++
        (results.destutter fun o o' => o.equals o' = false).filterMap Except.toOption := by
  have hbefore := waiting_of_steps before
  obtain ⟨x, g, inserted⟩ := insertOwned_of_live live (attachment c push)
  obtain ⟨hwaiting, hfound, o₁, htuned⟩ := hbefore.attached bound (tells_body coerced t context) adds
    inserted attached
  obtain ⟨-, hrenders⟩ := hwaiting.renders hfound coerced parsed htuned
  obtain ⟨results, hresults, hlog⟩ := hwaiting.delivers hfound coerced parsed htuned after
  exact ⟨o₁ :: results, .cons hrenders hresults, by rw [hlog, List.destutter_cons']⟩

namespace Greeting

def settings : Settings := ⟨.skipEqual, 8, by decide⟩

def cell : NodeId := ⟨0, 0⟩

def greeting : NodeId := ⟨1, 0⟩

def scope : ScopeId := ⟨0, 0⟩

def source : String := "hi $\x7bx\x7d"

def template : Template := ⟨source, [.text "hi ", .expression "x" (.path [.key "x"])]⟩

def context : Value := .object 0 [("x", .cell ⟨.signal, cell⟩)]

def push (v : Value) (host : List Value) : List Value :=
  host ++ [v]

def owning : Engine (List Value) :=
  { start settings [] with graph := (start settings [] : Engine (List Value)).graph.insertScope.2 }

def named : Engine (List Value) :=
  { owning with identities := 1 }

def holding : Engine (List Value) :=
  { named with graph := (named.graph.insertNode (.signal (.text "a")) .clean none).2 }

def bound : Engine (List Value) :=
  { holding with
    graph := (holding.graph.insertNode (.computed (body .text template context) false none) .dirty none).2 }

def attaching : Program (List Value) :=
  attach greeting scope (into push) fun _ => .done (.ok .undefined)

/-- Two writes in one batch. -/
def writing : Program (List Value) :=
  .write cell (.text "b") fun _ => .set cell (.text "c")

def attached : Engine (List Value) :=
  ((run 6 attaching bound).get (by cbv)).2

def written : Engine (List Value) :=
  ((run 6 (.batch writing .done) attached).get (by cbv)).2

theorem parse_source : Template.parse source = .ok template := by
  have tokens : Token.tokenize "x" = .ok [⟨.name, "x", 0⟩] := by cbv
  have accepted : Expr.parse "x" = .ok (.path [.key "x"]) := by
    rw [Expr.parse, tokens]
    rfl
  have cut : Chunk.scan source = .ok [.text "hi ", .region "x" 5] := by cbv
  rw [Template.parse, if_pos (by decide), cut]
  simp [Template.partsOfChunks, accepted, Except.map, template]

theorem run_attaching : run 6 attaching bound = some (.ok .undefined, attached) := by cbv

theorem run_writing : run 6 (.batch writing .done) attached = some (.ok .undefined, written) := by cbv

theorem steps_bound : Relation.ReflTransGen (Step id) (start settings []) bound := by
  have owns : Step id (start settings []) owning :=
    ⟨_, 0, _, .scope none fun _ => .ok .undefined, rfl, nofun⟩
  have names : Step id owning named := ⟨_, 0, _, .fresh fun _ => .ok .undefined, rfl, nofun⟩
  have holds : Step id named holding :=
    ⟨_, 0, _, .signal (.text "a") fun _ => .ok .undefined, rfl, nofun⟩
  have made : context.Made holding.identities (Offered holding.graph) := by
    refine .object (by decide) (by simp) fun p hp => ?_
    obtain rfl := List.mem_singleton.1 hp
    exact .cell ⟨.text "a", rfl⟩
  have binds : Step id holding Greeting.bound :=
    ⟨_, 0, _, .bind .text parse_source made none fun _ => .ok .undefined, rfl, nofun⟩
  exact (((Relation.ReflTransGen.single owns).tail names).tail holds).tail binds

theorem step_written : Step id attached written := by
  have writes : writing.Writes attached.identities :=
    .write cell (.text "b") fun _ => .write cell (.text "c") fun r => by
      cases r <;> exact .done _
  exact ⟨_, 6, _, .batch writes, run_writing, nofun⟩

end Greeting

open Greeting in
/-- What the first of two writes in a batch makes of the greeting is not delivered. -/
theorem delivered_exactly_once_greeting :
    Relation.ReflTransGen (Step id) (start Greeting.settings []) Greeting.bound ∧
      Template.parse source = .ok template ∧
      Greeting.bound.graph.sheet.body? greeting = some (body .text template context) ∧
      run 6 attaching Greeting.bound = some (.ok .undefined, Greeting.attached) ∧
      Step id Greeting.attached written ∧
      Greeting.attached.host = [.text "hi a"] ∧ written.host = [.text "hi a", .text "hi c"] ∧
      ∃ results, List.Forall₂ (Renders source context) [Greeting.attached, written] results ∧
        written.host = (results.destutter fun o o' => o.equals o' = false).filterMap Except.toOption := by
  refine ⟨steps_bound, parse_source, rfl, run_attaching, step_written, by cbv, by cbv, ?_⟩
  exact delivered_exactly_once steps_bound parse_source (by decide) rfl (by decide)
    (fun _ _ => rfl) run_attaching (List.isChain_pair.2 step_written)

end Binding

end LiveTemplate
