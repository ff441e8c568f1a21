import LiveTemplate.Proofs.Binding.Delivery

/-!
# What clients of bindings do

A client makes signals, scopes and bindings, attaches sinks, writes to signals, and holds effects back
while it writes. Each of these returns with enough depth, and unless the queue was given up, the engine is
one of bindings again and every attachment has heard of what there was to hear
(`Engine.Advances`, `Engine.Progress`).

Most of an operation hands nothing on (`Engine.Quiet`), so what attachments were tuned to they still are;
what is left is at most one flush, or the first run of a new attachment.
-/
namespace LiveTemplate

namespace Reactive

variable {σ : Type} {B k : Nat} {log : σ → List Value} {own : NodeId → Prop}

namespace Program

/-- Programs that write plain data to signals; what they write may depend on what the signals hold. -/
inductive Writes (k : Nat) : Program σ → Prop where
  | done (o : Outcome) : Writes k (.done o)
  | peek (id : NodeId) {next : Outcome → Program σ}
      (rest : ∀ r, (∀ v, r = .ok v → v.Plain k) → Writes k (next r)) :
      Writes k (.read ⟨.signal, id⟩ false next)
  | write (id : NodeId) {value : Value} {next : Except Fault Unit → Program σ} (plain : value.Plain k)
      (rest : ∀ r, Writes k (next r)) : Writes k (.write id value next)
  | batch {body : Program σ} {next : Outcome → Program σ} (inner : Writes k body)
      (rest : ∀ r, Writes k (next r)) : Writes k (.batch body next)

end Program

namespace Engine

open Reactive.Graph

variable {e e₁ e' : Engine σ} {x c id : NodeId} {body : Program σ} {v : Value}

/-- The engine has changed, and no sink has been handed anything. -/
structure Quiet (B k : Nat) (log : σ → List Value) (own : NodeId → Prop) (e e' : Engine σ) : Prop where
  engaged : Engaged B k log own e'
  identities : e.identities ≤ e'.identities
  body : ∀ {id : NodeId} {body : Program σ}, e.graph.sheet.body? id = some body →
    e'.graph.sheet.body? id = some body
  tuned : ∀ {x c : NodeId} {o : Outcome} {past : List Value} {body : Program σ},
    e.graph.sheet.body? c = some body → Tuned log x c o past e → Tuned log x c o past e'

/-- The engine has gone on, and the log holds what the attachment has heard. -/
structure Progress (B k : Nat) (log : σ → List Value) (own : NodeId → Prop) (e e' : Engine σ) : Prop where
  engaged : Engaged B k log own e'
  identities : e.identities ≤ e'.identities
  body : ∀ {id : NodeId} {body : Program σ}, e.graph.sheet.body? id = some body →
    e'.graph.sheet.body? id = some body
  watching : ∀ {x c : NodeId} {o : Outcome} {past : List Value} {body : Program σ}, own = (· = x) →
    o.Flat → e.graph.sheet.body? c = some body → body.Tells → Tuned log x c o past e →
      Watching B log x c o past e'

theorem Quiet.refl (engaged : Engaged B k log own e) : Quiet B k log own e e :=
  ⟨engaged, Nat.le_refl _, fun h => h, fun _ h => h⟩

theorem Quiet.trans (h : Quiet B k log own e e₁) (h' : Quiet B k log own e₁ e') : Quiet B k log own e e' :=
  ⟨h'.engaged, h.identities.trans h'.identities, fun hb => h'.body (h.body hb),
    fun hb tuned => h'.tuned (h.body hb) (h.tuned hb tuned)⟩

/-- The nodes that there were are as they were. -/
theorem Quiet.of_live (engaged : Engaged B k log own e') (identities : e.identities ≤ e'.identities)
    (live : ∀ {y n}, e.graph.node? y = some n → e'.graph.node? y = some n) (host : e'.host = e.host) :
    Quiet B k log own e e' where
  engaged := engaged
  identities := identities
  body hb := by
    obtain ⟨n, _, _, hn, hk⟩ := body?_eq_some.1 hb
    exact body?_of_kind (live hn) hk
  tuned hb tuned := tuned.kept hb live host

/-- The nodes are the same. -/
theorem Quiet.aside (engaged : Engaged B k log own e)
    (same : ∀ x, e'.graph.node? x = e.graph.node? x) (pending : e'.graph.pending ⊆ e.graph.pending)
    (identities : e.identities ≤ e'.identities) (host : e'.host = e.host) : Quiet B k log own e e' :=
  .of_live (engaged.aside same pending identities) identities (fun hn => (same _).trans hn) host

theorem Quiet.written {n : Node (Program σ)} {old : Value} (engaged : Engaged B k log own e)
    (found : e.graph.node? id = some n) (kind : n.kind = .signal old) (plain : v.Plain k) :
    Quiet B k log own e { e with graph := e.graph.written id v n.subscribers } where
  engaged := engaged.written found kind plain
  identities := Nat.le_refl _
  body hb := by rwa [body?_written found kind]
  tuned hb tuned := tuned.written engaged hb found kind

theorem Quiet.then (h : Quiet B k log own e e₁) (h' : Progress B k log own e₁ e') :
    Progress B k log own e e' where
  engaged := h'.engaged
  identities := h.identities.trans h'.identities
  body hb := h'.body (h.body hb)
  watching hx flat hb tells tuned := h'.watching hx flat (h.body hb) tells (h.tuned hb tuned)

theorem Quiet.progress (h : Quiet B k log own e e') : Progress B k log own e e' where
  engaged := h.engaged
  identities := h.identities
  body := h.body
  watching _ _ hb _ tuned := (h.tuned hb tuned).watching (h.body hb)

theorem Advanced.progress (engaged : Engaged B k log own e)
    (advanced : Advanced B k e.graph.sheet log own e e') : Progress B k log own e e' := by
  have hsheet := advanced.underway.faithful.sheet
  refine ⟨⟨hsheet ▸ engaged.stocked, hsheet ▸ advanced.underway⟩, advanced.identities,
    fun hb => by rwa [hsheet], fun hx flat hb tells tuned => ?_⟩
  exact advanced.watching hx flat hb tells (tuned.watching hb)

/-! ## Writes -/

theorem readSignal (e : Engine σ) (id : NodeId) : ∃ r,
    (∀ refresh, e.readCell refresh ⟨.signal, id⟩ false = some (r, e)) ∧
      ∀ v, r = .ok v → e.graph.sheet.value? id = some v := by
  cases hn : e.graph.node? id with
  | none => exact ⟨.error (.reactive (.disposed .signal)), fun _ => by simp only [readCell, hn], nofun⟩
  | some n =>
    obtain ⟨kind, _, _, _, _⟩ := n
    cases kind with
    | signal w =>
      refine ⟨.ok w, fun _ => by simp only [readCell, hn, trackIf, Bool.false_eq_true, if_false], ?_⟩
      rintro _ ⟨⟩
      exact value?_eq_some.2 ⟨_, hn, rfl⟩
    | _ =>
      exact ⟨.error (.reactive (.disposed .signal)), fun _ => by simp only [readCell, hn], nofun⟩

/-- A write changes nothing, or it is stored and the queue is worked off. -/
theorem writeSignal_split (e : Engine σ) (id : NodeId) (v : Value) :
    (∃ r, Calm r ∧ ∀ refresh, e.writeSignal refresh id v = some (r, e)) ∨
      ∃ n old, e.graph.node? id = some n ∧ n.kind = .signal old ∧ ∀ refresh,
        e.writeSignal refresh id v =
          flush refresh { e with graph := e.graph.written id v n.subscribers } := by
  cases hn : e.graph.node? id with
  | none =>
    exact .inl ⟨.error (.reactive (.disposed .signal)), nofun, fun _ => by simp only [writeSignal, hn]⟩
  | some n =>
    obtain ⟨kind, _, _, _, _⟩ := n
    cases kind with
    | signal old =>
      by_cases skip : (e.settings.writeEquality = .skipEqual && old.equals v) = true
      · exact .inl ⟨_, calm_ok, fun _ => by simp only [writeSignal, hn, if_pos skip]⟩
      · exact .inr ⟨_, old, rfl, rfl, fun _ => by simp only [writeSignal, hn, if_neg skip]; rfl⟩
    | _ =>
      exact .inl ⟨.error (.reactive (.disposed .signal)), nofun, fun _ => by simp only [writeSignal, hn]⟩

/-- An engine in one more batch. -/
def opened (e : Engine σ) : Engine σ :=
  { e with batchDepth := e.batchDepth + 1 }

theorem Engaged.opened (engaged : Engaged B k log own e) : Engaged B k log own e.opened :=
  engaged.aside (fun _ => rfl) (List.Subset.refl _) (Nat.le_refl _)

/-- What was quiet in a batch is quiet when the batch is closed. -/
theorem Quiet.closed {g : Graph (Program σ)} (engaged : Engaged B k log own e)
    (quiet : Quiet B k log own e.opened { e.opened with graph := g }) :
    Quiet B k log own e { e with graph := g } := by
  have hopen : Quiet B k log own e e.opened := .of_live engaged.opened (Nat.le_refl _) (fun h => h) rfl
  have hclose : Quiet B k log own { e.opened with graph := g } { e with graph := g } :=
    .aside quiet.engaged (fun _ => rfl) (List.Subset.refl _) (Nat.le_refl _) rfl
  exact (hopen.trans quiet).trans hclose

theorem exec_batch {p : Program σ} {next : Outcome → Program σ} {o : Outcome} {g : Graph (Program σ)}
    (ran : ∀ depth refresh, p.exec depth refresh e.opened = some (o, { e.opened with graph := g }))
    (depth : Nat) (refresh : NodeId → Engine σ → Option (Engine σ)) :
    (Program.batch p next).exec depth refresh e = (flush refresh { e with graph := g }).bind
      fun (f, e) => (next (f.bind fun () => o)).exec depth refresh e := by
  have hran := ran depth refresh
  simp only [Engine.opened] at hran
  rw [Program.exec, hran, Option.bind_some]
  simp only [Nat.add_sub_cancel]

/-- In a batch nothing is handed on. -/
theorem Quiet.exec {p : Program σ} (writes : p.Writes k) (engaged : Engaged B k log own e)
    (held : 0 < e.batchDepth) :
    ∃ o g, (∀ depth refresh, p.exec depth refresh e = some (o, { e with graph := g })) ∧
      Quiet B k log own e { e with graph := g } := by
  induction writes generalizing e with
  | done o => exact ⟨o, e.graph, fun _ _ => rfl, .refl engaged⟩
  | peek id _ ih =>
    obtain ⟨r, hread, hr⟩ := readSignal e id
    obtain ⟨rank, stocked⟩ := engaged.stocked
    obtain ⟨o, g, hran, quiet⟩ := ih r (fun v hv => stocked.plain (hr v hv)) engaged held
    refine ⟨o, g, fun depth refresh => ?_, quiet⟩
    rw [Program.exec, hread, Option.bind_some]
    exact hran depth refresh
  | write id plain _ ih =>
    rcases writeSignal_split e id _ with ⟨r, -, hwrite⟩ | ⟨n, old, hn, hk, hwrite⟩
    · obtain ⟨o, g, hran, quiet⟩ := ih r engaged held
      refine ⟨o, g, fun depth refresh => ?_, quiet⟩
      rw [Program.exec, hwrite, Option.bind_some]
      exact hran depth refresh
    · have hstored := Quiet.written engaged hn hk plain
      obtain ⟨o, g, hran, quiet⟩ := ih (.ok ()) hstored.engaged held
      refine ⟨o, g, fun depth refresh => ?_, hstored.trans quiet⟩
      rw [Program.exec, hwrite, flush_held (by exact held), Option.bind_some]
      exact hran depth refresh
  | batch _ _ ihInner ih =>
    obtain ⟨o, g, hran, quiet⟩ := ihInner engaged.opened (Nat.succ_pos _)
    have hclosed := quiet.closed engaged
    obtain ⟨o', g', hran', quiet'⟩ := ih (Except.bind (.ok ()) fun () => o) hclosed.engaged held
    refine ⟨o', g', fun depth refresh => ?_, hclosed.trans quiet'⟩
    rw [exec_batch hran, flush_held (by exact held), Option.bind_some]
    exact hran' depth refresh

/-! ## Whole operations -/

/-- The program returns, and the engine has gone on if the queue was worked off. -/
def Advances (B k : Nat) (log : σ → List Value) (own : NodeId → Prop) (p : Program σ) (e : Engine σ) :
    Prop :=
  ∃ depth o e', run depth p e = some (o, e') ∧
    ((∀ runs, o ≠ .error (.reactive (.unsettled runs))) → Progress B k log own e e')

theorem Quiet.advances {p : Program σ} (quiet : Quiet B k log own e e')
    (ran : ∃ depth o, run depth p e = some (o, e')) : Advances B k log own p e := by
  obtain ⟨depth, o, hran⟩ := ran
  exact ⟨depth, o, e', hran, fun _ => quiet.progress⟩

/-- An owned node stands where a node without an owner would. -/
theorem Quiet.owned {kind : NodeKind (Program σ)} {owner : ScopeId} {g : Graph (Program σ)}
    (inserted : e.graph.insertOwned kind owner = some (id, g))
    (engaged : Engaged B k log own
      { e with graph := (e.graph.insertNode kind .dirty (some owner)).2 }) :
    Quiet B k log own e { e with graph := g } := by
  obtain ⟨-, hsame, hpending⟩ := insertOwned_eq_some inserted
  refine .of_live (engaged.aside hsame ?_ (Nat.le_refl _)) (Nat.le_refl _)
    (fun hn => (hsame _).trans (insertNode_live hn).2) rfl
  rw [hpending]
  exact List.Subset.refl _

theorem refreshWithin_dirty {n : Node (Program σ)} (found : e.graph.node? id = some n)
    (dirty : n.freshness = .dirty) (depth : Nat) :
    refreshWithin (depth + 1) id e = runNode depth (refreshWithin depth) id e := by
  simp [refreshWithin, refreshOver_eq, askStale, freshness?, found, dirty]

theorem run_attach {push : Value → σ → σ} {owner : ScopeId} {g : Graph (Program σ)}
    (inserted : e.graph.insertOwned (attachment c push) owner =
      some (id, g)) (next : Except Fault NodeId → Outcome) (depth : Nat) :
    run depth (Binding.attach c owner (Binding.into push) fun r => .done (next r)) e =
      (refreshWithin depth id { e with graph := g }).map fun e' => (next (.ok id), e') := by
  simp only [run, Binding.attach, Program.exec, inserted]
  cases refreshWithin depth id { e with graph := g } <;> rfl

/-- A new attachment has to run, and reads what is live. -/
theorem Engaged.awaits {push : Value → σ → σ} {owner : ScopeId} {g : Graph (Program σ)}
    (engaged : Engaged B k log own { e with graph := g })
    (inserted : e.graph.insertOwned (attachment c push) owner =
      some (id, g)) :
    ∃ level o n, g.node? id = some n ∧ n.kind = attachment c push ∧
      n.freshness = .dirty ∧ (g.shadow B).sheet.Ends level (.get ⟨.computed, c⟩) o := by
  obtain ⟨rfl, hsame, -⟩ := insertOwned_eq_some inserted
  have hn := (hsame _).trans (insertNode_self e.graph (attachment c push)
    .dirty (some owner))
  have hattentive := engaged.underway.attentive
  obtain ⟨level, o, ends⟩ := (hattentive.effects (node?_shadow (e := { e with graph := g }) hn) rfl).2 _
    hattentive.coherent.revalued_refl
  exact ⟨level, o, _, hn, rfl, rfl, ends⟩

variable (engaged : Engaged B k log own e) (bound : k ≤ B)

include engaged bound

theorem flush_progress : ∃ depth r e', flush (refreshWithin depth) e = some (r, e') ∧
    (Calm r → Progress B k log own e e') := by
  obtain ⟨rank, stocked⟩ := engaged.stocked
  obtain ⟨depth, r, e', flushed, advanced⟩ := flush_advanced stocked bound engaged.underway
  exact ⟨depth, r, e', flushed, fun calm => (advanced calm).progress engaged⟩

theorem advances_set (id : NodeId) (plain : v.Plain k) : Advances B k log own (.set id v) e := by
  suffices h : ∃ depth r e', e.writeSignal (refreshWithin depth) id v = some (r, e') ∧
      (Calm r → Progress B k log own e e') by
    obtain ⟨depth, r, e', hwrite, hprogress⟩ := h
    rw [Advances]
    cases r with
    | ok => exact ⟨depth, .ok .undefined, e', by rw [run, Program.set, Program.exec, hwrite]; rfl,
        fun _ => hprogress calm_ok⟩
    | error fault =>
      refine ⟨depth, .error fault, e', by rw [run, Program.set, Program.exec, hwrite]; rfl,
        fun calm => hprogress fun runs h => calm runs ?_⟩
      rw [Except.error.inj h]
  rcases writeSignal_split e id v with ⟨r, -, hwrite⟩ | ⟨n, old, hn, hk, hwrite⟩
  · exact ⟨0, r, e, hwrite _, fun _ => (Quiet.refl engaged).progress⟩
  · have hstored := Quiet.written engaged hn hk plain
    obtain ⟨depth, r, e', hflush, hprogress⟩ := flush_progress hstored.engaged bound
    exact ⟨depth, r, e', (hwrite _).trans hflush, fun calm => hstored.then (hprogress calm)⟩

theorem advances_update (id : NodeId) {change : Value → Value}
    (plain : ∀ w, w.Plain k → (change w).Plain k) : Advances B k log own (.update id change) e := by
  obtain ⟨r, hread, hr⟩ := readSignal e id
  obtain ⟨rank, stocked⟩ := engaged.stocked
  have hrun (depth : Nat) : run depth (.update id change) e = match r with
      | .ok w => run depth (.set id (change w)) e
      | .error fault => some (.error fault, e) := by
    rw [run, Program.update, Program.exec_bind, Program.peek, Program.exec, hread]
    cases r <;> rfl
  cases r with
  | error fault => exact (Quiet.refl engaged).advances ⟨0, _, hrun 0⟩
  | ok w =>
    obtain ⟨depth, o, e', hran, hprogress⟩ := advances_set engaged bound id
      (plain w (stocked.plain (hr w rfl)))
    exact ⟨depth, o, e', (hrun depth).trans hran, hprogress⟩

theorem advances_batch {p : Program σ} (writes : p.Writes k) :
    Advances B k log own (.batch p .done) e := by
  obtain ⟨o, g, hran, quiet⟩ := Quiet.exec writes engaged.opened (Nat.succ_pos _)
  have hquiet := quiet.closed engaged
  obtain ⟨depth, r, e', hflush, hprogress⟩ := flush_progress hquiet.engaged bound
  refine ⟨depth, r.bind fun () => o, e', ?_, fun calm => hquiet.then (hprogress fun runs h => calm runs ?_)⟩
  · rw [run, exec_batch hran, hflush]
    rfl
  · rw [h]
    rfl

omit bound in
theorem advances_fresh (next : Nat → Outcome) :
    Advances B k log own (.fresh fun i => .done (next i)) e := by
  have hquiet : Quiet B k log own e { e with identities := e.identities + 1 } :=
    .aside engaged (fun _ => rfl) (List.Subset.refl _) (Nat.le_succ _) rfl
  exact hquiet.advances ⟨0, _, rfl⟩

omit bound in
theorem advances_scope (parent : Option ScopeId) (next : Except Fault ScopeId → Outcome) :
    Advances B k log own (.newScope parent fun r => .done (next r)) e := by
  cases parent with
  | none =>
    have hquiet : Quiet B k log own e { e with graph := e.graph.insertScope.2 } :=
      .aside engaged (fun _ => rfl) (List.Subset.refl _) (Nat.le_refl _) rfl
    exact hquiet.advances ⟨0, _, rfl⟩
  | some parent =>
    cases hinsert : e.graph.insertChildScope parent with
    | none =>
      exact (Quiet.refl engaged).advances ⟨0, _, by simp only [run, Program.exec, hinsert]; rfl⟩
    | some inserted =>
      obtain ⟨id, g⟩ := inserted
      obtain ⟨hsame, hpending⟩ := insertChildScope_eq_some hinsert
      have hquiet : Quiet B k log own e { e with graph := g } :=
        .aside engaged hsame (by rw [hpending]; exact List.Subset.refl _) (Nat.le_refl _) rfl
      exact hquiet.advances ⟨0, _, by simp only [run, Program.exec, hinsert]; rfl⟩

theorem advances_signal (plain : v.Plain k) (next : NodeId → Outcome) :
    Advances B k log own (.newSignal v fun id => .done (next id)) e := by
  have hquiet : Quiet B k log own e
      { e with graph := (e.graph.insertNode (.signal v) .clean none).2 } :=
    .of_live (engaged.insertSignal bound plain) (Nat.le_refl _) (fun hn => (insertNode_live hn).2) rfl
  exact hquiet.advances ⟨0, _, rfl⟩

theorem advances_bind (kind : BindingKind) {t : Template} (written : t.Written) {context : Value}
    (made : context.Made k e.graph.sheet.Lists) (owner : Option ScopeId)
    (next : Except Fault NodeId → Outcome) :
    Advances B k log own (Binding.bind kind t context owner fun r => .done (next r)) e := by
  have hengaged (owner : Option ScopeId) : Engaged B k log own { e with
      graph := (e.graph.insertNode (.computed (Binding.body kind t context) false none) .dirty owner).2 } :=
    engaged.insertComputed bound (Binding.steady_body kind written made)
  cases owner with
  | none =>
    have hquiet : Quiet B k log own e { e with
        graph := (e.graph.insertNode (.computed (Binding.body kind t context) false none) .dirty none).2 } :=
      .of_live (hengaged none) (Nat.le_refl _) (fun hn => (insertNode_live hn).2) rfl
    exact hquiet.advances ⟨0, _, rfl⟩
  | some owner =>
    cases hinsert : e.graph.insertOwned (.computed (Binding.body kind t context) false none) owner with
    | none =>
      exact (Quiet.refl engaged).advances
        ⟨0, _, by simp only [run, Binding.bind, Program.exec, hinsert]; rfl⟩
    | some inserted =>
      obtain ⟨id, g⟩ := inserted
      exact (Quiet.owned hinsert (hengaged (some owner))).advances
        ⟨0, _, by simp only [run, Binding.bind, Program.exec, hinsert]; rfl⟩

/-- Another sink is attached, and its effect runs at once. -/
theorem advances_attach {push : Value → σ → σ} (computes : e.graph.sheet.body? c = some body)
    (spares : ∀ v host, log (push v host) = log host) (others : ∀ y, e.graph.node? y = none → ¬own y)
    (owner : ScopeId) (next : Except Fault NodeId → Outcome) :
    Advances B k log own (Binding.attach c owner (Binding.into push) fun r => .done (next r)) e := by
  cases hinsert : e.graph.insertOwned (attachment c push) owner with
  | none =>
    exact (Quiet.refl engaged).advances
      ⟨0, _, by simp only [run, Binding.attach, Program.exec, hinsert]; rfl⟩
  | some inserted =>
    obtain ⟨id, g⟩ := inserted
    have hquiet := Quiet.owned hinsert (engaged.insertEffect bound computes (fun _ => .rfl)
      (fun h => absurd h (others _ (node?_insertNode_fresh _ _ _ _))) fun _ => spares)
    obtain ⟨level, o, n, hn, hk, -, ends⟩ := hquiet.engaged.awaits hinsert
    obtain ⟨rank, stocked⟩ := hquiet.engaged.stocked
    obtain ⟨e', hturn, hadvanced, -⟩ := turn stocked bound hquiet.engaged.underway
      (e := { e with graph := g }) (node?_shadow hn) (by rw [Node.kind_recast, hk]; rfl) ends
      (Nat.le_refl level)
    refine ⟨level + 2, next (.ok id), e', ?_, fun _ => hquiet.then (hadvanced.progress hquiet.engaged)⟩
    rw [run_attach hinsert, hturn]
    rfl

/-- One's own sink is attached: it is handed what the computed shows. -/
theorem attach_tuned {push : Value → σ → σ} (computes : e.graph.sheet.body? c = some body)
    (tells : body.Tells) (adds : ∀ v host, log (push v host) = log host ++ [v]) (none : ∀ y, ¬own y)
    {owner : ScopeId} {g : Graph (Program σ)}
    (inserted : e.graph.insertOwned (attachment c push) owner =
      some (id, g)) (next : Except Fault NodeId → Outcome) :
    ∃ depth e', run depth (Binding.attach c owner (Binding.into push) fun r => .done (next r)) e =
        some (next (.ok id), e') ∧
      Engaged B k log (· = id) e' ∧ e.identities ≤ e'.identities ∧ e'.graph.sheet.body? c = some body ∧
      ∃ o, Tuned log id c o (log e.host ++ [o].filterMap Except.toOption) e' := by
  have hquiet : Quiet B k log (· = id) e { e with graph := g } := by
    obtain ⟨rfl, -⟩ := insertOwned_eq_some inserted
    refine .owned inserted (engaged.insertEffect bound computes (fun hn => ?_) (fun _ => adds)
      fun h => absurd rfl h)
    exact ⟨fun h => absurd h (insertNode_live hn).1, fun h => absurd h (none _)⟩
  have hbody : g.sheet.body? c = some body := hquiet.body computes
  obtain ⟨rank, stocked⟩ := hquiet.engaged.stocked
  obtain ⟨level, _, n, hn, hk, hdirty, ends⟩ := hquiet.engaged.awaits inserted
  obtain ⟨e', o, hran, under, identities, hhost, told, heeded⟩ := run_attachment stocked bound
    hquiet.engaged.underway (Sheet.obeys_forecast fun _ _ => value?_of_body?) hn hk hdirty hbody
    (Nat.le_refl level) (ready_of_ends ends)
  have hsheet := under.faithful.sheet
  have hbody' : e'.graph.sheet.body? c = some body := hsheet ▸ hbody
  have hengaged : Engaged B k log (· = id) e' := ⟨hsheet ▸ hquiet.engaged.stocked, hsheet ▸ under⟩
  have hhooked : (g.shadow B).Hooked id c := Delivers.hooked ⟨n, push, false, hn, hk⟩
  refine ⟨level + 2, e', ?_, hengaged, identities, hbody', o, ?_, ?_, ?_, ?_⟩
  · rw [run_attach inserted, refreshWithin_dirty hn hdirty, hran]
    rfl
  · exact hengaged.delivers (hhooked.refreshed heeded.refreshed)
  · rw [← freshness?_shadow (B := B) e']
    exact fun h => by cases heeded.clean.symm.trans h
  · exact (shown_shadow hbody').symm.trans (told tells)
  · rw [hhost, log_handOn_own adds]

end Engine

end Reactive

end LiveTemplate
