import LiveTemplate.Proofs.Binding.Usage

/-!
# Write policies

The write policy decides how often bindings run, and not what they show: on an engine that was furnished
with signals and with bindings over them, a client sees the same whether equal writes are skipped or not
(`Binding.policies_alike`). Furnishing leaves the same engine under both policies but for the policy
itself (`Binding.Furnished.under`), so both runs start from one engine.

That the bindings looked at are discreet cannot be left out: a quotient shows the sign of a zero divisor,
and a zero that is written over its negative is an equal write (`Binding.policies_differ_quotient`).
-/
namespace LiveTemplate

open Reactive Reactive.Engine

variable {σ : Type} {k : Nat}

/-- The engine with another write policy. -/
def Reactive.Engine.under (policy : WriteEquality) (e : Engine σ) : Engine σ :=
  { e with settings := e.settings.withWriteEquality policy }

namespace Binding

variable {bond? : NodeId → Option Bond} {e : Engine (List Outcome)} {id : NodeId}

/-! ## Furnished engines -/

/-- Signals of plain data, and bindings over plain data and signals, made one after the other and not
read yet. -/
inductive Furnished (settings : Settings) : Engine (List Outcome) → (NodeId → Option Bond) → Prop where
  | start : Furnished settings (Engine.start settings []) fun _ => none
  | fresh {e e' : Engine (List Outcome)} {bond? : NodeId → Option Bond} {depth : Nat} {o : Outcome}
      {next : Nat → Outcome} (before : Furnished settings e bond?)
      (ran : run depth (.fresh fun i => .done (next i)) e = some (o, e')) :
      Furnished settings e' bond?
  | scope {e e' : Engine (List Outcome)} {bond? : NodeId → Option Bond} {depth : Nat} {o : Outcome}
      {parent : Option ScopeId} {next : Except Fault ScopeId → Outcome}
      (before : Furnished settings e bond?)
      (ran : run depth (.newScope parent fun r => .done (next r)) e = some (o, e')) :
      Furnished settings e' bond?
  | signal {e e' : Engine (List Outcome)} {bond? : NodeId → Option Bond} {depth : Nat} {o : Outcome}
      {v : Value} {next : NodeId → Outcome} (before : Furnished settings e bond?)
      (plain : v.Plain e.identities)
      (ran : run depth (.newSignal v fun id => .done (next id)) e = some (o, e')) :
      Furnished settings e' bond?
  | bind {e e' : Engine (List Outcome)} {bond? : NodeId → Option Bond} {depth : Nat} {id : NodeId}
      {kind : BindingKind} {source : String} {t : Template} {context : Value} {owner : Option ScopeId}
      (before : Furnished settings e bond?) (parsed : Template.parse source = .ok t)
      (made : context.Made e.identities (Holdings.Live e.graph.sheet.value?))
      (ran : run depth (bind kind t context owner fun r => .done (r.map Value.computed)) e =
        some (.ok (.computed id), e')) :
      Furnished settings e' (Function.update bond? id (some ⟨kind, t, context⟩))

/-- A program that does not ask for the policy, on an engine with another one. -/
def Indifferent (policy : WriteEquality) (p : Program (List Outcome)) : Prop :=
  ∀ depth e, run depth p (e.under policy) = (run depth p e).map fun r => (r.1, r.2.under policy)

theorem indifferent_newScope (policy : WriteEquality) (parent : Option ScopeId)
    (next : Except Fault ScopeId → Outcome) :
    Indifferent policy (.newScope parent fun r => .done (next r)) := by
  intro depth e
  cases parent with
  | none => rfl
  | some parent =>
    simp only [run, Program.exec, Engine.under]
    split <;> rfl

theorem indifferent_bind (policy : WriteEquality) (kind : BindingKind) (t : Template) (context : Value)
    (owner : Option ScopeId) (next : Except Fault NodeId → Outcome) :
    Indifferent policy (bind kind t context owner fun r => .done (next r)) := by
  intro depth e
  cases owner with
  | none => rfl
  | some owner =>
    simp only [run, Binding.bind, Program.exec, Engine.under]
    split <;> rfl

theorem Indifferent.run {policy : WriteEquality} {p : Program (List Outcome)}
    (indifferent : Indifferent policy p) {e e' : Engine (List Outcome)} {depth : Nat} {o : Outcome}
    (ran : run depth p e = some (o, e')) :
    Engine.run depth p (e.under policy) = some (o, e'.under policy) := by
  rw [indifferent, ran]
  rfl

/-- The engine is what it would be if it had been furnished under the other policy. -/
theorem Furnished.under {settings : Settings} (furnished : Furnished settings e bond?)
    (policy : WriteEquality) :
    Furnished (settings.withWriteEquality policy) (e.under policy) bond? := by
  induction furnished with
  | start => exact .start
  | fresh _ ran ih => exact ih.fresh (Indifferent.run (fun _ _ => rfl) ran)
  | scope _ ran ih => exact ih.scope ((indifferent_newScope policy _ _).run ran)
  | signal _ plain ran ih => exact ih.signal plain (Indifferent.run (fun _ _ => rfl) ran)
  | bind _ parsed made ran ih => exact ih.bind parsed made ((indifferent_bind policy _ _ _ _ _).run ran)

/-- A graph of signals and unread bindings, without edges. -/
structure Laid (k : Nat) (bond? : NodeId → Option Bond) (g : Graph (Program (List Outcome))) : Prop where
  bare : ∀ {id : NodeId} {n : Node (Program (List Outcome))}, g.node? id = some n →
    n.sources = [] ∧ n.subscribers = []
  nodes : ∀ {id : NodeId} {n : Node (Program (List Outcome))}, g.node? id = some n →
    (bond? id = none ∧ ∃ v, n.kind = .signal v ∧ v.Plain k) ∨
      ∃ b, bond? id = some b ∧ n.kind = .computed b.body false none ∧ n.freshness = .dirty
  bonds : ∀ {id : NodeId} {b : Bond}, bond? id = some b → (g.node? id).isSome ∧
    b.template.Written ∧ b.context.Made k (Holdings.Live g.sheet.value?)
  pending : g.pending = []

variable {g h : Graph (Program (List Outcome))}

theorem Laid.bond_none (laid : Laid k bond? g) (free : g.node? id = none) : bond? id = none := by
  cases hb : bond? id with
  | none => rfl
  | some b => exact absurd (laid.bonds hb).1 (by simp [free])

theorem Laid.grow {k' : Nat} (laid : Laid k bond? g) (le : k ≤ k')
    (node : ∀ x, h.node? x = g.node? x) (pending : h.pending = g.pending) : Laid k' bond? h := by
  have hsheet : h.sheet = g.sheet := Graph.sheet_congr (fun x => by rw [node]) fun x => by rw [node]
  refine ⟨fun hn => laid.bare (node _ ▸ hn), fun hn => ?_, fun hb => ?_, pending.trans laid.pending⟩
  · rcases laid.nodes (node _ ▸ hn) with ⟨hb, v, hv, plain⟩ | hbound
    · exact .inl ⟨hb, v, hv, plain.mono le fun _ => id⟩
    · exact .inr hbound
  · obtain ⟨live, written, made⟩ := laid.bonds hb
    rw [node, hsheet]
    exact ⟨live, written, made.mono le fun _ => id⟩

/-- A new node, a signal or a binding. -/
theorem Laid.insert (laid : Laid k bond? g) {kind : NodeKind (Program (List Outcome))}
    {freshness : Freshness} {owner : Option ScopeId} {bond : Option Bond} (free : g.node? id = none)
    (node : ∀ x, h.node? x = if x = id then some ⟨kind, freshness, [], [], owner⟩ else g.node? x)
    (pending : h.pending = g.pending)
    (fits : (bond = none ∧ ∃ v, kind = .signal v ∧ v.Plain k) ∨ ∃ b, bond = some b ∧
      kind = .computed b.body false none ∧ freshness = .dirty ∧ b.template.Written ∧
        b.context.Made k (Holdings.Live g.sheet.value?)) :
    Laid k (Function.update bond? id bond) h := by
  have hold {x : NodeId} (hx : x ≠ id) : h.node? x = g.node? x := (node x).trans (if_neg hx)
  have hnew : h.node? id = some ⟨kind, freshness, [], [], owner⟩ := (node id).trans (if_pos rfl)
  have hlive (c : Cell) (live : Holdings.Live g.sheet.value? c) : Holdings.Live h.sheet.value? c := by
    refine ⟨live.1, ?_⟩
    have hne : c.node ≠ id := by
      rintro heq
      simpa [Graph.sheet, heq, free] using live.2
    simpa only [Graph.sheet, hold hne] using live.2
  refine ⟨fun {x n} hn => ?_, fun {x n} hn => ?_, fun {x b} hb => ?_, pending.trans laid.pending⟩
  · by_cases hx : x = id
    · subst hx
      obtain rfl := Option.some.inj (hnew.symm.trans hn)
      exact ⟨rfl, rfl⟩
    · exact laid.bare (hold hx ▸ hn)
  · by_cases hx : x = id
    · subst hx
      obtain rfl := Option.some.inj (hnew.symm.trans hn)
      rw [Function.update_self]
      refine fits.imp_right ?_
      rintro ⟨b, hb, hkind, hfresh, -⟩
      exact ⟨b, hb, hkind, hfresh⟩
    · rw [Function.update_of_ne hx]
      exact laid.nodes (hold hx ▸ hn)
  · by_cases hx : x = id
    · subst hx
      rw [Function.update_self] at hb
      rcases fits with ⟨hnone, -⟩ | ⟨b', hb', -, -, written, made⟩
      · cases hnone.symm.trans hb
      · obtain rfl := Option.some.inj (hb'.symm.trans hb)
        exact ⟨by rw [hnew]; rfl, written, made.mono le_rfl hlive⟩
    · rw [Function.update_of_ne hx] at hb
      obtain ⟨live, written, made⟩ := laid.bonds hb
      exact ⟨(hold hx).symm ▸ live, written, made.mono le_rfl hlive⟩

/-- What furnishing leaves: nothing is going on, and nothing is noted yet. -/
theorem Furnished.laid {settings : Settings} (furnished : Furnished settings e bond?) :
    Laid e.identities bond? e.graph ∧ e.tracking = [] ∧ e.flushing = false ∧ e.host = [] := by
  induction furnished with
  | start => exact ⟨⟨nofun, nofun, nofun, rfl⟩, rfl, rfl, rfl⟩
  | fresh _ ran ih =>
    obtain ⟨-, rfl⟩ := Prod.mk.inj (Option.some.inj ran)
    exact ⟨ih.1.grow (Nat.le_succ _) (fun _ => rfl) rfl, ih.2⟩
  | @scope e e' bond? depth o parent next _ ran ih =>
    cases parent with
    | none =>
      obtain ⟨-, rfl⟩ := Prod.mk.inj (Option.some.inj ran)
      exact ⟨ih.1.grow le_rfl (fun _ => rfl) rfl, ih.2⟩
    | some parent =>
      rw [run, Program.exec] at ran
      split at ran
      · obtain ⟨-, rfl⟩ := Prod.mk.inj (Option.some.inj ran)
        exact ih
      next inserted =>
        obtain ⟨-, rfl⟩ := Prod.mk.inj (Option.some.inj ran)
        obtain ⟨node, pending⟩ := Graph.insertChildScope_eq_some inserted
        exact ⟨ih.1.grow le_rfl node pending, ih.2⟩
  | @signal e e' bond? depth o v next _ plain ran ih =>
    obtain ⟨-, rfl⟩ := Prod.mk.inj (Option.some.inj ran)
    have hfree := Graph.node?_insertNode_fresh e.graph (.signal v) .clean none
    have hlaid := ih.1.insert hfree (Graph.node?_insertNode e.graph (.signal v) .clean none) rfl
      (.inl ⟨rfl, v, rfl, plain⟩)
    rw [← ih.1.bond_none hfree, Function.update_eq_self] at hlaid
    exact ⟨hlaid, ih.2⟩
  | @bind e e' bond? depth id kind source t context owner _ parsed made ran ih =>
    have hfits : ∃ b : Bond, some (Bond.mk kind t context) = some b ∧
        (NodeKind.computed (body kind t context) false none : NodeKind (Program (List Outcome))) =
          .computed b.body false none ∧ Freshness.dirty = .dirty ∧ b.template.Written ∧
            b.context.Made e.identities (Holdings.Live e.graph.sheet.value?) :=
      ⟨_, rfl, rfl, rfl, Template.written_of_parse parsed, made⟩
    cases owner with
    | none =>
      obtain ⟨hid, rfl⟩ := Prod.mk.inj (Option.some.inj ran)
      obtain rfl : _ = id := by simpa [Except.map, Value.computed] using hid
      exact ⟨ih.1.insert (Graph.node?_insertNode_fresh _ _ _ _) (Graph.node?_insertNode _ _ _ _) rfl
        (.inr hfits), ih.2⟩
    | some owner =>
      rw [run, Binding.bind, Program.exec] at ran
      split at ran
      · cases (Prod.mk.inj (Option.some.inj ran)).1
      next inserted =>
        obtain ⟨hid, rfl⟩ := Prod.mk.inj (Option.some.inj ran)
        obtain rfl : _ = id := by simpa [Except.map, Value.computed] using hid
        obtain ⟨rfl, node, pending⟩ := Graph.insertOwned_eq_some inserted
        exact ⟨ih.1.insert (Graph.node?_insertNode_fresh _ _ _ _)
          (fun x => (node x).trans (Graph.node?_insertNode _ _ _ _ x)) pending (.inr hfits), ih.2⟩

theorem Laid.reads_plain (laid : Laid k bond? g) {v : Value} (found : g.sheet.value? id = some v) :
    v.Plain k := by
  obtain ⟨n, hn, hkind⟩ := Graph.value?_eq_some.1 found
  rcases laid.nodes hn with ⟨-, w, hw, plain⟩ | ⟨b, -, hb, -⟩
  · exact NodeKind.signal.inj (hw.symm.trans hkind) ▸ plain
  · cases hb.symm.trans hkind

theorem Laid.body? (laid : Laid k bond? g) : g.sheet.body? = fun id => (bond? id).map Bond.body := by
  funext id
  cases hn : g.node? id with
  | none => simp [Graph.sheet, hn, laid.bond_none hn]
  | some n =>
    rcases laid.nodes hn with ⟨hb, w, hw, -⟩ | ⟨b, hb, hkind, -⟩
    · simp [Graph.sheet, hn, hw, hb, NodeKind.formula?]
    · simp [Graph.sheet, hn, hkind, hb, NodeKind.formula?]

theorem Laid.displays (laid : Laid k bond? g) : g.Displays k where
  linked := ⟨fun ha hb => by simp [(laid.bare ha).1, (laid.bare hb).2],
    fun ha hb => by simp [(laid.bare ha).1] at hb, fun ha hb => by simp [(laid.bare ha).2] at hb⟩
  plain := laid.reads_plain
  kinds hn := by
    rcases laid.nodes hn with ⟨-, v, hv, -⟩ | ⟨b, -, hkind, -⟩
    · exact .inl ⟨v, hv⟩
    · exact .inr ⟨_, _, hkind⟩
  steady {id body} found := by
    rw [laid.body?] at found
    obtain ⟨b, hb, rfl⟩ := Option.map_eq_some_iff.1 found
    obtain ⟨-, written, made⟩ := laid.bonds hb
    exact steady_body b.kind written made
  sources hn hs := by simp [(laid.bare hn).1] at hs
  shows hn hkind := by
    rcases laid.nodes hn with ⟨-, v, hv, -⟩ | ⟨b, -, -, hdirty⟩
    · cases hv.symm.trans hkind
    · exact .inl hdirty
  pending := laid.pending

theorem Laid.abreast (laid : Laid e.identities bond? e.graph) (untracked : e.tracking = [])
    (still : e.flushing = false) : Abreast e.identities bond? e.graph.sheet.value? e := by
  refine ⟨⟨laid.displays, untracked, still, le_rfl⟩, fun id => ?_, laid.body?,
    fun hb => (laid.bonds hb).2⟩
  cases hvalue : e.graph.sheet.value? id with
  | none => exact .none
  | some v =>
    have hplain := laid.reads_plain hvalue
    exact .some ⟨hplain, hplain, Value.agrees_refl hplain.proper⟩

/-! ## Policies -/

theorem resemble_of_common {seen seen' os : List Outcome} (h : List.Forall₂ Resembles seen os)
    (h' : List.Forall₂ Resembles seen' os) : List.Forall₂ Resembles seen seen' := by
  induction h generalizing seen' with
  | nil => cases h'; exact .nil
  | cons first _ ih => cases h' with
    | cons first' rest => exact .cons (first.trans first'.symm) (ih rest)

/-- Whether equal writes are skipped or not, a client sees the same. -/
theorem policies_alike {settings : Settings} (furnished : Furnished settings e bond?) {usage : Usage}
    (fair : usage.Fair e.identities bond? e.graph.sheet.value?) {depth : Nat} (deep : 2 ≤ depth) :
    ∃ e₁ e₂, run depth usage.program (e.under .skipEqual) = some (.ok .undefined, e₁) ∧
      run depth usage.program (e.under .always) = some (.ok .undefined, e₂) ∧
        List.Forall₂ Resembles e₁.host e₂.host := by
  obtain ⟨laid, untracked, still, unnoted⟩ := furnished.laid
  obtain ⟨depth, rfl⟩ := Nat.exists_eq_add_of_le' deep
  have habreast (policy : WriteEquality) :
      Abreast e.identities bond? e.graph.sheet.value? (e.under policy) :=
    Laid.abreast (e := e.under policy) laid untracked still
  obtain ⟨e₁, os, seen, hrun, -, hsights, hhost, hseen⟩ := (habreast .skipEqual).runs fair depth
  obtain ⟨e₂, os', seen', hrun', -, hsights', hhost', hseen'⟩ := (habreast .always).runs fair depth
  obtain rfl := hsights.functional hsights'
  refine ⟨e₁, e₂, hrun, hrun', ?_⟩
  rw [hhost, hhost', show (e.under .skipEqual).host = [] from unnoted,
    show (e.under .always).host = [] from unnoted]
  exact resemble_of_common hseen hseen'

namespace Gauge

def settings : Settings := ⟨.skipEqual, 1, Nat.one_pos⟩

def cell : NodeId := ⟨0, 0⟩

def inverse : NodeId := ⟨1, 0⟩

def double : NodeId := ⟨2, 0⟩

def inverseTemplate : Template :=
  ⟨"$\x7b1 / s\x7d", [.expression "1 / s"
    (.binary .divide (.literal (.number 1)) (.path [.key "s"]))]⟩

def doubleTemplate : Template :=
  ⟨"$\x7bs + s\x7d", [.expression "s + s" (.binary .add (.path [.key "s"]) (.path [.key "s"]))]⟩

def context : Value := .object 0 [("s", .cell ⟨.signal, cell⟩)]

def named : Engine (List Outcome) :=
  { start settings [] with identities := 1 }

def holding : Engine (List Outcome) :=
  { named with graph := (named.graph.insertNode (.signal (.number 0)) .clean none).2 }

def inverted : Engine (List Outcome) :=
  { holding with
    graph := (holding.graph.insertNode (.computed (body .text inverseTemplate context) false none)
      .dirty none).2 }

def gauge : Engine (List Outcome) :=
  { inverted with
    graph := (inverted.graph.insertNode (.computed (body .property doubleTemplate context) false none)
      .dirty none).2 }

def bonds : NodeId → Option Bond :=
  Function.update (Function.update (fun _ => none) inverse (some ⟨.text, inverseTemplate, context⟩))
    double (some ⟨.property, doubleTemplate, context⟩)

theorem parse_inverse : Template.parse inverseTemplate.source = .ok inverseTemplate := by
  have tokens : Token.tokenize "1 / s" =
      .ok [⟨.number, "1", 0⟩, ⟨.operator .divide, "/", 2⟩, ⟨.name, "s", 4⟩] := by
    decide +kernel
  have accepted : Expr.parse "1 / s" =
      .ok (.binary .divide (.literal (.number 1)) (.path [.key "s"])) := by
    have one : Expr.numberContent "1" = 1 := by decide +kernel
    rw [Expr.parse, tokens, ← one]
    rfl
  have cut : Chunk.scan inverseTemplate.source = .ok [.region "1 / s" 2] := by cbv
  rw [Template.parse, if_pos (by decide), cut]
  simp [Template.partsOfChunks, accepted, Except.map, inverseTemplate]

theorem parse_double : Template.parse doubleTemplate.source = .ok doubleTemplate := by
  have tokens : Token.tokenize "s + s" =
      .ok [⟨.name, "s", 0⟩, ⟨.operator .add, "+", 2⟩, ⟨.name, "s", 4⟩] := by
    decide +kernel
  have accepted : Expr.parse "s + s" = .ok (.binary .add (.path [.key "s"]) (.path [.key "s"])) := by
    rw [Expr.parse, tokens]
    rfl
  have cut : Chunk.scan doubleTemplate.source = .ok [.region "s + s" 2] := by cbv
  rw [Template.parse, if_pos (by decide), cut]
  simp [Template.partsOfChunks, accepted, Except.map, doubleTemplate]

theorem made_context {live : Cell → Prop} (offered : live ⟨.signal, cell⟩) : context.Made 1 live := by
  refine .object (by decide) (by simp) fun p hp => ?_
  obtain rfl := List.mem_singleton.1 hp
  exact .cell offered

theorem furnished : Furnished settings gauge bonds := by
  have names : Furnished settings named fun _ => none :=
    .fresh .start (show run 0 (.fresh fun _ => .done (.ok .undefined)) _ = some (_, named) from rfl)
  have holds : Furnished settings holding fun _ => none :=
    .signal names (.number 0)
      (show run 0 (.newSignal _ fun _ => .done (.ok .undefined)) named = some (_, holding) from rfl)
  have inverts : Furnished settings inverted
      (Function.update (fun _ => none) inverse (some ⟨.text, inverseTemplate, context⟩)) :=
    .bind holds parse_inverse (made_context ⟨rfl, rfl⟩)
      (show run 0 (bind _ _ _ none _) holding = some (_, inverted) from rfl)
  exact .bind inverts parse_double (made_context ⟨rfl, rfl⟩)
    (show run 0 (bind _ _ _ none _) inverted = some (_, gauge) from rfl)

/-- The double before and after a zero is written over its negative, and changed to that; the inverse of
a seven in a batch. -/
def careful : Usage :=
  .look double false <| .set cell (.number (-0)) <| .look double true <|
    .update cell (Value.unary .negate) <| .batch
      (.set cell (.number 7) <| .look inverse true .done) (.look double false .done)

/-- The inverse once the zero is written over by its negative. -/
def doubtful : Usage :=
  .set cell (.number (-0)) <| .look inverse true .done

def skipping : Engine (List Outcome) :=
  ((run 2 doubtful.program (gauge.under .skipEqual)).get (by decide +kernel)).2

def writing : Engine (List Outcome) :=
  ((run 2 doubtful.program (gauge.under .always)).get (by decide +kernel)).2

theorem discreet_double {held : Holdings} (e : Expr) (mem : e ∈ doubleTemplate.expressions) :
    e.Discreet (List Outcome) 1 held context := by
  obtain rfl := List.mem_singleton.1 mem
  exact .binary (.path _) (fun _ _ _ => .path _) nofun

/-- The inverse of a seven tells nothing apart. -/
theorem discreet_inverse {held : Holdings} (found : held cell = some (.number 7)) (e : Expr)
    (mem : e ∈ inverseTemplate.expressions) : e.Discreet (List Outcome) 1 held context := by
  obtain rfl := List.mem_singleton.1 mem
  refine .binary (.literal _) (fun _ _ _ => .path _) fun _ v w _ gives discerns => ?_
  obtain ⟨i, cs, j, -, reckons⟩ := gives
  have hseven : ((Expr.path [.key "s"]).evaluate (σ := List Outcome) context).Reckons held i
      [⟨.signal, cell⟩] (.ok (.number 7)) i := .reached rfl (.follow found (.done _ _))
  obtain rfl := Except.ok.inj (reckons.functional hseven).2.1
  exact absurd discerns.divisor (by decide +kernel)

theorem fair_careful : careful.Fair 1 bonds gauge.graph.sheet.value? := by
  have double {held : Holdings} (b : Bond) (hb : bonds double = some b) :
      b.template.Discreet (List Outcome) 1 held b.context := by
    obtain rfl := Option.some.inj hb
    exact discreet_double
  refine .look double <| .set (.number _) <| .look double <|
    .update (fun v _ => (Value.plain_unary .negate v)) (fun _ _ _ _ => Value.unary_agrees .negate) <|
      .batch (.set (.number _) <| .look (fun b hb => ?_) (.done _)) (.look double (.done _))
  obtain rfl := Option.some.inj hb
  exact discreet_inverse rfl

end Gauge

open Gauge in
/-- Zeros of both signs are written, and the double and the inverse of a seven show the same. -/
theorem policies_alike_gauge :
    Furnished Gauge.settings gauge bonds ∧ careful.Fair 1 bonds gauge.graph.sheet.value? ∧
      ∃ e₁ e₂, run 2 careful.program (gauge.under .skipEqual) = some (.ok .undefined, e₁) ∧
        run 2 careful.program (gauge.under .always) = some (.ok .undefined, e₂) ∧
          List.Forall₂ Resembles e₁.host e₂.host :=
  ⟨furnished, fair_careful, policies_alike furnished fair_careful le_rfl⟩

open Gauge in
/-- A zero is not written over its negative if equal writes are skipped, and the inverse shows it. -/
theorem policies_differ_quotient :
    Furnished Gauge.settings gauge bonds ∧ (Value.number (-0)).Plain gauge.identities ∧
      run 2 doubtful.program (gauge.under .skipEqual) = some (.ok .undefined, skipping) ∧
        run 2 doubtful.program (gauge.under .always) = some (.ok .undefined, Gauge.writing) ∧
          skipping.host = [.ok (.text "Infinity")] ∧
            Gauge.writing.host = [.ok (.text "-Infinity")] ∧
              ¬List.Forall₂ Resembles skipping.host Gauge.writing.host := by
  have hskipping : skipping.host = [.ok (.text "Infinity")] := rfl
  have hwriting : Gauge.writing.host = [.ok (.text "-Infinity")] := rfl
  refine ⟨furnished, .number _, rfl, rfl, hskipping, hwriting, ?_⟩
  rw [hskipping, hwriting]
  rintro (_ | ⟨resembles, -⟩)
  exact absurd resembles.2 (by decide)

end Binding

end LiveTemplate
