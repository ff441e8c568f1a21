import LiveTemplate.Proofs.Binding.Displaying

/-!
# What a client sees

A client writes to signals and looks at bindings over them (`Binding.Usage`). What each signal was last
set to is the ledger. Whether equal writes are skipped or not, the signals hold what agrees with the ledger
(`Binding.Abreast`), and a look at a discreet binding sees what its template comes to on the ledger
(`Binding.Abreast.look`). So all that a client sees is settled by the ledger (`Binding.Abreast.runs`).
-/
namespace LiveTemplate

open Reactive Reactive.Engine

variable {σ : Type} {k : Nat}

namespace Reactive.Holdings

variable {ledger held held' : Holdings} {id : NodeId}

theorem isSome_revise (held : Holdings) (id : NodeId) (change : Value → Value) (x : NodeId) :
    (held.revise id change x).isSome = (held x).isSome := by
  rw [revise]
  split
  · exact Option.isSome_map
  · rfl

theorem live_revise (held : Holdings) (id : NodeId) (change : Value → Value) :
    (held.revise id change).Live = held.Live := by
  funext c
  rw [Live, Live, isSome_revise]

/-- A signal that is in the ledger holds what agrees with its entry. -/
theorem Par.find (par : ledger.Par k held) {v : Value} (found : ledger id = some v) :
    v.Plain k ∧ ∃ w, held id = some w ∧ w.Plain k ∧ v.agrees w = true := by
  have hrel := par id
  rw [found] at hrel
  cases hheld : held id with
  | none => simp [hheld] at hrel
  | some w =>
    rw [hheld, Option.rel_some_some] at hrel
    exact ⟨hrel.1, w, rfl, hrel.2⟩

theorem Par.none_iff (par : ledger.Par k held) : ledger id = none ↔ held id = none := by
  have hrel := par id
  cases hledger : ledger id <;> cases hheld : held id <;> simp_all

/-- After a change of one signal that agrees with the change of its entry. -/
theorem Par.revise (par : ledger.Par k held) (other : ∀ x, x ≠ id → held' x = held x)
    {change : Value → Value} (live : held' id = none ↔ held id = none)
    (entry : ∀ v w, ledger id = some v → held' id = some w →
      (change v).Plain k ∧ w.Plain k ∧ (change v).agrees w = true) :
    (ledger.revise id change).Par k held' := by
  intro x
  rw [Holdings.revise]
  split
  next hx =>
    subst hx
    cases hledger : ledger x <;> cases hheld : held' x
    · exact .none
    · simp_all [par.none_iff.1 hledger]
    · simp [par.none_iff.2 (live.1 hheld)] at hledger
    · exact .some (entry _ _ hledger hheld)
  next hx => exact other x hx ▸ par x

end Reactive.Holdings

namespace Binding

/-! ## Usage -/

/-- A binding as it was asked for. -/
structure Bond where
  kind : BindingKind
  template : Template
  context : Value

def Bond.body (b : Bond) : Program σ :=
  Binding.body b.kind b.template b.context

/-- What a client does: it sets signals, changes them by their present values, and looks at bindings,
also in batches. -/
inductive Usage where
  | done
  | set (id : NodeId) (value : Value) (rest : Usage)
  | update (id : NodeId) (change : Value → Value) (rest : Usage)
  | look (id : NodeId) (tracked : Bool) (rest : Usage)
  | batch (inner rest : Usage)

namespace Usage

/-- The client at work, noting down all that it sees. -/
def program : Usage → Program (List Outcome)
  | done => .pure .undefined
  | set id value rest => (Program.set id value).handle fun _ => rest.program
  | update id change rest => (Program.update id change).handle fun _ => rest.program
  | look id tracked rest =>
    .read ⟨.computed, id⟩ tracked fun seen => .adjust (· ++ [seen]) rest.program
  | batch inner rest => .batch inner.program fun _ => rest.program

/-- The ledger afterwards. -/
def entries (ledger : Holdings) : Usage → Holdings
  | done => ledger
  | set id value rest => rest.entries (ledger.revise id fun _ => value)
  | update id change rest => rest.entries (ledger.revise id change)
  | look _ _ rest => rest.entries ledger
  | batch inner rest => rest.entries (inner.entries ledger)

/-- The client writes plain data, changes equal values to equal ones, and looks at no binding that
tells equal values apart at the time. -/
inductive Fair (k : Nat) (bond? : NodeId → Option Bond) : Holdings → Usage → Prop where
  | done (ledger : Holdings) : Fair k bond? ledger done
  | set {ledger : Holdings} {id : NodeId} {value : Value} {rest : Usage} (plain : value.Plain k)
      (later : Fair k bond? (ledger.revise id fun _ => value) rest) :
      Fair k bond? ledger (set id value rest)
  | update {ledger : Holdings} {id : NodeId} {change : Value → Value} {rest : Usage}
      (plain : ∀ v, v.Plain k → (change v).Plain k)
      (even : ∀ v w, v.Plain k → w.Plain k → v.agrees w = true →
        (change v).agrees (change w) = true)
      (later : Fair k bond? (ledger.revise id change) rest) :
      Fair k bond? ledger (update id change rest)
  | look {ledger : Holdings} {id : NodeId} {tracked : Bool} {rest : Usage}
      (discreet : ∀ b, bond? id = some b →
        b.template.Discreet (List Outcome) k ledger b.context)
      (later : Fair k bond? ledger rest) : Fair k bond? ledger (look id tracked rest)
  | batch {ledger : Holdings} {inner rest : Usage} (within : Fair k bond? ledger inner)
      (later : Fair k bond? (inner.entries ledger) rest) : Fair k bond? ledger (batch inner rest)

/-- What there is to see in a binding: what its template comes to on the ledger. -/
def Sight (k : Nat) (bond? : NodeId → Option Bond) (ledger : Holdings) (id : NodeId) (o : Outcome) :
    Prop :=
  match bond? id with
  | some b => ∃ cs j, (b.body (σ := List Outcome)).Reckons ledger k cs o j
  | none => o = .error (.reactive (.disposed .computed))

/-- All that there is to see for the client. -/
inductive Sights (k : Nat) (bond? : NodeId → Option Bond) : Holdings → Usage → List Outcome → Prop where
  | done (ledger : Holdings) : Sights k bond? ledger done []
  | set {ledger : Holdings} {id : NodeId} {value : Value} {rest : Usage} {os : List Outcome}
      (later : Sights k bond? (ledger.revise id fun _ => value) rest os) :
      Sights k bond? ledger (set id value rest) os
  | update {ledger : Holdings} {id : NodeId} {change : Value → Value} {rest : Usage}
      {os : List Outcome} (later : Sights k bond? (ledger.revise id change) rest os) :
      Sights k bond? ledger (update id change rest) os
  | look {ledger : Holdings} {id : NodeId} {tracked : Bool} {rest : Usage} {o : Outcome}
      {os : List Outcome} (now : Sight k bond? ledger id o) (later : Sights k bond? ledger rest os) :
      Sights k bond? ledger (look id tracked rest) (o :: os)
  | batch {ledger : Holdings} {inner rest : Usage} {os os' : List Outcome}
      (within : Sights k bond? ledger inner os) (later : Sights k bond? (inner.entries ledger) rest os') :
      Sights k bond? ledger (batch inner rest) (os ++ os')

variable {bond? : NodeId → Option Bond} {ledger : Holdings} {id : NodeId}

theorem Sight.functional {o o' : Outcome} (h : Sight k bond? ledger id o)
    (h' : Sight k bond? ledger id o') : o = o' := by
  unfold Sight at h h'
  split at h
  next b hb =>
    simp only [hb] at h'
    obtain ⟨_, _, reckons⟩ := h
    obtain ⟨_, _, reckons'⟩ := h'
    exact (reckons.functional reckons').2.1
  next hb =>
    simp only [hb] at h'
    exact h.trans h'.symm

theorem Sights.functional {usage : Usage} {os os' : List Outcome} (h : Sights k bond? ledger usage os)
    (h' : Sights k bond? ledger usage os') : os = os' := by
  induction h generalizing os' with
  | done => cases h'; rfl
  | set _ ih | update _ ih => cases h' with
    | _ later => exact ih later
  | look now _ ih => cases h' with
    | look now' later => rw [now.functional now', ih later]
  | batch _ _ ih ihLater => cases h' with
    | batch within later => rw [ih within, ihLater later]

end Usage

/-! ## Looks and writes -/

/-- The same outcome to an eye that takes equal values for one, with the same text. -/
def Resembles (o o' : Outcome) : Prop :=
  o.Alike o' ∧ o.toOption.map Value.toText = o'.toOption.map Value.toText

theorem Resembles.of_agrees {v w : Value} (hv : v.Proper) (hw : w.Proper) (h : v.agrees w = true) :
    Resembles (.ok v) (.ok w) :=
  ⟨⟨hv, hw, h⟩, congrArg some (Value.toText_of_agrees h)⟩

theorem Resembles.symm {o o' : Outcome} (h : Resembles o o') : Resembles o' o :=
  ⟨h.1.symm, h.2.symm⟩

theorem Resembles.trans {o o' o'' : Outcome} (h : Resembles o o') (h' : Resembles o' o'') :
    Resembles o o'' :=
  ⟨h.1.trans h'.1, h.2.trans h'.2⟩

/-- An engine of bindings whose signals hold what agrees with the ledger. -/
structure Abreast (k : Nat) (bond? : NodeId → Option Bond) (ledger : Holdings)
    (e : Engine (List Outcome)) : Prop where
  displays : e.Displays k
  par : ledger.Par k e.graph.sheet.value?
  bodies : e.graph.sheet.body? = fun id => (bond? id).map Bond.body
  bonds : ∀ {id : NodeId} {b : Bond}, bond? id = some b →
    b.template.Written ∧ b.context.Made k ledger.Live

variable {bond? : NodeId → Option Bond} {ledger : Holdings} {e : Engine (List Outcome)} {id : NodeId}

/-- The notes of the client do not matter. -/
theorem Abreast.note (h : Abreast k bond? ledger e) (host : List Outcome) :
    Abreast k bond? ledger { e with host := host } :=
  ⟨⟨h.displays.graph, h.displays.untracked, h.displays.still, h.displays.identities⟩, h.par, h.bodies,
    h.bonds⟩

/-- Nor does the number of open batches. -/
theorem Abreast.deep (h : Abreast k bond? ledger e) (batchDepth : Nat) :
    Abreast k bond? ledger { e with batchDepth := batchDepth } :=
  ⟨⟨h.displays.graph, h.displays.untracked, h.displays.still, h.displays.identities⟩, h.par, h.bodies,
    h.bonds⟩

/-- What a binding is reckoned to on what the signals hold resembles what it is reckoned to on the
ledger, with other identities. -/
theorem Abreast.resembles (h : Abreast k bond? ledger e) {b : Bond} (bound : bond? id = some b)
    (discreet : b.template.Discreet (List Outcome) k ledger b.context) {i j : Nat} {cs : List Cell}
    {o : Outcome} (le : k ≤ i)
    (reckons : (b.body (σ := List Outcome)).Reckons e.graph.sheet.value? i cs o j) :
    ∃ o', Usage.Sight k bond? ledger id o' ∧ Resembles o o' := by
  obtain ⟨written, made⟩ := h.bonds bound
  obtain ⟨v, w, _, _, hledger, hheld, twin⟩ := twins_body b.kind discreet written h.par made le
  obtain ⟨-, rfl, -⟩ := reckons.functional hheld
  -- on the ledger the identities do not matter
  have hlive (c : Cell) (live : ledger.Live c) :
      c.kind = .signal ∧ ∃ v, ledger c.node = some v ∧ v.Plain k := by
    obtain ⟨v, hv⟩ := Option.isSome_iff_exists.1 live.2
    exact ⟨live.1, v, hv, (h.par.find hv).1⟩
  obtain ⟨_, o₁, o₂, _, _, h₁, h₂, ends⟩ :=
    (steady_body b.kind written made k i k le_rfl le le_rfl).reckons hlive le_rfl le_rfl
  obtain ⟨-, rfl, -⟩ := hledger.functional h₁
  rcases ends with ⟨v', w', _, _, hv', rfl, herase, -, proper⟩ | ⟨_, hfault, -⟩
  · obtain rfl := Except.ok.inj hv'
    refine ⟨_, ?_, .of_agrees twin.right proper (Value.agrees_trans twin.right
      (Value.agrees_symm twin.left twin.right twin.content) (Value.agrees_of_erase_eq twin.left herase))⟩
    simp only [Usage.Sight, bound]
    exact ⟨_, _, h₂⟩
  · cases hfault

/-- A look sees what there is to see. -/
theorem Abreast.look (h : Abreast k bond? ledger e) (discreet : ∀ b, bond? id = some b →
      b.template.Discreet (List Outcome) k ledger b.context) (tracked : Bool) (depth : Nat) :
    ∃ g used o o', e.readCell (refreshWithin (depth + 2)) ⟨.computed, id⟩ tracked =
        some (o, { e with graph := g, identities := used }) ∧
      Abreast k bond? ledger { e with graph := g, identities := used } ∧
        Usage.Sight k bond? ledger id o' ∧ Resembles o o' := by
  have hbody := congrFun h.bodies id
  cases hbond : bond? id with
  | none =>
    rw [hbond] at hbody
    refine ⟨e.graph, e.identities, _, _, readCell_unbound hbody tracked, h, ?_, .refl trivial, rfl⟩
    simp only [Usage.Sight, hbond]
  | some b =>
    rw [hbond] at hbody
    obtain ⟨g, i, cs, o, j, used, hread, hdisplays, hsheet, le, reckons⟩ :=
      h.displays.read hbody depth tracked
    obtain ⟨o', hsight, hresembles⟩ := h.resembles hbond (discreet b hbond) le reckons
    exact ⟨g, used, o, o', hread, ⟨hdisplays, hsheet ▸ h.par, hsheet ▸ h.bodies, h.bonds⟩, hsight,
      hresembles⟩

/-- A write of what agrees with the new entry, skipped or not. -/
theorem Abreast.write (h : Abreast k bond? ledger e) {value : Value} (plain : value.Plain k)
    {change : Value → Value}
    (fits : ∀ v, ledger id = some v → (change v).Plain k ∧ (change v).agrees value = true)
    (refresh : NodeId → Engine (List Outcome) → Option (Engine (List Outcome))) :
    ∃ r g, e.writeSignal refresh id value = some (r, { e with graph := g }) ∧
      Abreast k bond? (ledger.revise id change) { e with graph := g } := by
  obtain ⟨r, g, hwrite, hdisplays, hbodies, hvalues⟩ := h.displays.write plain refresh
  refine ⟨r, g, hwrite, hdisplays, ?_, hbodies.trans h.bodies, fun hb => ?_⟩
  · rcases hvalues with hrevised | ⟨hsame, old, hold, hequals⟩
    · rw [hrevised]
      refine h.par.revise (fun x hx => if_neg hx) ?_ fun v w hv hw => ?_
      · simp
      · simp only [if_true, Option.map_eq_some_iff, exists_and_right] at hw
        obtain ⟨-, rfl⟩ := hw
        exact ⟨(fits v hv).1, plain, (fits v hv).2⟩
    · rw [hsame]
      refine h.par.revise (fun _ _ => rfl) Iff.rfl fun v w hv hw => ?_
      obtain rfl := Option.some.inj (hold.symm.trans hw)
      have hplain := h.displays.graph.plain hold
      have hagrees := Value.agrees_symm hplain.proper plain.proper
        (Value.agrees_of_equals hplain.proper hequals)
      exact ⟨(fits v hv).1, hplain, Value.agrees_trans (fits v hv).1.proper (fits v hv).2 hagrees⟩
  · rw [Holdings.live_revise]
    exact h.bonds hb

/-! ## Clients at work -/

theorem exec_set {e' : Engine (List Outcome)} {value : Value} {r : Except Fault Unit} {depth : Nat}
    {refresh : NodeId → Engine (List Outcome) → Option (Engine (List Outcome))}
    (written : e.writeSignal refresh id value = some (r, e')) :
    ∃ o, (Program.set id value).exec depth refresh e = some (o, e') := by
  cases r <;> exact ⟨_, by rw [Program.set, Program.exec, written]; rfl⟩

theorem Abreast.set (h : Abreast k bond? ledger e) {value : Value} (plain : value.Plain k) (depth : Nat)
    (refresh : NodeId → Engine (List Outcome) → Option (Engine (List Outcome))) :
    ∃ o g, (Program.set id value).exec depth refresh e = some (o, { e with graph := g }) ∧
      Abreast k bond? (ledger.revise id fun _ => value) { e with graph := g } := by
  obtain ⟨r, g, written, habreast⟩ :=
    h.write plain (fun _ _ => ⟨plain, Value.agrees_refl plain.proper⟩) refresh
  obtain ⟨o, hset⟩ := exec_set written
  exact ⟨o, g, hset, habreast⟩

theorem Abreast.update (h : Abreast k bond? ledger e) {change : Value → Value}
    (plain : ∀ v, v.Plain k → (change v).Plain k)
    (even : ∀ v w, v.Plain k → w.Plain k → v.agrees w = true → (change v).agrees (change w) = true)
    (depth : Nat) (refresh : NodeId → Engine (List Outcome) → Option (Engine (List Outcome))) :
    ∃ o g, (Program.update id change).exec depth refresh e = some (o, { e with graph := g }) ∧
      Abreast k bond? (ledger.revise id change) { e with graph := g } := by
  rw [Program.update, Program.exec_bind, Program.peek, Program.exec]
  cases hvalue : e.graph.sheet.value? id with
  | none =>
    refine ⟨_, e.graph, by rw [readCell_unset hvalue]; rfl, ?_⟩
    rwa [Holdings.revise_unset (h.par.none_iff.2 hvalue)]
  | some w =>
    have hplain := h.displays.graph.plain hvalue
    have hfits (v : Value) (hv : ledger id = some v) :
        (change v).Plain k ∧ (change v).agrees (change w) = true := by
      obtain ⟨hv', w', hw', -, hagrees⟩ := h.par.find hv
      obtain rfl := Option.some.inj (hvalue.symm.trans hw')
      exact ⟨plain v hv', even v w hv' hplain hagrees⟩
    obtain ⟨r, g, written, habreast⟩ := h.write (plain w hplain) hfits refresh
    obtain ⟨o, hset⟩ := exec_set written
    exact ⟨o, g, by rw [Program.readCell_signal hvalue]; exact hset, habreast⟩

/-- A client at work sees what there is to see, under any policy. -/
theorem Abreast.runs {usage : Usage} (h : Abreast k bond? ledger e) (fair : usage.Fair k bond? ledger)
    (depth : Nat) : ∃ e' os seen,
      run (depth + 2) usage.program e = some (.ok .undefined, e') ∧
        Abreast k bond? (usage.entries ledger) e' ∧ usage.Sights k bond? ledger os ∧
          e'.host = e.host ++ seen ∧ List.Forall₂ Resembles seen os := by
  induction fair generalizing e with
  | done ledger => exact ⟨e, [], [], rfl, h, .done _, by simp, .nil⟩
  | @set ledger id value rest plain _ ih =>
    obtain ⟨r, g, hset, habreast⟩ := h.set plain (depth + 2) (refreshWithin (depth + 2))
    obtain ⟨e', os, seen, hrun, habreast', hsights, hhost, hseen⟩ := ih habreast
    refine ⟨e', os, seen, ?_, habreast', .set hsights, hhost, hseen⟩
    rw [run, Usage.program, Program.exec_handle, hset]
    exact hrun
  | @update ledger id change rest plain even _ ih =>
    obtain ⟨r, g, hupdate, habreast⟩ := h.update plain even (depth + 2) (refreshWithin (depth + 2))
    obtain ⟨e', os, seen, hrun, habreast', hsights, hhost, hseen⟩ := ih habreast
    refine ⟨e', os, seen, ?_, habreast', .update hsights, hhost, hseen⟩
    rw [run, Usage.program, Program.exec_handle, hupdate]
    exact hrun
  | @look ledger id tracked rest discreet _ ih =>
    obtain ⟨g, used, o, o', hread, habreast, hsight, hresembles⟩ := h.look discreet tracked depth
    obtain ⟨e', os, seen, hrun, habreast', hsights, hhost, hseen⟩ := ih (habreast.note (e.host ++ [o]))
    refine ⟨e', o' :: os, o :: seen, ?_, habreast', .look hsight hsights, ?_, .cons hresembles hseen⟩
    · rw [run, Usage.program, Program.exec, hread]
      exact hrun
    · simpa using hhost
  | @batch ledger inner rest _ _ ih ihLater =>
    obtain ⟨e₁, os, seen, hrun, habreast, hsights, hhost, hseen⟩ := ih (h.deep (e.batchDepth + 1))
    have hclosed := habreast.deep (e₁.batchDepth - 1)
    obtain ⟨e₂, os', seen', hrun', habreast', hsights', hhost', hseen'⟩ := ihLater hclosed
    refine ⟨e₂, os ++ os', seen ++ seen', ?_, habreast', .batch hsights hsights', ?_,
      List.rel_append hseen hseen'⟩
    · rw [run] at hrun
      rw [run, Usage.program, Program.exec, hrun, Option.bind_some]
      dsimp only
      rw [hclosed.displays.flush, Option.bind_some]
      exact hrun'
    · rw [hhost', hhost, List.append_assoc]

end Binding

end LiveTemplate
