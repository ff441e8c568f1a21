import Mathlib
import LiveTemplate.Proofs.Reactive.Reentry
import LiveTemplate.Proofs.Reactive.Visits

/-!
# Reading around a cycle

A computed whose evaluation comes back to it fails as cyclic when it is read, if every computed on the
way runs (`Engine.Consistent.reads_cyclic`). A stale computed runs only if one of its sources changed, and
a source that is running already does not count. So one that trusts what it remembers up to the next
computed on the cycle (`Graph.Trusts`) may break the cycle with an outcome that is out of date.
-/
namespace LiveTemplate.Reactive

variable {σ : Type}

namespace Graph

/-- The first node is not dirty and has recorded the second one, and all that it recorded before shows
its outcome from scratch. -/
def Trusts (g : Graph (Program σ)) (x y : NodeId) : Prop :=
  ∃ n before after, g.node? x = some n ∧ n.freshness ≠ .dirty ∧ n.sources = before ++ y :: after ∧
    ∀ u ∈ before, ∃ cell : Cell, cell.node = u ∧ Reading.Right g.sheet ⟨cell, g.shown u⟩

def Running (g : Graph (Program σ)) (x : NodeId) : Prop :=
  ∃ n, g.node? x = some n ∧ n.isRunning = true

/-- A coherent graph in which no covered computed runs, and no computed on the way from `c` back to
`c` trusts the next one unless it runs. -/
structure Turning (s : Sheet σ) (c : NodeId) (g : Graph (Program σ)) : Prop where
  sheet : g.sheet = s
  coherent : g.Coherent
  reenters : s.Reenters c
  idle : g.Idle fun x => (∃ body, s.body? x = some body) ∧ s.forecast.covers x
  awake : ∀ {x y : NodeId}, s.Circles c x → s.Circles c y → s.Calls x y → ¬g.Running x →
    ¬g.Trusts x y

variable {s : Sheet σ} {c x y : NodeId} {g h : Graph (Program σ)}

theorem Turning.obeys (ht : g.Turning s c) : s.Obeys s.forecast := by
  obtain rfl := ht.sheet
  exact Sheet.obeys_forecast fun _ _ => value?_of_body?

theorem Turning.idle_below (ht : g.Turning s c) (bound : Nat) :
    g.Idle (g.sheet.below s.forecast bound) := by
  obtain rfl := ht.sheet
  exact Idle.mono ht.idle fun x hx => ⟨hx.1, hx.2.1⟩

theorem Refreshed.running {P : NodeId → Prop} (hr : g.Refreshed P h) : h.Running x ↔ g.Running x := by
  constructor
  · rintro ⟨m, hm, hrun⟩
    obtain ⟨n, hn, -⟩ := hr.origin hm
    exact ⟨n, hn, (hr.isRunning hn hm).symm.trans hrun⟩
  · rintro ⟨n, hn, hrun⟩
    obtain ⟨m, hm, -⟩ := hr.find hn
    exact ⟨m, hm, (hr.isRunning hn hm).trans hrun⟩

/-- What a node remembers is no better after others have been brought up to date. -/
theorem Trusts.refreshed {P : NodeId → Prop} (hg : g.Coherent) (hr : g.Refreshed P h) (far : ¬P x)
    (idle : ¬g.Running x) {body : Program σ} (found : g.sheet.body? x = some body)
    (trusts : h.Trusts x y) : g.Trusts x y := by
  obtain ⟨m, before, after, hm, hdirty, hsources, hright⟩ := trusts
  obtain ⟨n, hn, hkept | ⟨hx, -⟩⟩ := hr.origin hm
  case inr => exact absurd hx far
  have hsame : m.freshness = n.freshness := hkept.freshness.resolve_right fun hd => hdirty hd.2
  obtain ⟨n', running, last, hn', hkind⟩ := body?_eq_some.1 found
  obtain rfl := Option.some.inj (hn.symm.trans hn')
  obtain rfl : running = false := Bool.eq_false_iff.2 fun hrun =>
    idle ⟨n, hn, by simp [Node.isRunning, hkind, hrun]⟩
  have hshown (u : NodeId) (hu : u ∈ n.sources) : (g.shown u).Alike (h.shown u) := by
    cases hcase : n.freshness with
    | clean =>
      rw [(hr.of_settled (hg.settled hn hkind hcase u hu)).2]
      exact .refl (hg.shown_proper u)
    | stale => exact hr.steady hn hm hcase (hsame.trans hcase) u hu
    | dirty => exact absurd (hsame.trans hcase) hdirty
  refine ⟨n, before, after, hn, hsame ▸ hdirty, hkept.sources ▸ hsources, fun u hu => ?_⟩
  obtain ⟨cell, rfl, o, hgives, halike⟩ := hright u hu
  have hmem : cell.node ∈ n.sources := by
    rw [← hkept.sources, hsources]
    exact List.mem_append_left _ hu
  exact ⟨cell, rfl, o, hr.sheet ▸ hgives, (hshown _ hmem).trans halike⟩

theorem Turning.refreshed (ht : g.Turning s c) {bound : Nat}
    (hr : g.Refreshed (g.sheet.below s.forecast bound) h) (hh : h.Coherent) : h.Turning s c where
  sheet := hr.sheet.trans ht.sheet
  coherent := hh
  reenters := ht.reenters
  idle := hr.idle ht.idle
  awake {x y} hx hy calls idle trusts := by
    obtain ⟨body, found, -⟩ := id calls
    have hidle : ¬g.Running x := fun hrun => idle (hr.running.2 hrun)
    rw [← ht.sheet] at found
    refine ht.awake hx hy calls hidle (trusts.refreshed ht.coherent hr (fun hbelow => ?_) hidle found)
    exact hx.not_covers ht.reenters (ht.sheet ▸ found) hbelow.2.1

/-- A computed of the cycle begins to run. -/
theorem Turning.begun (ht : g.Turning s c) (hx : s.Circles c x) {n : Node (Program σ)}
    {body : Program σ} {last : Option Outcome} (found : g.node? x = some n)
    (kind : n.kind = .computed body false last) (late : n.freshness ≠ .clean) :
    (g.begun x (.computed body true last)).Turning s c := by
  have hsheet := sheet_begun found kind
  have hbody : s.body? x = some body := ht.sheet ▸ body?_of_kind found kind
  have hself : (g.begun x (.computed body true last)).Running x :=
    ⟨_, begun_self found _, rfl⟩
  refine ⟨hsheet.trans ht.sheet, ht.coherent.begun found kind late, ht.reenters, ?_, ?_⟩
  · intro z m hz hm
    have hne : z ≠ x := by
      rintro rfl
      exact hx.not_covers ht.reenters hbody hz.2
    exact ht.idle hz ((begun_other hne).symm.trans hm)
  · rintro z y hz hy calls idle ⟨m, before, after, hm, hdirty, hsources, hright⟩
    have hne : z ≠ x := by
      rintro rfl
      exact idle hself
    rw [begun_other hne] at hm
    refine ht.awake hz hy calls (fun ⟨k, hk, hrun⟩ => idle ⟨k, (begun_other hne).trans hk, hrun⟩)
      ⟨m, before, after, hm, hdirty, hsources, fun u hu => ?_⟩
    rw [← shown_begun found kind, ← hsheet]
    exact hright u hu

/-- An idle computed that is to call the next one on the cycle, and does not trust it, recorded
something before that has changed. -/
theorem Turning.changed (ht : g.Turning s c) (hx : s.Circles c x) (hy : s.Circles c y)
    (calls : s.Calls x y) {n : Node (Program σ)} {body : Program σ} {last : Option Outcome}
    (found : g.node? x = some n) (kind : n.kind = .computed body false last)
    (higher : n.freshness ≠ .dirty) {bound : Nat} (leads : s.Leads s.forecast bound body y) :
    ∃ before t after, n.sources = before ++ t :: after ∧
      (∀ u ∈ before, ∃ cell : Cell, cell.node = u ∧ Engine.Ready s.forecast bound s cell) ∧
      ∃ cell : Cell, cell.node = t ∧ Engine.Ready s.forecast bound s cell ∧
        ¬(g.shown t).Alike (s.forecast.outcome t) := by
  have hbody := body?_of_kind found kind
  have hcurrent := ht.coherent.current found kind higher
  obtain rfl := ht.sheet
  have hfar (cell : Cell) (hcell : cell.node = y) :
      ¬Engine.Ready g.sheet.forecast bound g.sheet cell := by
    rintro ⟨holds, lower⟩
    obtain ⟨body', hbody'⟩ := hy.isComputed ht.reenters
    obtain ⟨kind', id⟩ := cell
    subst hcell
    cases kind' with
    | signal =>
      obtain ⟨v, hv⟩ := holds
      simp [value?_of_body? hbody'] at hv
    | computed => exact hy.not_covers ht.reenters hbody' (lower rfl).1
  obtain ⟨before, t, after, hsources, hbefore, hend⟩ :=
    leads.split hfar (ht.coherent.lawful hbody) g.shown fun _ ht => absurd ht List.not_mem_nil
  rcases hend with rfl | hchanged
  · exfalso
    refine ht.awake hx hy calls (fun ⟨m, hm, hrun⟩ => ?_)
      ⟨n, before, after, found, higher, hcurrent.sources.trans hsources, fun u hu => ?_⟩
    · obtain rfl := Option.some.inj (found.symm.trans hm)
      simp [Node.isRunning, kind] at hrun
    · obtain ⟨cell, rfl, hready, halike⟩ := hbefore u hu
      exact ⟨cell, rfl, _, Sheet.gives_forecast (fun _ _ => value?_of_body?) hready.holds
        fun hk => (hready.lower hk).1, halike⟩
  · exact ⟨before, t, after, hcurrent.sources.trans hsources,
      fun u hu => (hbefore u hu).imp fun cell h => ⟨h.1, h.2.1⟩, hchanged⟩

end Graph

namespace Engine

open Reactive.Graph

variable {F : Forecast} {bound d : Nat} (depth : Nat) {refresh : NodeId → Engine σ → Option (Engine σ)}
  {e : Engine σ} {s : Sheet σ} {c x y : NodeId}

/-- A stale node is dirty by the time that a source has been asked which changed. -/
theorem askSources_wakes (serves : Serves F d refresh) (hg : e.graph.Coherent)
    (hF : e.graph.sheet.Obeys F) (idle : e.graph.Idle (e.graph.sheet.below F bound)) {id : NodeId}
    (far : ¬e.graph.sheet.below F bound id) {n : Node (Program σ)}
    (found : e.graph.node? id = some n) (stale : n.freshness = .stale) {before after : List NodeId}
    (ready : ∀ u ∈ before, ∃ cell : Cell, cell.node = u ∧ Ready F bound e.graph.sheet cell)
    {cell : Cell} (source : Ready F bound e.graph.sheet cell) (mem : cell.node ∈ n.sources)
    (changed : ¬(e.graph.shown cell.node).Alike (F.outcome cell.node)) :
    Yields (bound ≤ d) (askSources refresh id (before ++ cell.node :: after) e) fun e' => ∃ g,
      e' = { e with graph := g } ∧ e.graph.Refreshed (e.graph.sheet.below F bound) g ∧
        g.Coherent ∧ ∃ m, g.node? id = some m ∧ n.Kept m ∧ m.freshness = .dirty := by
  induction before generalizing e n with
  | nil =>
    refine askSources_cons serves hg hF idle far found stale source (fun _ _ hd => hd)
      fun {g m} hr hg' hset hm hkept hstale => ?_
    have halike := Ready.alike (hr.sheet.symm ▸ source) hg' (hr.sheet.symm ▸ hF) hset
    exact absurd ((hr.steady found hm stale hstale _ mem).trans halike) changed
  | cons u before ih =>
    obtain ⟨cell', rfl, hready⟩ := ready _ List.mem_cons_self
    refine askSources_cons serves hg hF idle far found stale hready (fun _ _ hd => hd)
      fun {g m} hr hg' _ hm hkept hstale => ?_
    have hsheet := hr.sheet
    refine ih (e := { e with graph := g }) hg' (hsheet ▸ hF) (hsheet ▸ hr.idle idle) (hsheet ▸ far)
      hm hstale (fun u hu => ?_) (hsheet ▸ source) (hkept.sources ▸ mem) fun halike => changed ?_
    · rw [hsheet]
      exact ready u (List.mem_cons_of_mem _ hu)
    · exact (hr.steady found hm stale hstale _ mem).trans halike

/-- The read failed as cyclic, and the sheet is the same. -/
def Fails (s : Sheet σ) (r : Outcome × Engine σ) : Prop :=
  r.1 = .error (.reactive .cyclic) ∧ r.2.graph.sheet = s

/-- A read of the computed fails, whenever the one at the head of the cycle is running. -/
def Closes (s : Sheet σ) (c : NodeId) (enough d : Nat) (y : NodeId) : Prop :=
  ∀ (e : Engine σ) (tracked : Bool), e.graph.Turning s c → e.graph.Running c →
    Yields (enough ≤ d) (e.readCell (refreshWithin d) ⟨.computed, y⟩ tracked) (Fails s)

/-- So does a program that leads to it. -/
theorem exec_leads {p q : Program σ} (leads : s.Leads s.forecast bound p y) (alike : q.Alike p)
    (passes : q.Passes) {enough : Nat} (closes : Closes s c enough d y)
    (turning : e.graph.Turning s c) (running : e.graph.Running c) :
    Yields (max bound enough ≤ d) (q.exec depth (refreshWithin d) e) (Fails s) := by
  induction leads generalizing e q with
  | here => cases alike with
    | read _ _ => cases passes with
      | read _ _ fault _ =>
        refine ((closes e true turning running).mono (fun h => by omega) fun _ h => h).bind ?_
        rintro ⟨o, e'⟩ ⟨rfl, hsheet⟩
        simp only [fault]
        exact .some ⟨rfl, hsheet⟩
  | @read cell y next ready rest ih => cases alike with
    | @read _ next' _ halike => cases passes with
      | read _ _ fault hrest =>
        obtain rfl := turning.sheet
        have hread := readCell_spec (serves_refreshWithin _ d) turning.coherent turning.obeys ready
          (turning.idle_below bound) true
        refine (hread.mono (fun h => by omega) fun _ h => h).bind ?_
        rintro ⟨o, e'⟩ ⟨g, rfl, hr, hg, hset, rfl⟩
        have hsheet := hr.sheet
        have hready : Ready e.graph.sheet.forecast bound g.sheet cell := by rwa [hsheet]
        have hobeys : g.sheet.Obeys e.graph.sheet.forecast := by
          rw [hsheet]
          exact turning.obeys
        have hnext := halike _ _ (hready.alike hg hobeys hset)
        have hpasses : (next' (g.shown cell.node)).Passes := by
          cases hshown : g.shown cell.node with
          | ok v => exact hrest v
          | error f =>
            rw [hshown, fault] at hnext
            exact fault f ▸ .done _
        refine ih hnext hpasses closes ?_ ?_
        · rw [graph_trackIf]
          exact turning.refreshed hr hg
        · rw [graph_trackIf]
          exact hr.running.2 running

/-- A late computed of the cycle runs and fails. -/
theorem runNode_fails {n : Node (Program σ)} {body : Program σ} {last : Option Outcome}
    (turning : e.graph.Turning s c) (circles : s.Circles c x) (found : e.graph.node? x = some n)
    (kind : n.kind = .computed body false last) (late : n.freshness ≠ .clean)
    (passes : body.Passes) (leads : s.Leads s.forecast bound body y) {enough : Nat}
    (closes : Closes s c enough d y) (head : e.graph.Running c ∨ x = c) :
    Yields (max bound enough ≤ d) (runNode depth (refreshWithin d) x e) fun e' =>
      e'.graph.sheet = s ∧ e'.shownOutcome x = .error (.reactive .cyclic) := by
  have hbegun := turning.begun circles found kind late
  have hhead : (e.graph.begun x (.computed body true last)).Running c := by
    rcases head with ⟨m, hm, hrun⟩ | rfl
    · have hne : c ≠ x := by
        rintro rfl
        obtain rfl := Option.some.inj (found.symm.trans hm)
        simp [Node.isRunning, kind] at hrun
      exact ⟨m, (begun_other hne).trans hm, hrun⟩
    · exact ⟨_, begun_self found _, rfl⟩
  have hbody := turning.coherent.lawful (body?_of_kind found kind)
  have hrun := exec_leads depth leads hbody passes closes
    (e := e.beginRun x (.computed body true last)) hbegun hhead
  have hs := turning.sheet ▸ body?_of_kind found kind
  obtain ⟨_, freshness, sources, subscribers, owner⟩ := n
  subst kind
  simp only [runNode, found]
  refine hrun.map ?_
  rintro ⟨o, e'⟩ ⟨rfl, hsheet⟩
  simp only at hsheet
  obtain ⟨m, running, last', hm, hkind⟩ := body?_eq_some.1 (hsheet ▸ hs)
  rw [storeOutcome_closeRun]
  refine ⟨(sheet_finished hm hkind _ _).trans hsheet, ?_⟩
  obtain ⟨⟨_, _, _, _, _⟩, hm', rfl⟩ := Option.map_eq_some_iff.1
    ((kind_finished hm hkind e'.collected (.error (.reactive .cyclic)) x).trans (if_pos rfl))
  simp only [shownOutcome, hm']

/-- One level of nesting: an idle computed of the cycle fails if the next one does. -/
theorem closes_succ {n : Node (Program σ)} {body : Program σ} {last : Option Outcome}
    (turning : e.graph.Turning s c) (hx : s.Circles c x) (hy : s.Circles c y)
    (calls : s.Calls x y) (found : e.graph.node? x = some n)
    (kind : n.kind = .computed body false last) (passes : body.Passes)
    (leads : s.Leads s.forecast bound body y) {enough : Nat} (closes : Closes s c enough d y)
    (head : e.graph.Running c ∨ x = c) (tracked : Bool) :
    Yields (max bound enough + 1 ≤ d + 1)
      (e.readCell (refreshWithin (d + 1)) ⟨.computed, x⟩ tracked) (Fails s) := by
  have hrefresh : Yields (max bound enough ≤ d) (refreshWithin (d + 1) x e) fun e' =>
      e'.graph.sheet = s ∧ e'.shownOutcome x = .error (.reactive .cyclic) := by
    have hfresh : e.graph.freshness? x = some n.freshness := by simp [freshness?, found]
    obtain rfl := turning.sheet
    simp only [refreshWithin, refreshOver, found]
    cases hcase : n.freshness with
    | dirty =>
      simp only [reduceCtorEq, if_false, Option.bind_some, hfresh, hcase]
      exact runNode_fails d turning hx found kind (by simp [hcase]) passes leads closes head
    | clean =>
      -- all that it recorded is settled, so nothing has changed
      exfalso
      obtain ⟨before, _, after, hsources, -, cell, rfl, hready, hchanged⟩ :=
        turning.changed hx hy calls found kind (by simp [hcase]) leads
      have hset := turning.coherent.settled found kind hcase cell.node (by simp [hsources])
      exact hchanged (hready.alike turning.coherent turning.obeys hset)
    | stale =>
      obtain ⟨before, _, after, hsources, hbefore, cell, rfl, hready, hchanged⟩ :=
        turning.changed hx hy calls found kind (by simp [hcase]) leads
      have hfar : ¬e.graph.sheet.below e.graph.sheet.forecast bound x := fun h =>
        hx.not_covers turning.reenters (body?_of_kind found kind) h.2.1
      have hasked : Yields _ (askSources _ x (before ++ cell.node :: after) e) _ :=
        askSources_wakes (serves_refreshWithin _ d) turning.coherent turning.obeys
          (turning.idle_below bound) hfar found hcase hbefore hready (by simp [hsources]) hchanged
      simp only [if_true, hsources]
      refine (hasked.mono (fun h => by omega) fun _ h => h).bind ?_
      rintro _ ⟨g, rfl, hr, hg, m, hm, hkept, hdirty⟩
      have hfresh' : g.freshness? x = some .dirty := by simp [freshness?, hm, hdirty]
      simp only [hfresh']
      exact runNode_fails d (e := { e with graph := g }) (turning.refreshed hr hg) hx hm
        (hkept.kind.trans kind) (by simp [hdirty]) passes leads closes (head.imp_left hr.running.2)
  obtain ⟨_, freshness, sources, subscribers, owner⟩ := n
  subst kind
  simp only [readCell, found]
  refine (hrefresh.mono Nat.le_of_succ_le_succ fun _ h => h).map ?_
  rintro e' ⟨hsheet, hshown⟩
  exact ⟨hshown, by simpa using hsheet⟩

theorem read_running {n : Node (Program σ)} {body : Program σ} {last : Option Outcome}
    (found : e.graph.node? x = some n) (kind : n.kind = .computed body true last)
    (refresh : NodeId → Engine σ → Option (Engine σ)) (tracked : Bool) :
    e.readCell refresh ⟨.computed, x⟩ tracked = some (.error (.reactive .cyclic), e) := by
  obtain ⟨_, _, _, _, _⟩ := n
  subst kind
  simp only [readCell, found]

/-- Along the cycle, back to its head, which is running. -/
theorem exists_closes {g : Graph (Program σ)} (hg : g.Coherent)
    (passes : ∀ {id body}, g.sheet.body? id = some body → body.Passes) (reenters : g.sheet.Reenters c)
    (hx : g.sheet.Circles c x) : ∃ enough, ∀ d, Closes g.sheet c enough d x := by
  obtain ⟨out, back⟩ := hx
  induction back using Relation.ReflTransGen.head_induction_on with
  | refl =>
    refine ⟨0, fun d e tracked turning ⟨n, hn, hrun⟩ => ?_⟩
    obtain ⟨body, hbody⟩ := (Sheet.Circles.mk .refl .refl).isComputed reenters
    obtain ⟨n', running, last, hn', hkind⟩ := body?_eq_some.1 (turning.sheet ▸ hbody)
    obtain rfl := Option.some.inj (hn.symm.trans hn')
    obtain rfl : running = true := by simpa [Node.isRunning, hkind] using hrun
    rw [read_running hn hkind]
    exact .some ⟨rfl, turning.sheet⟩
  | @head x y calls back ih =>
    obtain ⟨enough, closes⟩ := ih (out.tail calls)
    obtain ⟨body, hbody, asks⟩ := id calls
    obtain ⟨bound, leads⟩ := hg.leads passes asks (hg.lawful hbody) (passes hbody)
    refine ⟨max bound enough + 1, fun d e tracked turning head => ?_⟩
    obtain ⟨n, running, last, hn, hkind⟩ := body?_eq_some.1 (turning.sheet ▸ hbody)
    cases running with
    | true =>
      rw [read_running hn hkind]
      exact .some ⟨rfl, turning.sheet⟩
    | false => cases d with
      | zero =>
        obtain ⟨_, _, _, _, _⟩ := n
        subst hkind
        simp only [readCell, hn, refreshWithin, Option.map_none]
        exact .none (by omega)
      | succ d =>
        exact closes_succ turning ⟨out, .head calls back⟩ ⟨out.tail calls, back⟩ calls hn hkind
          (passes hbody) leads (closes d) (.inl head) tracked

/-- A read of a computed whose evaluation comes back to it returns, if the depth is enough, and what it
returns is that there is a cycle, as long as no computed of the cycle trusts the next one. -/
theorem Consistent.reads_cyclic (consistent : e.Consistent)
    (passes : ∀ {id body}, e.graph.sheet.body? id = some body → body.Passes)
    (reenters : e.graph.sheet.Reenters c)
    (awake : ∀ {x y}, e.graph.sheet.Circles c x → e.graph.sheet.Circles c y →
      e.graph.sheet.Calls x y → ¬e.graph.Trusts x y) (tracked : Bool) :
    ∃ enough, ∀ depth,
      (enough ≤ depth → (e.readCell (refreshWithin depth) ⟨.computed, c⟩ tracked).isSome) ∧
        ∀ {r : Outcome} {e' : Engine σ},
          e.readCell (refreshWithin depth) ⟨.computed, c⟩ tracked = some (r, e') →
            r = .error (.reactive .cyclic) := by
  have hg := consistent.coherent
  have turning : e.graph.Turning e.graph.sheet c :=
    ⟨rfl, hg, reenters, fun {x n} _ hn => consistent.idle trivial hn,
      fun hx hy calls _ => awake hx hy calls⟩
  obtain ⟨y, calls, back⟩ := Relation.TransGen.head'_iff.1 reenters
  obtain ⟨body, hbody, asks⟩ := id calls
  obtain ⟨bound, leads⟩ := hg.leads passes asks (hg.lawful hbody) (passes hbody)
  have hy : e.graph.sheet.Circles c y := ⟨.single calls, back⟩
  obtain ⟨enough, closes⟩ := exists_closes hg passes reenters hy
  obtain ⟨n, running, last, hn, hkind⟩ := body?_eq_some.1 hbody
  obtain rfl : running = false := by
    simpa [Node.isRunning, hkind] using consistent.idle trivial hn
  have hread (d : Nat) : Yields (max bound enough + 1 ≤ d)
      (e.readCell (refreshWithin d) ⟨.computed, c⟩ tracked) (Fails e.graph.sheet) := by
    cases d with
    | zero =>
      obtain ⟨_, _, _, _, _⟩ := n
      subst hkind
      simp only [readCell, hn, refreshWithin, Option.map_none]
      exact .none (by omega)
    | succ d =>
      exact closes_succ turning ⟨.refl, .refl⟩ hy calls hn hkind (passes hbody) leads (closes d)
        (.inr rfl) tracked
  exact ⟨_, fun depth => ⟨(hread depth).2, fun hr => ((hread depth).1 _ hr).1⟩⟩

/-! ## A pair of computeds -/

namespace Pair

def flag : NodeId := ⟨0, 0⟩

def ticks : NodeId := ⟨1, 0⟩

def steady : NodeId := ⟨2, 0⟩

def outer : NodeId := ⟨3, 0⟩

def inner : NodeId := ⟨4, 0⟩

/-- Reads a cell, passes on a fault, and goes on with a value. -/
def reading (cell : Cell) (next : Value → Program Journal) : Program Journal :=
  .read cell true fun
    | .ok v => next v
    | .error f => .fail f

/-- Reads a signal and gives the same whatever it holds. -/
def steadyBody : Program Journal :=
  reading ⟨.signal, ticks⟩ fun _ => .pure .null

def outerBody : Program Journal :=
  reading ⟨.computed, inner⟩ .pure

def isSet : Value → Bool
  | .bool true => true
  | _ => false

/-- Comes back to the other computed if the flag is set. -/
def innerBody : Program Journal :=
  reading ⟨.signal, flag⟩ fun v =>
    if isSet v then
      reading ⟨.computed, outer⟩ fun w => reading ⟨.computed, steady⟩ fun _ => .pure w
    else .pure .null

theorem passes_reading {cell : Cell} {next : Value → Program Journal} (h : ∀ v, (next v).Passes) :
    (reading cell next).Passes :=
  .read _ _ (fun _ => rfl) h

theorem alike_reading {cell : Cell} {next next' : Value → Program Journal}
    (h : ∀ v w, v.Proper → w.Proper → v.agrees w = true → (next v).Alike (next' w)) :
    (reading cell next).Alike (reading cell next') := by
  refine .read _ fun r r' hr => ?_
  obtain ⟨hp, hp', ha⟩ := hr
  cases r with
  | ok v => cases r' with
    | ok w => exact h v w hp hp' ha
    | error => simp [Outcome.agrees] at ha
  | error f => cases r' with
    | ok => simp [Outcome.agrees] at ha
    | error f' => exact .done ⟨hp, hp', ha⟩

theorem alike_pure {v w : Value} (hv : v.Proper) (hw : w.Proper) (h : v.agrees w = true) :
    (Program.pure v : Program Journal).Alike (.pure w) :=
  .done ⟨hv, hw, h⟩

theorem lawful_steadyBody : steadyBody.Lawful :=
  alike_reading fun _ _ _ _ _ => alike_pure .null .null rfl

theorem lawful_outerBody : outerBody.Lawful :=
  alike_reading fun _ _ => alike_pure

theorem lawful_innerBody : innerBody.Lawful := by
  refine alike_reading fun v w _ _ h => ?_
  have hsame : isSet v = isSet w := by
    cases v <;> cases w <;> simp_all [Value.agrees, isSet]
  rw [hsame]
  split
  · exact alike_reading fun _ _ hv hv' h => alike_reading fun _ _ _ _ _ =>
      alike_pure hv hv' h
  · exact alike_pure .null .null rfl

theorem passes_innerBody : innerBody.Passes := by
  refine passes_reading fun v => ?_
  split
  · exact passes_reading fun _ => passes_reading fun _ => .done _
  · exact .done _

/-- A signal for the flag and one that counts, and the computeds, which have not run. -/
def cells (flag : Bool) : Graph (Program Journal) :=
  let g : Graph (Program Journal) := ((Graph.empty).insertNode (.signal (.bool flag)) .clean none).2
  let g := (g.insertNode (.signal .null) .clean none).2
  let g := (g.insertNode (.computed steadyBody false none) .dirty none).2
  let g := (g.insertNode (.computed outerBody false none) .dirty none).2
  (g.insertNode (.computed innerBody false none) .dirty none).2

def engine (flag : Bool) : Engine Journal := { start .default [] with graph := cells flag }

theorem visited_engine (flag : Bool) (mode : Bool → Prop) (allowed : Except Fault Unit → Prop) :
    Visited mode allowed .default (engine flag) := by
  have h₀ : Visited mode allowed .default (start .default []) := .reached .start
  have h₁ := h₀.newSignal (Value.Proper.bool flag) rfl
  have h₂ := h₁.newSignal Value.Proper.null rfl
  have h₃ := h₂.newComputed lawful_steadyBody rfl
  have h₄ := h₃.newComputed lawful_outerBody rfl
  exact h₄.newComputed lawful_innerBody rfl

theorem body_cells {flag : Bool} {id : NodeId} {body : Program Journal}
    (found : (cells flag).sheet.body? id = some body) :
    body = steadyBody ∨ body = outerBody ∨ body = innerBody := by
  obtain ⟨n, running, last, hn, hk⟩ := body?_eq_some.1 found
  obtain ⟨-, rfl⟩ | hn := insertNode_origin hn
  · cases hk
    exact .inr (.inr rfl)
  obtain ⟨-, rfl⟩ | hn := insertNode_origin hn
  · cases hk
    exact .inr (.inl rfl)
  obtain ⟨-, rfl⟩ | hn := insertNode_origin hn
  · cases hk
    exact .inl rfl
  obtain ⟨-, rfl⟩ | hn := insertNode_origin hn
  · cases hk
  obtain ⟨-, rfl⟩ | hn := insertNode_origin hn
  · cases hk
  cases hn

theorem passes_cells {flag : Bool} {id : NodeId} {body : Program Journal}
    (found : (cells flag).sheet.body? id = some body) : body.Passes := by
  obtain rfl | rfl | rfl := body_cells found
  · exact passes_reading fun _ => .done _
  · exact passes_reading fun _ => .done _
  · exact passes_innerBody

/-- If the flag is set, each of the two computeds calls the other one. -/
theorem reenters_of_flag {s : Sheet Journal} (hflag : s.value? flag = some (.bool true))
    (houter : s.body? outer = some outerBody) (hinner : s.body? inner = some innerBody) :
    s.Reenters inner :=
  .tail (.single ⟨_, hinner, .signal hflag (.here houter)⟩) ⟨_, houter, .here hinner⟩

theorem bare_cells {flag : Bool} {x : NodeId} {n : Node (Program Journal)}
    (hn : (cells flag).node? x = some n) : n.isEffect = false ∧ n.sources = [] := by
  obtain ⟨-, rfl⟩ | hn := insertNode_origin hn
  · exact ⟨rfl, rfl⟩
  obtain ⟨-, rfl⟩ | hn := insertNode_origin hn
  · exact ⟨rfl, rfl⟩
  obtain ⟨-, rfl⟩ | hn := insertNode_origin hn
  · exact ⟨rfl, rfl⟩
  obtain ⟨-, rfl⟩ | hn := insertNode_origin hn
  · exact ⟨rfl, rfl⟩
  obtain ⟨-, rfl⟩ | hn := insertNode_origin hn
  · exact ⟨rfl, rfl⟩
  cases hn

/-- The outer computed has been read while the flag was not set. -/
def begun : Engine Journal :=
  (((engine false).readCell (refreshWithin 3) ⟨.computed, outer⟩ true).get (by cbv)).2

theorem read_begun : ∃ o, (engine false).readCell (refreshWithin 3) ⟨.computed, outer⟩ true =
    some (o, begun) :=
  ⟨_, (Option.some_get (by cbv)).symm⟩

theorem covers_outer (_ : (⟨.computed, outer⟩ : Cell).kind = .computed) :
    (engine false).graph.sheet.forecast.covers (⟨.computed, outer⟩ : Cell).node := by
  rintro body found
  obtain rfl : outerBody = body := Option.some.inj found
  exact ⟨1, _, .computed (show _ = some innerBody from rfl) (.signal rfl (.done _)) (.done _)⟩

theorem visited_begun (mode : Bool → Prop) (allowed : Except Fault Unit → Prop) :
    Visited mode allowed .default begun ∧ begun.graph.Effectless ∧
      begun.graph.sheet = (cells false).sheet := by
  obtain ⟨o, hread⟩ := read_begun
  have hstart := visited_engine false mode allowed
  have hrest := hstart.resting
  obtain ⟨g, _, heq, hr, -⟩ := (hrest.toConsistent.read 3 true covers_outer).1 _ hread
  have hgraph : begun.graph = g := congrArg Engine.graph heq
  exact ⟨hstart.read covers_outer hread,
    (hrest.read covers_outer hread).2 fun _ _ hn => (bare_cells hn).1, hgraph ▸ hr.sheet⟩

/-- Then the flag has been set. -/
def turned : Engine Journal :=
  { begun with graph := begun.graph.written flag (.bool true) [inner] }

theorem flag_begun : begun.graph.node? flag =
    some ⟨.signal (.bool false), .clean, [], [inner], none⟩ := by cbv

theorem visited_turned (mode : Bool → Prop) (allowed : Except Fault Unit → Prop) :
    Visited mode allowed .default turned :=
  have h := visited_begun mode allowed
  h.1.written h.2.1 flag_begun rfl (.bool true)

theorem body_turned : turned.graph.sheet.body? = (cells false).sheet.body? :=
  (body?_written flag_begun rfl _).trans (by rw [(visited_begun (fun _ => True) Calm).2.2])

theorem reenters_turned : turned.graph.sheet.Reenters inner :=
  reenters_of_flag (by cbv) (body_turned ▸ rfl) (body_turned ▸ rfl)

end Pair

/-- Nothing has run yet, so nothing is trusted. -/
theorem reads_cyclic_pair : ∃ enough, ∀ depth,
    (enough ≤ depth →
      ((Pair.engine true).readCell (refreshWithin depth) ⟨.computed, Pair.inner⟩ true).isSome) ∧
    ∀ {r : Outcome} {e' : Engine Journal},
      (Pair.engine true).readCell (refreshWithin depth) ⟨.computed, Pair.inner⟩ true = some (r, e') →
        r = .error (.reactive .cyclic) :=
  (Pair.visited_engine true (fun _ => True) Calm).consistent.reads_cyclic Pair.passes_cells
    (Pair.reenters_of_flag rfl rfl rfl) (fun _ _ _ trusts => by
      obtain ⟨n, before, after, hn, -, hsources, -⟩ := trusts
      simp [(Pair.bare_cells hn).2] at hsources) true

/-- A client can bring about an engine with a computed whose evaluation comes back to it, of which a
read shows an outcome of before. -/
theorem read_through_cycle : ∃ e', Visited (· = true) Calm .default Pair.turned ∧
    (∀ {id body}, Pair.turned.graph.sheet.body? id = some body → body.Passes) ∧
    Pair.turned.graph.sheet.Reenters Pair.inner ∧
    Pair.turned.readCell (refreshWithin 4) ⟨.computed, Pair.inner⟩ true = some (.ok .null, e') := by
  have hread : (Pair.turned.readCell (refreshWithin 4) ⟨.computed, Pair.inner⟩ true).isSome := by cbv
  have hnull : ((Pair.turned.readCell (refreshWithin 4) ⟨.computed, Pair.inner⟩ true).get hread).1 =
    .ok .null := by cbv
  refine ⟨_, Pair.visited_turned _ _, fun {id body} found => ?_, Pair.reenters_turned,
    (Option.some_get hread).symm.trans (congrArg some (Prod.ext hnull rfl))⟩
  rw [Pair.body_turned] at found
  exact Pair.passes_cells found

end Engine

end LiveTemplate.Reactive
