import LiveTemplate.Proofs.Reactive.Refreshed

/-!
# The beginning and the end of a run

A run of a computed begins with `Graph.begun` and ends with `Graph.finished`. In between the node
counts as clean and running, and the invariant leaves it alone. A run that read settled cells only
and ends as its body does leaves a coherent graph, in which the node is up to date.
-/
namespace LiveTemplate.Reactive

variable {β σ : Type}

/-- Whether an outcome is news after the last one. -/
def Outcome.differs (last : Option Outcome) (outcome : Outcome) : Bool :=
  match last with
  | some old => !old.equals outcome
  | none => true

def Node.wake (n : Node β) : Node β :=
  if n.freshness = .stale then { n with freshness := .dirty } else n

theorem Node.wake_twice (n : Node β) : n.wake.wake = n.wake := by
  unfold wake
  split <;> simp_all

namespace Graph

def begun (g : Graph β) (id : NodeId) (kind : NodeKind β) : Graph β :=
  g.modifyNode id fun n => { n with kind := kind, freshness := .clean }

/-- The graph with the outcome of a computed, and its stale subscribers woken if it is news. -/
def stored (g : Graph β) (id : NodeId) (outcome : Outcome) : Graph β :=
  match g.node? id with
  | some ⟨.computed body _ last, _, _, subscribers, _⟩ =>
    let graph := g.modifyNode id fun n => { n with kind := .computed body false (some outcome) }
    if Outcome.differs last outcome then
      subscribers.foldl (fun g sub => g.modifyNode sub Node.wake) graph
    else graph
  | _ => g

def finished (g : Graph β) (id : NodeId) (sources : List NodeId) (outcome : Outcome) : Graph β :=
  (g.relink id sources).stored id outcome

end Graph

theorem Engine.storeOutcome_closeRun (e : Engine σ) (id : NodeId) (outcome : Outcome) :
    (e.closeRun id).storeOutcome id outcome =
      { e with
        graph := e.graph.finished id e.collected outcome
        tracking := e.tracking.drop 1 } := by
  simp only [closeRun, popFrame, storeOutcome, Graph.finished, Graph.stored]
  rcases (e.graph.relink id e.collected).node? id with _ | ⟨kind, _, _, _, _⟩
  · rfl
  · cases kind <;> rfl

namespace Graph

variable {g : Graph β} {id : NodeId} {n : Node β} {body : β} {running : Bool}
  {last : Option Outcome}

/-! ## The end of a run -/

theorem node?_stored (found : g.node? id = some n) (kind : n.kind = .computed body running last)
    (outcome : Outcome) (x : NodeId) :
    (g.stored id outcome).node? x = (g.node? x).map fun m =>
      { m with
        kind := if x = id then .computed body false (some outcome) else m.kind
        freshness :=
          if Outcome.differs last outcome = true ∧ x ∈ n.subscribers ∧ m.freshness = .stale then
            .dirty
          else m.freshness } := by
  obtain ⟨_, freshness, sources, subscribers, owner⟩ := n
  subst kind
  simp only [stored, found]
  by_cases hd : Outcome.differs last outcome = true
  · rw [if_pos hd, node?_foldl_modifyNode _ _ Node.wake_twice, node?_modifyNode]
    rcases g.node? x with _ | ⟨kind, fresh, _, _, _⟩
    · simp
    · by_cases hid : x = id
      · subst hid
        by_cases hs : x ∈ subscribers <;> by_cases hf : fresh = .stale <;>
          simp [hs, hf, hd, Node.wake]
      · by_cases hs : x ∈ subscribers <;> by_cases hf : fresh = .stale <;>
          simp [hs, hid, hf, hd, Node.wake]
  · rw [if_neg hd, node?_modifyNode]
    by_cases hid : x = id <;> simp [hid, hd]

@[simp] theorem pending_stored (g : Graph β) (id : NodeId) (outcome : Outcome) :
    (g.stored id outcome).pending = g.pending := by
  unfold stored
  split
  · dsimp only
    split
    · rw [pending_foldl_modifyNode, pending_modifyNode]
    · rfl
  · rfl

@[simp] theorem pending_finished (g : Graph β) (id : NodeId) (sources : List NodeId)
    (outcome : Outcome) : (g.finished id sources outcome).pending = g.pending := by
  simp [finished]

theorem isSome_finished (found : g.node? id = some n)
    (kind : n.kind = .computed body running last) (sources : List NodeId) (outcome : Outcome)
    (x : NodeId) : ((g.finished id sources outcome).node? x).isSome = (g.node? x).isSome := by
  have hrelink := (node?_relink found sources id).trans (by rw [found, Option.map_some])
  rw [finished, node?_stored hrelink kind, Option.isSome_map, isSome_relink found]

theorem linked_finished (linked : g.Linked) (found : g.node? id = some n)
    (kind : n.kind = .computed body running last) (sources : List NodeId) (outcome : Outcome) :
    (g.finished id sources outcome).Linked := by
  have hrelink := (node?_relink found sources id).trans (by rw [found, Option.map_some])
  refine (linked.relink found sources).congr fun x => ?_
  rw [finished, node?_stored hrelink kind, Option.map_map]
  rfl

/-- The node that ran: it is at rest again, and remembers its reads and its outcome. -/
theorem finished_self (found : g.node? id = some n) (kind : n.kind = .computed body running last)
    (clean : n.freshness = .clean) (sources : List NodeId) (outcome : Outcome) :
    ∃ m, (g.finished id sources outcome).node? id = some m ∧
      m.kind = .computed body false (some outcome) ∧ m.freshness = .clean ∧
      m.sources = sources.filter fun s => (g.node? s).isSome := by
  have hrelink := (node?_relink found sources id).trans (by rw [found, Option.map_some])
  have hself := node?_stored hrelink kind outcome id
  rw [hrelink, Option.map_some] at hself
  exact ⟨_, hself, by simp, by simp [relinked, clean], by simp [relinked]⟩

/-- Any other node is kept, and stays stale as a subscriber only if the outcome is no news. -/
theorem finished_other (linked : g.Linked) (found : g.node? id = some n)
    (kind : n.kind = .computed body running last) (sources : List NodeId) (outcome : Outcome)
    {x : NodeId} {m : Node β} (other : x ≠ id) (hm : g.node? x = some m) :
    ∃ m', (g.finished id sources outcome).node? x = some m' ∧ m.Kept m' ∧
      (id ∈ m.sources → m'.freshness = .stale → Outcome.differs last outcome = false) := by
  have hrelink := node?_relink found sources
  have hself := (hrelink id).trans (by rw [found, Option.map_some])
  have hx := node?_stored hself kind outcome x
  rw [hrelink, hm, Option.map_some, Option.map_some] at hx
  refine ⟨_, hx, ⟨by simp [other, relinked], by simp [other, relinked], ?_⟩, fun hmem hstale => ?_⟩
  · dsimp only
    split
    next h => exact .inr ⟨h.2.2, rfl⟩
    next => exact .inl rfl
  · have hsub := ((linked.relink found sources).edge (a := x) (b := id)
      ((hrelink x).trans (by rw [hm, Option.map_some])) hself).1 (by simpa [relinked, other] using hmem)
    dsimp only at hstale
    split at hstale
    next h => cases hstale
    next h =>
      refine Bool.eq_false_iff.2 fun hd => h ⟨hd, hsub, hstale⟩

/-- A stale node is woken only by the news of one of its sources. -/
theorem woken_finished (linked : g.Linked) (found : g.node? id = some n)
    (kind : n.kind = .computed body running last) {sources : List NodeId} {outcome : Outcome}
    {x : NodeId} {m m' : Node β} (other : x ≠ id) (hm : g.node? x = some m)
    (hm' : (g.finished id sources outcome).node? x = some m') (stale : m.freshness = .stale)
    (dirty : m'.freshness = .dirty) : id ∈ m.sources ∧ Outcome.differs last outcome = true := by
  have hrelink := node?_relink found sources
  have hself := (hrelink id).trans (by rw [found, Option.map_some])
  have hx := node?_stored hself kind outcome x
  rw [← finished, hm', hrelink, hm, Option.map_some, Option.map_some] at hx
  obtain rfl := Option.some.inj hx
  dsimp only at dirty
  split at dirty
  next h =>
    have hmem := ((linked.relink found sources).edge (a := x) (b := id)
      ((hrelink x).trans (by rw [hm, Option.map_some])) hself).2 h.2.1
    exact ⟨by simpa [relinked, other] using hmem, h.1⟩
  next => simp [relinked, stale] at dirty

/-! ## Coherence -/

theorem Current.congr {g h : Graph (Program σ)} {body : Program σ} {n m : Node (Program σ)}
    (hn : g.Current body n) (shown : h.shown = g.shown) (sheet : h.sheet = g.sheet)
    (kind : m.kind.shown = n.kind.shown) (sources : m.sources = n.sources) : h.Current body m := by
  constructor
  · rw [sources, shown, hn.sources]
  · rw [kind, shown]
    exact hn.shown
  · rw [shown, sheet]
    exact hn.holds

/-- A run of a computed changes nothing of the sheet. -/
theorem sheet_of_run {g h : Graph (Program σ)} {id : NodeId} {body : Program σ}
    (other : ∀ x, x ≠ id → (h.node? x).map (·.kind) = (g.node? x).map (·.kind))
    (before : g.sheet.body? id = some body) (after : h.sheet.body? id = some body) :
    h.sheet = g.sheet := by
  have through {α : Type} (f : NodeKind (Program σ) → Option α) {x : NodeId} (hx : x ≠ id) :
      (h.node? x).bind (fun n => f n.kind) = (g.node? x).bind (fun n => f n.kind) := by
    have := congrArg (·.bind f) (other x hx)
    simpa [Option.bind_map, Function.comp_def] using this
  refine sheet_congr (fun x => ?_) (fun x => ?_)
  · by_cases hx : x = id
    · subst hx
      exact (value?_of_body? after).trans (value?_of_body? before).symm
    · exact through _ hx
  · by_cases hx : x = id
    · subst hx
      exact after.trans before.symm
    · exact through _ hx

section Begun

variable {g : Graph (Program σ)} {id : NodeId} {n : Node (Program σ)} {body : Program σ}
  {last : Option Outcome}

theorem node?_begun (g : Graph β) (id : NodeId) (kind : NodeKind β) (x : NodeId) :
    (g.begun id kind).node? x =
      if x = id then (g.node? x).map fun n => { n with kind := kind, freshness := .clean }
      else g.node? x :=
  node?_modifyNode _ _ _ _

theorem begun_self (found : g.node? id = some n) (kind : NodeKind (Program σ)) :
    (g.begun id kind).node? id = some { n with kind := kind, freshness := .clean } := by
  simp [node?_begun, found]

theorem begun_other {kind : NodeKind (Program σ)} {x : NodeId} (other : x ≠ id) :
    (g.begun id kind).node? x = g.node? x := by
  simp [node?_begun, other]

theorem shown_begun (found : g.node? id = some n) (kind : n.kind = .computed body false last) :
    (g.begun id (.computed body true last)).shown = g.shown := by
  funext x
  by_cases hx : x = id
  · subst hx
    rw [shown_eq (begun_self found _), shown_eq found, kind]
    cases last <;> rfl
  · simp only [shown, begun_other hx]

theorem sheet_begun (found : g.node? id = some n) (kind : n.kind = .computed body false last) :
    (g.begun id (.computed body true last)).sheet = g.sheet :=
  sheet_of_run (fun x hx => by rw [begun_other hx]) (body?_of_kind found kind)
    (body?_of_kind (begun_self found _) rfl)

theorem CoherentOn.begun {P : NodeId → Prop} (hg : g.CoherentOn P) (found : g.node? id = some n)
    (kind : n.kind = .computed body false last) (late : n.freshness ≠ .clean) :
    (g.begun id (.computed body true last)).CoherentOn P := by
  have hself := begun_self found (.computed body true last)
  have hshown := shown_begun found kind
  have hsheet := sheet_begun found kind
  -- what the invariant says of a node is about idle ones, so not about the one that runs
  have idle {x : NodeId} {m : Node (Program σ)} {b : Program σ} {l : Option Outcome}
      (hm : (g.begun id (.computed body true last)).node? x = some m)
      (hk : m.kind = .computed b false l) : x ≠ id ∧ g.node? x = some m := by
    by_cases hx : x = id
    · subst hx
      obtain rfl := Option.some.inj (hself.symm.trans hm)
      cases hk
    · exact ⟨hx, (begun_other hx).symm.trans hm⟩
  constructor
  · exact hg.linked.modifyNode id fun _ => rfl
  · intro x m hm
    rw [← shown_eq hm, hshown]
    exact hg.shown_proper x
  · intro x b hb
    rw [hsheet] at hb
    exact hg.lawful hb
  · intro x s m hm hs
    have hold : ∃ m₀, g.node? x = some m₀ ∧ s ∈ m₀.sources := by
      by_cases hx : x = id
      · subst hx
        obtain rfl := Option.some.inj (hself.symm.trans hm)
        exact ⟨n, found, hs⟩
      · exact ⟨m, (begun_other hx).symm.trans hm, hs⟩
    obtain ⟨m₀, hm₀, hs₀⟩ := hold
    obtain ⟨t, ht, heff⟩ := hg.cells hm₀ hs₀
    by_cases hsid : s = id
    · subst hsid
      exact ⟨_, hself, rfl⟩
    · exact ⟨t, (begun_other hsid).trans ht, heff⟩
  · intro x m hm hr
    by_cases hx : x = id
    · subst hx
      obtain rfl := Option.some.inj (hself.symm.trans hm)
      rfl
    · exact hg.running ((begun_other hx).symm.trans hm) hr
  · intro x m b l hx hm hk hf
    obtain ⟨-, hm₀⟩ := idle hm hk
    exact (hg.current hx hm₀ hk hf).congr hshown hsheet rfl rfl
  · intro x m b l hx hm hk hf s hs
    obtain ⟨-, hm₀⟩ := idle hm hk
    obtain ⟨t, ht, hset⟩ := hg.settled hx hm₀ hk hf s hs
    have hsid : s ≠ id := by
      rintro rfl
      obtain rfl := Option.some.inj (found.symm.trans ht)
      exact late ((Node.isSettled_computed kind).1 hset).2
    exact ⟨t, (begun_other hsid).trans ht, hset⟩

theorem Coherent.begun (hg : g.Coherent) (found : g.node? id = some n)
    (kind : n.kind = .computed body false last) (late : n.freshness ≠ .clean) :
    (g.begun id (.computed body true last)).Coherent :=
  ((hg.on _).begun found kind late).coherent

end Begun

section Finished

variable {g : Graph (Program σ)} {id : NodeId} {n : Node (Program σ)} {body : Program σ}
  {running : Bool} {last : Option Outcome} {sources : List NodeId} {outcome : Outcome}
  {P : NodeId → Prop}

theorem finished_of_ne (linked : g.Linked) (found : g.node? id = some n)
    (kind : n.kind = .computed body running last) {x : NodeId} {m : Node (Program σ)} (other : x ≠ id)
    (hm : (g.finished id sources outcome).node? x = some m) :
    ∃ m₀, g.node? x = some m₀ ∧ m₀.Kept m ∧
      (id ∈ m₀.sources → m.freshness = .stale → Outcome.differs last outcome = false) := by
  have hlive := (isSome_finished found kind sources outcome x).symm.trans (by rw [hm])
  obtain ⟨m₀, hm₀⟩ := Option.isSome_iff_exists.1 hlive
  obtain ⟨m', hm', hkept⟩ := finished_other linked found kind sources outcome other hm₀
  obtain rfl := Option.some.inj (hm.symm.trans hm')
  exact ⟨m₀, hm₀, hkept⟩

/-- A run gives the node its outcome, and keeps what every other node is. -/
theorem kind_finished (found : g.node? id = some n) (kind : n.kind = .computed body running last)
    (sources : List NodeId) (outcome : Outcome) (x : NodeId) :
    ((g.finished id sources outcome).node? x).map (·.kind) =
      if x = id then some (.computed body false (some outcome)) else (g.node? x).map (·.kind) := by
  have hrelink := (node?_relink found sources id).trans (by rw [found, Option.map_some])
  rw [finished, node?_stored hrelink kind, node?_relink found]
  by_cases hx : x = id
  · subst hx
    simp [found]
  · cases g.node? x <;> simp [hx, relinked]

theorem sheet_finished (found : g.node? id = some n) (kind : n.kind = .computed body running last)
    (sources : List NodeId) (outcome : Outcome) :
    (g.finished id sources outcome).sheet = g.sheet := by
  obtain ⟨m, hm, hkind⟩ := Option.map_eq_some_iff.1
    ((kind_finished found kind sources outcome id).trans (if_pos rfl))
  exact sheet_of_run (fun x hx => (kind_finished found kind _ _ x).trans (if_neg hx))
    (body?_of_kind found kind) (body?_of_kind hm hkind)

theorem shown_finished (found : g.node? id = some n) (kind : n.kind = .computed body running last)
    {x : NodeId} (other : x ≠ id) : (g.finished id sources outcome).shown x = g.shown x :=
  shown_congr ((kind_finished found kind _ _ x).trans (if_neg other))

/-- What a running node's body reads is to be settled, so it does not include the node. -/
theorem ne_of_settled (found : g.node? id = some n) (kind : n.kind = .computed body true last)
    {s : NodeId} (settled : g.Settled s) : s ≠ id := by
  rintro rfl
  obtain ⟨m, hm, hset⟩ := settled
  obtain rfl := Option.some.inj (found.symm.trans hm)
  simp [Node.isSettled, kind] at hset

theorem CoherentOn.result_proper (hg : g.CoherentOn P) (found : g.sheet.body? id = some body) :
    (body.result g.shown).Proper :=
  ((hg.lawful found).follow _ _ fun cell _ _ => .refl (hg.shown_proper cell.node)).2.left

/-- An outcome that is no news agrees with what the node showed during the run. -/
theorem CoherentOn.alike_finished (hg : g.CoherentOn P) (found : g.node? id = some n)
    (kind : n.kind = .computed body true last) (proper : outcome.Proper)
    (same : Outcome.differs last outcome = false) :
    (g.shown id).Alike ((g.finished id sources outcome).shown id) := by
  have hclean : n.freshness = .clean := hg.running found (by simp [Node.isRunning, kind])
  obtain ⟨m, hm, hkind, -⟩ := finished_self found kind hclean sources outcome
  have hold := hg.proper found
  rw [shown_eq found, shown_eq hm, hkind, kind]
  cases last with
  | none => simp [Outcome.differs] at same
  | some old =>
    have hequal : old.equals outcome = true := by simpa [Outcome.differs] using same
    rw [kind] at hold
    exact .of_equals hold proper hequal

/-- What is settled when the run ends stays so. -/
theorem settled_finished (linked : g.Linked) (found : g.node? id = some n)
    (kind : n.kind = .computed body true last) {s : NodeId} (settled : g.Settled s) :
    (g.finished id sources outcome).Settled s := by
  have hne := ne_of_settled found kind settled
  obtain ⟨m, hm, hset⟩ := settled
  obtain ⟨m', hm', hkept, -⟩ := finished_other linked found kind sources outcome hne hm
  exact ⟨m', hm', hkept.isSettled.trans hset⟩

theorem cell_finished (linked : g.Linked) (found : g.node? id = some n)
    (kind : n.kind = .computed body running last) {s : NodeId} {t : Node (Program σ)}
    (ht : g.node? s = some t) (cell : t.isEffect = false) :
    ∃ m, (g.finished id sources outcome).node? s = some m ∧ m.isEffect = false := by
  by_cases hs : s = id
  · subst hs
    obtain ⟨m, hm, hkind⟩ := Option.map_eq_some_iff.1
      ((kind_finished found kind sources outcome s).trans (if_pos rfl))
    exact ⟨m, hm, by rw [Node.isEffect, hkind]⟩
  · obtain ⟨m, hm, hkept, -⟩ := finished_other linked found kind sources outcome hs ht
    exact ⟨m, hm, by rwa [Node.isEffect, hkept.kind]⟩

/-- The node that ran has recorded the settled cells that its body reads. -/
theorem CoherentOn.current_finished (hg : g.CoherentOn P) (found : g.node? id = some n)
    (kind : n.kind = .computed body true last)
    (reads : ∀ cell ∈ body.cells g.shown, g.sheet.Holds cell ∧ g.Settled cell.node) :
    let h := g.finished id (record [] (body.cells g.shown)) (body.result g.shown)
    ∃ m, h.node? id = some m ∧ m.kind = .computed body false (some (body.result g.shown)) ∧
      m.freshness = .clean ∧ (∀ s ∈ m.sources, g.Settled s) ∧ h.Current body m := by
  intro h
  have hclean : n.freshness = .clean := hg.running found (by simp [Node.isRunning, kind])
  obtain ⟨m, hm, hkind, hfresh, hsources⟩ := finished_self found kind hclean
    (record [] (body.cells g.shown)) (body.result g.shown)
  have hlive : (record [] (body.cells g.shown)).filter (fun s => (g.node? s).isSome) =
      record [] (body.cells g.shown) := by
    refine List.filter_eq_self.2 fun s hs => ?_
    obtain ⟨cell, hc, rfl⟩ := by simpa [mem_record] using hs
    obtain ⟨m, hm, -⟩ := node_of_holds (reads cell hc).1
    simp [hm]
  rw [hlive] at hsources
  refine ⟨m, hm, hkind, hfresh, fun s hs => ?_, ?_⟩
  · obtain ⟨cell, hc, rfl⟩ := by simpa [hsources, mem_record] using hs
    exact (reads cell hc).2
  · obtain ⟨hcells, hresult⟩ := (hg.lawful (body?_of_kind found kind)).follow h.shown g.shown
      fun cell hc _ => by
        rw [shown_finished found kind (ne_of_settled found kind (reads cell hc).2)]
        exact .refl (hg.shown_proper _)
    refine ⟨by rw [hsources, hcells], ?_, fun cell hc => ?_⟩
    · rw [hkind]
      exact hresult.symm
    · rw [sheet_finished found kind]
      exact (reads cell (hcells ▸ hc)).1

/-- The others still have recorded what they read: where the outcome is news, they are dirty. -/
theorem CoherentOn.current_beside (hg : g.CoherentOn P) (found : g.node? id = some n)
    (kind : n.kind = .computed body true last) (proper : outcome.Proper) {x : NodeId}
    {m : Node (Program σ)} {b : Program σ} {l : Option Outcome} (hx : P x) (other : x ≠ id)
    (hm : (g.finished id sources outcome).node? x = some m) (hk : m.kind = .computed b false l)
    (higher : m.freshness ≠ .dirty) : (g.finished id sources outcome).Current b m := by
  obtain ⟨m₀, hm₀, hkept, hwake⟩ := finished_of_ne hg.linked found kind other hm
  have hk₀ : m₀.kind = .computed b false l := hkept.kind ▸ hk
  have hsame : m.freshness = m₀.freshness :=
    hkept.freshness.resolve_right fun hdirty => higher hdirty.2
  refine (hg.current hx hm₀ hk₀ (hsame ▸ higher)).mono (hg.lawful (body?_of_kind hm₀ hk₀)) hkept.kind
    hkept.sources (fun cell _ hc => by rwa [sheet_finished found kind]) fun s hs => ?_
  by_cases hsid : s = id
  · subst hsid
    -- the node has a subscriber that is not dirty: it was stale, and the outcome is no news
    have hstale : m.freshness = .stale := by
      rcases hfresh : m.freshness with _ | _ | _
      · exact absurd rfl
          (ne_of_settled found kind (hg.settled hx hm₀ hk₀ (hsame ▸ hfresh) _ hs))
      · rfl
      · exact absurd hfresh higher
    exact hg.alike_finished found kind proper (hwake hs hstale)
  · rw [shown_finished found kind hsid]
    exact .refl (hg.shown_proper s)

/-- The run of a computed that is concerned has to record what its body reads, and to end as it does;
the run of another one may record any cells, and end in any way. -/
theorem CoherentOn.finished (hg : g.CoherentOn P) (found : g.node? id = some n)
    (kind : n.kind = .computed body true last) (proper : outcome.Proper)
    (cells : ∀ s ∈ sources, ∃ t, g.node? s = some t ∧ t.isEffect = false)
    (right : P id → sources = record [] (body.cells g.shown) ∧ outcome = body.result g.shown ∧
      ∀ cell ∈ body.cells g.shown, g.sheet.Holds cell ∧ g.Settled cell.node) :
    (g.finished id sources outcome).CoherentOn P := by
  have hclean : n.freshness = .clean := hg.running found (by simp [Node.isRunning, kind])
  obtain ⟨n', hn', hkind', hclean', hsources'⟩ := finished_self found kind hclean sources outcome
  constructor
  · exact linked_finished hg.linked found kind _ _
  · intro x m hm
    by_cases hx : x = id
    · subst hx
      obtain rfl := Option.some.inj (hn'.symm.trans hm)
      rw [hkind']
      exact proper
    · rw [← shown_eq hm, shown_finished found kind hx]
      exact hg.shown_proper x
  · intro x b hb
    exact hg.lawful (sheet_finished found kind _ _ ▸ hb)
  · intro x s m hm hs
    by_cases hx : x = id
    · subst hx
      obtain rfl := Option.some.inj (hn'.symm.trans hm)
      rw [hsources'] at hs
      obtain ⟨t, ht, heffect⟩ := cells s (List.mem_of_mem_filter hs)
      exact cell_finished hg.linked found kind ht heffect
    · obtain ⟨m₀, hm₀, hkept, -⟩ := finished_of_ne hg.linked found kind hx hm
      obtain ⟨t, ht, heffect⟩ := hg.cells hm₀ (hkept.sources ▸ hs)
      exact cell_finished hg.linked found kind ht heffect
  · intro x m hm hr
    by_cases hx : x = id
    · subst hx
      obtain rfl := Option.some.inj (hn'.symm.trans hm)
      exact hclean'
    · obtain ⟨m₀, hm₀, hkept, -⟩ := finished_of_ne hg.linked found kind hx hm
      exact hkept.clean_iff.2 (hg.running hm₀ (by rw [← hr, Node.isRunning_of_skeleton hkept.skeleton]))
  · intro x m b l hP hm hk hf
    by_cases hx : x = id
    · subst hx
      obtain ⟨rfl, rfl, reads⟩ := right hP
      obtain ⟨m', hm', hk', -, -, hcurrent⟩ := hg.current_finished found kind reads
      obtain rfl := Option.some.inj (hm'.symm.trans hm)
      rw [hk'] at hk
      cases hk
      exact hcurrent
    · exact hg.current_beside found kind proper hP hx hm hk hf
  · intro x m b l hP hm hk hf s hs
    refine settled_finished hg.linked found kind ?_
    by_cases hx : x = id
    · subst hx
      obtain ⟨rfl, rfl, reads⟩ := right hP
      obtain ⟨m', hm', -, -, hread, -⟩ := hg.current_finished found kind reads
      obtain rfl := Option.some.inj (hm'.symm.trans hm)
      exact hread s hs
    · obtain ⟨m₀, hm₀, hkept, -⟩ := finished_of_ne hg.linked found kind hx hm
      exact hg.settled hP hm₀ (hkept.kind ▸ hk) (hkept.clean_iff.1 hf) s (hkept.sources ▸ hs)

/-- A run that read settled cells only. -/
theorem CoherentOn.finished_settled (hg : g.CoherentOn P) (found : g.node? id = some n)
    (kind : n.kind = .computed body true last)
    (reads : ∀ cell ∈ body.cells g.shown, g.sheet.Holds cell ∧ g.Settled cell.node) :
    (g.finished id (record [] (body.cells g.shown)) (body.result g.shown)).CoherentOn P := by
  refine hg.finished found kind (hg.result_proper (body?_of_kind found kind)) (fun s hs => ?_)
    fun _ => ⟨rfl, rfl, reads⟩
  obtain ⟨cell, hc, rfl⟩ := by simpa [mem_record] using hs
  obtain ⟨t, ht, hset⟩ := (reads cell hc).2
  exact ⟨t, ht, Node.isEffect_of_isSettled hset⟩

/-- The whole run, seen from the graph before it. -/
theorem CoherentOn.refreshed_finished {h : Graph (Program σ)} {Q : NodeId → Prop}
    (found : g.node? id = some n) (kind : n.kind = .computed body false last)
    (late : n.freshness ≠ .clean)
    (hr : (g.begun id (.computed body true last)).Refreshed Q h) (hh : h.CoherentOn P)
    (proper : outcome.Proper) (sources : List NodeId) :
    g.Refreshed (fun x => Q x ∨ x = id) (h.finished id sources outcome) := by
  obtain ⟨n₂, hn₂, hkept | ⟨-, hup⟩⟩ := hr.find (begun_self found _)
  case inr => exact absurd hup.idle (by simp [Node.isRunning])
  have hclean₂ : n₂.freshness = .clean := hkept.clean_iff.2 rfl
  obtain ⟨n', hn', hkind', hclean', -⟩ := finished_self hn₂ hkept.kind hclean₂ sources outcome
  have hfar {x : NodeId} {m m' : Node (Program σ)} (hx : x ≠ id) (hm : g.node? x = some m)
      (hm' : (h.finished id sources outcome).node? x = some m') :=
    (⟨(begun_other hx).trans hm, finished_of_ne hh.linked hn₂ hkept.kind hx hm'⟩ :
      (g.begun id (.computed body true last)).node? x = some m ∧ ∃ m₀, _)
  refine ⟨?_, fun x => ?_, fun {x m m'} hm hm' => ?_, fun {x m m'} hm hm' hstale hstale' s hs => ?_,
    fun {x m m'} hm hm' hstale hdirty => ?_⟩
  · exact (pending_finished _ _ _ _).trans hr.pending
  · rw [isSome_finished hn₂ hkept.kind, hr.live, node?_begun]
    split <;> simp
  · by_cases hx : x = id
    · subst hx
      obtain rfl := Option.some.inj (found.symm.trans hm)
      obtain rfl := Option.some.inj (hn'.symm.trans hm')
      exact .inr ⟨.inr rfl, by simp [kind, hkind', NodeKind.skeleton],
        by simp [Node.isRunning, kind], late, hclean'⟩
    · obtain ⟨hm₁, m₂, hm₂, hkept₂, -⟩ := hfar hx hm hm'
      rcases hr.each hm₁ hm₂ with hkept₁ | ⟨hp, hup⟩
      · exact .inl (hkept₁.trans hkept₂)
      · exact .inr ⟨.inl hp, hup.kept hkept₂⟩
  · by_cases hx : x = id
    · subst hx
      obtain rfl := Option.some.inj (hn'.symm.trans hm')
      simp [hclean'] at hstale'
    · obtain ⟨hm₁, m₂, hm₂, hkept₂, hwake⟩ := hfar hx hm hm'
      have hstale₂ : m₂.freshness = .stale := by
        rcases hkept₂.freshness with hf | ⟨hf, -⟩
        · exact hf ▸ hstale'
        · exact hf
      have hfirst := hr.steady hm₁ hm₂ hstale hstale₂ s hs
      rw [shown_begun found kind] at hfirst
      by_cases hsid : s = id
      · subst hsid
        have hkept₁ := (hr.each hm₁ hm₂).resolve_right fun hup => by
          simp [hup.2.clean] at hstale₂
        exact hfirst.trans (hh.alike_finished hn₂ hkept.kind proper
          (hwake (hkept₁.sources ▸ hs) hstale'))
      · rwa [shown_finished hn₂ hkept.kind hsid]
  · have hx : x ≠ id := by
      rintro rfl
      obtain rfl := Option.some.inj (hn'.symm.trans hm')
      simp [hclean'] at hdirty
    obtain ⟨hm₁, m₂, hm₂, hkept₂, -⟩ := hfar hx hm hm'
    rcases hkept₂.freshness with hsame | ⟨hstale₂, -⟩
    · -- woken in the course of the run
      obtain ⟨s, hs, news⟩ := hr.roused hm₁ hm₂ hstale (hsame ▸ hdirty)
      have hsid := ne_of_settled hn₂ hkept.kind news.settled
      refine ⟨s, hs, fun settled => news.late ?_, settled_finished hh.linked hn₂ hkept.kind news.settled,
        ?_⟩
      · obtain ⟨t, ht, hset⟩ := settled
        exact ⟨t, (begun_other hsid).trans ht, hset⟩
      · rw [shown_finished hn₂ hkept.kind hsid]
        simpa only [begun_other hsid] using news.differs
    · -- woken by its end
      obtain ⟨hmem, hdiffers⟩ := woken_finished hh.linked hn₂ hkept.kind hx hm₂ hm' hstale₂ hdirty
      have hkept₁ := (hr.each hm₁ hm₂).resolve_right fun hup => by simp [hup.2.clean] at hstale₂
      refine ⟨id, hkept₁.sources ▸ hmem, ?_, ⟨n', hn', (Node.isSettled_computed hkind').2 ⟨rfl, hclean'⟩⟩,
        n, body, false, last, found, kind, ?_⟩
      · rintro ⟨t, ht, hset⟩
        obtain rfl := Option.some.inj (found.symm.trans ht)
        exact late ((Node.isSettled_computed kind).1 hset).2
      · rintro old rfl
        rw [shown_eq hn', hkind']
        simpa [Outcome.differs, NodeKind.shown] using hdiffers

end Finished

/-! ## Coming to rest without a run -/

section Rested

variable {g : Graph (Program σ)} {id : NodeId} {n : Node (Program σ)}

theorem shown_setFreshness (g : Graph β) (id : NodeId) (f : Freshness) :
    (g.setFreshness id f).shown = g.shown := by
  funext x
  refine shown_congr ?_
  rw [node?_setFreshness]
  split
  · cases g.node? x <;> rfl
  · rfl

theorem sheet_setFreshness (g : Graph (Program σ)) (id : NodeId) (f : Freshness) :
    (g.setFreshness id f).sheet = g.sheet := by
  refine sheet_of_skeleton fun x => ?_
  rw [node?_setFreshness]
  split
  · cases g.node? x <;> rfl
  · rfl

/-- A stale node may count as clean if it is not concerned, or its sources are all settled. -/
theorem CoherentOn.rested {P : NodeId → Prop} (hg : g.CoherentOn P) (found : g.node? id = some n)
    (stale : n.freshness = .stale) (sources : P id → ∀ s ∈ n.sources, g.Settled s) :
    (g.setFreshness id .clean).CoherentOn P := by
  have hshown := shown_setFreshness g id .clean
  have hsheet := sheet_setFreshness g id .clean
  have hfind {x : NodeId} {m : Node (Program σ)} (hm : (g.setFreshness id .clean).node? x = some m) :
      ∃ m₀, g.node? x = some m₀ ∧ m.kind = m₀.kind ∧ m.sources = m₀.sources ∧
        (x = id ∧ m.freshness = .clean ∧ m₀ = n ∨ m.freshness = m₀.freshness) := by
    rw [node?_setFreshness] at hm
    split at hm
    next hx =>
      subst hx
      rw [found, Option.map_some] at hm
      obtain rfl := Option.some.inj hm
      exact ⟨n, found, rfl, rfl, .inl ⟨rfl, rfl, rfl⟩⟩
    next => exact ⟨m, hm, rfl, rfl, .inr rfl⟩
  have hkind {x : NodeId} {m₀ : Node (Program σ)} (hm : g.node? x = some m₀) :
      ∃ m, (g.setFreshness id .clean).node? x = some m ∧ m.kind = m₀.kind ∧
        (m₀.freshness = .clean → m.freshness = .clean) := by
    rw [node?_setFreshness]
    split
    · exact ⟨m₀.withFreshness .clean, by rw [hm, Option.map_some], rfl, fun _ => rfl⟩
    · exact ⟨m₀, hm, rfl, fun h => h⟩
  have hsettled {s : NodeId} (hs : g.Settled s) : (g.setFreshness id .clean).Settled s := by
    obtain ⟨m₀, hm₀, hset⟩ := hs
    obtain ⟨m, hm, hk, hclean⟩ := hkind hm₀
    refine ⟨m, hm, ?_⟩
    cases hk₀ : m₀.kind <;> simp_all [Node.isSettled, Node.isClean]
  constructor
  · exact hg.linked.modifyNode id fun _ => rfl
  · intro x m hm
    rw [← shown_eq hm, hshown]
    exact hg.shown_proper x
  · intro x b hb
    exact hg.lawful (hsheet ▸ hb)
  · intro x s m hm hs
    obtain ⟨m₀, hm₀, -, hsources, -⟩ := hfind hm
    obtain ⟨t, ht, heffect⟩ := hg.cells hm₀ (hsources ▸ hs)
    obtain ⟨t', ht', hk, -⟩ := hkind ht
    exact ⟨t', ht', by rwa [Node.isEffect, hk]⟩
  · intro x m hm hr
    obtain ⟨m₀, hm₀, hk, -, ⟨-, hclean, -⟩ | hfresh⟩ := hfind hm
    · exact hclean
    · exact hfresh.trans (hg.running hm₀ (by rwa [Node.isRunning, ← hk]))
  · intro x m b l hP hm hk hf
    obtain ⟨m₀, hm₀, hk₀, hsources, hcase⟩ := hfind hm
    have hlate : m₀.freshness ≠ .dirty := by
      rcases hcase with ⟨-, -, rfl⟩ | hfresh
      · simp [stale]
      · exact hfresh ▸ hf
    exact (hg.current hP hm₀ (hk₀ ▸ hk) hlate).congr hshown hsheet (by rw [hk₀]) hsources
  · intro x m b l hP hm hk hf s hs
    obtain ⟨m₀, hm₀, hk₀, hsources, ⟨rfl, -, rfl⟩ | hfresh⟩ := hfind hm
    · exact hsettled (sources hP s (hsources ▸ hs))
    · exact hsettled (hg.settled hP hm₀ (hk₀ ▸ hk) (hfresh ▸ hf) s (hsources ▸ hs))

theorem CoherentOn.refreshed_rested {P : NodeId → Prop} (hg : g.CoherentOn P)
    (found : g.node? id = some n) (stale : n.freshness = .stale) : g.Refreshed (· = id) (g.setFreshness id .clean) := by
  have hfar {x : NodeId} (hx : x ≠ id) : (g.setFreshness id .clean).node? x = g.node? x := by
    rw [node?_setFreshness, if_neg hx]
  have hself : (g.setFreshness id .clean).node? id = some (n.withFreshness .clean) := by
    rw [node?_setFreshness, if_pos rfl, found, Option.map_some]
  refine ⟨rfl, fun x => ?_, fun {x m m'} hm hm' => ?_, fun {x m m'} _ _ _ _ s _ => ?_,
    fun {x m m'} hm hm' hstale hdirty => ?_⟩
  · rw [node?_setFreshness]
    split <;> simp
  · by_cases hx : x = id
    · subst hx
      obtain rfl := Option.some.inj (found.symm.trans hm)
      obtain rfl := Option.some.inj (hself.symm.trans hm')
      have hidle : n.isRunning = false :=
        Bool.eq_false_iff.2 fun hr => by simp [hg.running found hr] at stale
      exact .inr ⟨rfl, rfl, hidle, by simp [stale], rfl⟩
    · obtain rfl := Option.some.inj (((hfar hx).trans hm).symm.trans hm')
      exact .inl (.refl _)
  · rw [shown_setFreshness]
    exact .refl (hg.shown_proper s)
  · by_cases hx : x = id
    · subst hx
      obtain rfl := Option.some.inj (hself.symm.trans hm')
      cases hdirty
    · obtain rfl := Option.some.inj (((hfar hx).trans hm).symm.trans hm')
      simp [hstale] at hdirty

end Rested

end Graph

end LiveTemplate.Reactive
