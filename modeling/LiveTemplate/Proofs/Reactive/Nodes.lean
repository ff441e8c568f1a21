import LiveTemplate.Proofs.Reactive.Sound

/-!
# New nodes and removed effects

A new node has no edges, so nothing remembered is concerned: signals may be added at any time, and
computeds as long as a ranking remains. Of the nodes, effects may be removed, alone or with the
scopes that own them; a removal that leaves the sheet as it was removes nothing else.
-/
namespace LiveTemplate.Reactive

variable {σ : Type}

namespace Sheet

/-- The sheet without a signal. -/
def without (s : Sheet σ) (id : NodeId) : Sheet σ where
  value? x := if x = id then none else s.value? x
  body? := s.body?

/-- What a program that descends in the smaller sheet evaluates to there, it evaluates to in the
larger one. -/
theorem Descends.evaluates_of_without {s : Sheet σ} {id : NodeId} {rank : NodeId → Nat} {bound : Nat}
    {p : Program σ} (h : (s.without id).Descends rank bound p)
    (below : ∀ x body o, s.body? x = some body → rank x < bound →
      (s.without id).Evaluates body o → s.Evaluates body o)
    {o : Outcome} (evaluates : (s.without id).Evaluates p o) : s.Evaluates p o := by
  have value {x : NodeId} {v : Value} (found : (s.without id).value? x = some v) :
      s.value? x = some v := by
    simp only [without] at found
    split at found
    · cases found
    · exact found
  induction h generalizing o with
  | done => cases evaluates; exact .done _
  | signal found _ ih => cases evaluates with
    | signal found' rest =>
      obtain rfl := Option.some.inj (found.symm.trans found')
      exact .signal (value found) (ih rest)
    | goneSignal gone => simp [found] at gone
  | computed found lower _ ih => cases evaluates with
    | computed found' inner rest =>
      obtain rfl := Option.some.inj (found.symm.trans found')
      exact .computed found (below _ _ _ found lower inner) (ih _ inner rest)
    | goneComputed gone => exact absurd (found.symm.trans gone) (by simp)

theorem Descends.of_without {s : Sheet σ} {id : NodeId} {rank : NodeId → Nat} {bound : Nat}
    {p : Program σ} (h : (s.without id).Descends rank bound p)
    (same : ∀ x body o, s.body? x = some body → rank x < bound → s.Evaluates body o →
      (s.without id).Evaluates body o) : s.Descends rank bound p := by
  induction h with
  | done o => exact .done o
  | signal found _ ih =>
    refine .signal ?_ ih
    simp only [without] at found
    split at found
    · cases found
    · exact found
  | computed found lower _ ih =>
    exact .computed found lower fun r hr => ih r (same _ _ _ found lower hr)

/-- Another signal, which no body can know of, is no obstacle to a ranking. -/
theorem Ranked.of_without {s : Sheet σ} (id : NodeId) (h : (s.without id).Ranked) : s.Ranked := by
  obtain ⟨rank, fits⟩ := h
  refine ⟨rank, fun t ht x body found => ?_⟩
  have hrevalued : (s.without id).Revalued (t.without id) := by
    refine ⟨ht.1, fun y => ?_, fun y v hv => ?_⟩
    · simp only [without]
      split
      · rfl
      · exact ht.2.1 y
    · simp only [without] at hv
      split at hv
      · cases hv
      · exact ht.2.2 y v hv
  have hfits {x : NodeId} {body : Program σ} (found : t.body? x = some body) :
      (t.without id).Descends rank (rank x) body := fits _ hrevalued x body found
  -- below a rank both sheets evaluate alike
  have hup (k : Nat) : ∀ {y : NodeId} {b : Program σ} {o : Outcome}, rank y = k →
      t.body? y = some b → (t.without id).Evaluates b o → t.Evaluates b o := by
    induction k using Nat.strongRecOn with
    | ind k ih =>
      rintro y b o rfl hb ho
      exact (hfits hb).evaluates_of_without
        (fun z b' o' hb' hlower ho' => ih _ hlower rfl hb' ho') ho
  have hdown {y : NodeId} {b : Program σ} {o : Outcome} (hb : t.body? y = some b)
      (ho : t.Evaluates b o) : (t.without id).Evaluates b o := by
    obtain ⟨o', ho'⟩ := exists_ends (s := t.without id) (fun _ _ => hfits) hb
    rw [ho.functional (hup _ rfl hb ho'.evaluates)]
    exact ho'.evaluates
  exact (hfits found).of_without fun y b o hb _ ho => hdown hb ho

end Sheet

namespace Graph

section Insert

variable {g : Graph (Program σ)} {kind : NodeKind (Program σ)} {freshness : Freshness}
  {owner : Option ScopeId}

theorem insertNode_self (g : Graph (Program σ)) (kind : NodeKind (Program σ))
    (freshness : Freshness) (owner : Option ScopeId) :
    (g.insertNode kind freshness owner).2.node? (g.insertNode kind freshness owner).1 =
      some ⟨kind, freshness, [], [], owner⟩ := by
  rw [node?_insertNode, if_pos rfl]

theorem insertNode_live {x : NodeId} {n : Node (Program σ)} (hn : g.node? x = some n) :
    x ≠ (g.insertNode kind freshness owner).1 ∧
      (g.insertNode kind freshness owner).2.node? x = some n := by
  have hne : x ≠ (g.insertNode kind freshness owner).1 := by
    rintro rfl
    simp [node?_insertNode_fresh] at hn
  exact ⟨hne, by rw [node?_insertNode, if_neg hne, hn]⟩

theorem insertNode_origin {x : NodeId} {n : Node (Program σ)}
    (hn : (g.insertNode kind freshness owner).2.node? x = some n) :
    x = (g.insertNode kind freshness owner).1 ∧ n = ⟨kind, freshness, [], [], owner⟩ ∨
      g.node? x = some n := by
  rw [node?_insertNode] at hn
  split at hn
  · exact .inl ⟨‹_›, (Option.some.inj hn).symm⟩
  · exact .inr hn

theorem shown_insertNode {x : NodeId} {n : Node (Program σ)} (hn : g.node? x = some n) :
    (g.insertNode kind freshness owner).2.shown x = g.shown x := by
  rw [shown_eq hn, shown_eq (insertNode_live hn).2]

theorem holds_insertNode {cell : Cell} (holds : g.sheet.Holds cell) :
    (g.insertNode kind freshness owner).2.sheet.Holds cell := by
  obtain ⟨k, x⟩ := cell
  cases k with
  | signal =>
    obtain ⟨v, hv⟩ := holds
    obtain ⟨n, hn, hk⟩ := value?_eq_some.1 hv
    exact ⟨v, value?_eq_some.2 ⟨n, (insertNode_live hn).2, hk⟩⟩
  | computed =>
    obtain ⟨body, hbody⟩ := holds
    obtain ⟨n, running, last, hn, hk⟩ := body?_eq_some.1 hbody
    exact ⟨body, body?_of_kind (insertNode_live hn).2 hk⟩

theorem CoherentOn.insertNode {P : NodeId → Prop} (hg : g.CoherentOn P) (proper : kind.shown.Proper)
    (lawful : ∀ body running last, kind = .computed body running last →
      body.Lawful ∧ running = false ∧ freshness = .dirty)
    (resting : ∀ body running, kind = .effect body running → running = false) :
    (g.insertNode kind freshness owner).2.CoherentOn P := by
  constructor
  · exact hg.linked.insertNode _ _ _
  · intro x n hn
    rcases insertNode_origin hn with ⟨-, rfl⟩ | hn
    · exact proper
    · exact hg.proper hn
  · intro x body hbody
    obtain ⟨n, running, last, hn, hk⟩ := body?_eq_some.1 hbody
    rcases insertNode_origin hn with ⟨-, rfl⟩ | hn
    · exact (lawful _ _ _ hk).1
    · exact hg.lawful (body?_of_kind hn hk)
  · intro x s n hn hs
    rcases insertNode_origin hn with ⟨-, rfl⟩ | hn
    · cases hs
    · obtain ⟨m, hm, heffect⟩ := hg.cells hn hs
      exact ⟨m, (insertNode_live hm).2, heffect⟩
  · intro x n hn hr
    rcases insertNode_origin hn with ⟨-, rfl⟩ | hn
    · cases hk : kind with
      | signal v => simp [Node.isRunning, hk] at hr
      | computed body running last => simp [Node.isRunning, hk, (lawful _ _ _ hk).2.1] at hr
      | effect body running => simp [Node.isRunning, hk, resting _ _ hk] at hr
    · exact hg.running hn hr
  · intro x n body last hP hn hk hf
    rcases insertNode_origin hn with ⟨-, rfl⟩ | hn
    · exact absurd (lawful _ _ _ hk).2.2 hf
    · have hcurrent := hg.current hP hn hk hf
      refine hcurrent.mono (hg.lawful (body?_of_kind hn hk)) rfl rfl
        (fun cell _ hc => holds_insertNode hc) fun s hs => ?_
      obtain ⟨m, hm, -⟩ := hg.cells hn hs
      rw [shown_insertNode hm]
      exact .refl (hg.shown_proper s)
  · intro x n body last hP hn hk hf s hs
    rcases insertNode_origin hn with ⟨-, rfl⟩ | hn
    · cases hs
    · obtain ⟨m, hm, hset⟩ := hg.settled hP hn hk hf s hs
      exact ⟨m, (insertNode_live hm).2, hset⟩

theorem Coherent.insertNode (hg : g.Coherent) (proper : kind.shown.Proper)
    (lawful : ∀ body running last, kind = .computed body running last →
      body.Lawful ∧ running = false ∧ freshness = .dirty)
    (resting : ∀ body running, kind = .effect body running → running = false) :
    (g.insertNode kind freshness owner).2.Coherent :=
  ((hg.on _).insertNode proper lawful resting).coherent

theorem value?_insertNode (g : Graph (Program σ)) (kind : NodeKind (Program σ))
    (freshness : Freshness) (owner : Option ScopeId) (x : NodeId) :
    (g.insertNode kind freshness owner).2.sheet.value? x =
      if x = (g.insertNode kind freshness owner).1 then kind.value? else g.sheet.value? x := by
  simp only [sheet, node?_insertNode]
  split <;> rfl

theorem body?_insertNode (g : Graph (Program σ)) (kind : NodeKind (Program σ))
    (freshness : Freshness) (owner : Option ScopeId) (x : NodeId) :
    (g.insertNode kind freshness owner).2.sheet.body? x =
      if x = (g.insertNode kind freshness owner).1 then kind.formula? else g.sheet.body? x := by
  simp only [sheet, node?_insertNode]
  split <;> rfl

/-- A new signal leaves the sheet ranked. -/
theorem ranked_insertSignal (ranked : g.sheet.Ranked) (value : Value) :
    (g.insertNode (.signal value) freshness owner).2.sheet.Ranked := by
  refine Sheet.Ranked.of_without (g.insertNode (.signal value) freshness owner).1 ?_
  have hfresh := node?_insertNode_fresh g (.signal value) freshness owner
  convert ranked using 1
  simp only [Sheet.without]
  rw [show g.sheet = ⟨g.sheet.value?, g.sheet.body?⟩ from rfl]
  congr 1
  · funext x
    rw [value?_insertNode]
    split
    next hx => simp [hx, sheet, hfresh]
    next => rfl
  · funext x
    rw [body?_insertNode]
    split
    next hx => simp [hx, sheet, hfresh, NodeKind.formula?]
    next => rfl

theorem sheet_insertEffect (body : Program σ) (running : Bool) :
    (g.insertNode (.effect body running) freshness owner).2.sheet = g.sheet := by
  have hfresh := node?_insertNode_fresh g (.effect body running) freshness owner
  refine sheet_congr (fun x => ?_) (fun x => ?_) <;>
    · rw [node?_insertNode]
      split
      next hx => simp [hx, hfresh, NodeKind.value?, NodeKind.formula?]
      next => rfl

end Insert

section Sound

variable {mode : Bool → Prop} {g h : Graph (Program Journal)} {freshness : Freshness}
  {owner : Option ScopeId}

theorem Sound.insertNode (hs : g.Sound mode) {kind : NodeKind (Program Journal)}
    (coherent : (g.insertNode kind freshness owner).2.Coherent)
    (ranked : (g.insertNode kind freshness owner).2.sheet.Ranked)
    (resting : ∀ n : Node (Program Journal), n.kind = kind → n.isRunning = false)
    (watching : ∀ body running, kind = .effect body running →
      ∃ label p, Program.Reads mode p ∧ body = p.watched label [])
    (unused : ∀ label p running, kind = .effect (Program.watched label p []) running →
      ∀ x, ¬g.EffectAt x label) : (g.insertNode kind freshness owner).2.Sound mode := by
  have origin {x : NodeId} {label : Nat}
      (hx : (g.insertNode kind freshness owner).2.EffectAt x label) :
      (x = (g.insertNode kind freshness owner).1 ∧ ∀ y, ¬g.EffectAt y label) ∨
        g.EffectAt x label := by
    obtain ⟨n, p, running, hn, hk⟩ := hx
    rcases insertNode_origin hn with ⟨rfl, rfl⟩ | hn
    · exact .inl ⟨rfl, unused label p running hk⟩
    · exact .inr ⟨n, p, running, hn, hk⟩
  constructor
  · exact coherent
  · exact ranked
  · intro x n _ hn
    rcases insertNode_origin hn with ⟨-, rfl⟩ | hn
    · exact resting _ rfl
    · exact hs.idle trivial hn
  · intro x n body running hn hk
    rcases insertNode_origin hn with ⟨-, rfl⟩ | hn
    · exact watching body running hk
    · exact hs.watching hn hk
  · intro x y label hx hy
    rcases origin hx with ⟨rfl, hunused⟩ | hx <;> rcases origin hy with ⟨rfl, hunused'⟩ | hy
    · rfl
    · exact absurd hy (hunused y)
    · exact absurd hx (hunused' x)
    · exact hs.distinct hx hy
  · exact hs.nodup
  · intro x hx
    obtain ⟨n, hn, heffect⟩ := hs.queued x hx
    exact ⟨n, (insertNode_live hn).2, heffect⟩

theorem Sound.insertSignal (hs : g.Sound mode) {value : Value} (proper : value.Proper) :
    (g.insertNode (.signal value) freshness owner).2.Sound mode :=
  hs.insertNode (hs.coherent.insertNode proper nofun nofun)
    (ranked_insertSignal hs.ranked value) (fun n hn => by simp [Node.isRunning, hn]) nofun nofun

theorem Sound.insertComputed (hs : g.Sound mode) {body : Program Journal} (lawful : body.Lawful)
    (ranked : (g.insertNode (.computed body false none) .dirty owner).2.sheet.Ranked) :
    (g.insertNode (.computed body false none) .dirty owner).2.Sound mode := by
  refine hs.insertNode (hs.coherent.insertNode .undefined ?_ nofun) ranked
    (fun n hn => by simp [Node.isRunning, hn]) nofun nofun
  rintro _ _ _ ⟨⟩
  exact ⟨lawful, rfl, rfl⟩

theorem Sound.insertEffect (hs : g.Sound mode) {label : Nat} {p : Program Journal}
    (reads : p.Reads mode) (unused : ∀ x l, g.EffectAt x l → l ≠ label) :
    (g.insertNode (.effect (p.watched label []) false) freshness owner).2.Sound mode := by
  refine hs.insertNode (hs.coherent.insertNode trivial nofun ?_) ?_
    (fun n hn => by simp [Node.isRunning, hn]) ?_ ?_
  · rintro _ _ ⟨⟩
    rfl
  · rw [sheet_insertEffect]
    exact hs.ranked
  · rintro _ _ ⟨⟩
    exact ⟨label, p, reads, rfl⟩
  · intro l q running hk x hx
    obtain ⟨hbody, -⟩ := NodeKind.effect.inj hk
    exact unused x l hx (Program.watched_label hbody).symm

end Sound

/-! ## Removal -/

section Removal

variable {β : Type} {g h k : Graph β}

/-- A removal keeps what it leaves, with what it leaves of the sources. -/
structure Left (g h : Graph β) : Prop where
  linked : h.Linked
  origin : ∀ {x : NodeId} {m : Node β}, h.node? x = some m → ∃ n, g.node? x = some n ∧
    m.kind = n.kind ∧ m.freshness = n.freshness ∧
      m.sources = n.sources.filter fun s => (h.node? s).isSome
  queued : ∀ x ∈ h.pending, x ∈ g.pending ∧ ((g.node? x).isSome → (h.node? x).isSome)

theorem Left.removeNode (hl : g.Left h) (id : NodeId) : g.Left (h.removeNode id) where
  linked := hl.linked.removeNode id
  origin {x m} hm := by
    obtain ⟨-, k, hk, hkind, hfresh, hsources, -⟩ := removeNode_of_ne hl.linked hm
    obtain ⟨n, hn, hkind', hfresh', hsources'⟩ := hl.origin hk
    refine ⟨n, hn, hkind.trans hkind', hfresh.trans hfresh', ?_⟩
    rw [hsources, hsources', List.filter_filter]
    refine List.filter_congr fun s _ => ?_
    by_cases hid : s = id
    · simp [hid, node?_removeNode]
    · simp [hid, isSome_removeNode hid]
  queued x hx := by
    obtain ⟨hx, hne⟩ : x ∈ h.pending ∧ ((h.node? x).isSome → x ≠ id) := by
      rw [pending_removeNode] at hx
      split at hx
      · simp only [List.mem_filter, decide_eq_true_eq] at hx
        exact ⟨hx.1, fun _ => hx.2⟩
      next hgone =>
        refine ⟨hx, fun hlive => ?_⟩
        rintro rfl
        exact hgone hlive
    obtain ⟨hmem, hlive⟩ := hl.queued x hx
    exact ⟨hmem, fun hsome => (isSome_removeNode (hne (hlive hsome))).trans (hlive hsome)⟩

theorem left_remove (linked : g.Linked) (work : List Doomed) : g.Left (g.remove work) := by
  refine remove_induct (motive := g.Left) g work ⟨linked, fun {x m} hm => ⟨m, hm, rfl, rfl, ?_⟩,
    fun x hx => ⟨hx, id⟩⟩ (fun id hl => hl.removeNode id) fun {h id record} _ hl => ?_
  · exact (List.filter_eq_self.2 fun s hs => linked.source_live hm hs).symm
  · have hsame := node?_detachScope h id record
    refine ⟨hl.linked.congr fun x => by rw [hsame], fun {x m} hm => ?_, fun x hx => ?_⟩
    · simp only [hsame] at hm ⊢
      exact hl.origin hm
    · rw [pending_detachScope] at hx
      rw [hsame]
      exact hl.queued x hx

section Left

variable {g h : Graph (Program σ)} {P : NodeId → Prop}

theorem Left.body? (hl : g.Left h) {id : NodeId} {body : Program σ}
    (found : h.sheet.body? id = some body) : g.sheet.body? id = some body := by
  obtain ⟨m, running, last, hm, hk⟩ := body?_eq_some.1 found
  obtain ⟨n, hn, hk', -⟩ := hl.origin hm
  exact body?_of_kind hn (hk' ▸ hk)

theorem Left.shown (hl : g.Left h) {s : NodeId} (left : (h.node? s).isSome) :
    h.shown s = g.shown s := by
  obtain ⟨m, hm⟩ := Option.isSome_iff_exists.1 left
  obtain ⟨n, hn, hk, -⟩ := hl.origin hm
  rw [shown_eq hm, shown_eq hn, hk]

theorem Left.holds (hl : g.Left h) {cell : Cell} (left : (h.node? cell.node).isSome)
    (holds : g.sheet.Holds cell) : h.sheet.Holds cell := by
  obtain ⟨m, hm⟩ := Option.isSome_iff_exists.1 left
  obtain ⟨n, hn, hk, -⟩ := hl.origin hm
  obtain ⟨kind, id⟩ := cell
  cases kind with
  | signal =>
    obtain ⟨v, hv⟩ := holds
    obtain ⟨n', hn', hkind⟩ := value?_eq_some.1 hv
    obtain rfl := Option.some.inj (hn.symm.trans hn')
    exact ⟨v, value?_eq_some.2 ⟨m, hm, hk.trans hkind⟩⟩
  | computed =>
    obtain ⟨body, hbody⟩ := holds
    obtain ⟨n', running, last, hn', hkind⟩ := body?_eq_some.1 hbody
    obtain rfl := Option.some.inj (hn.symm.trans hn')
    exact ⟨body, body?_of_kind hm (hk.trans hkind)⟩

/-- What is left is coherent where all recorded sources are left. -/
theorem CoherentOn.left (hg : g.CoherentOn P) (hl : g.Left h)
    (sources : ∀ {x : NodeId} {n : Node (Program σ)}, P x → g.node? x = some n →
      ∀ s ∈ n.sources, (h.node? s).isSome) : h.CoherentOn P := by
  have horigin {x : NodeId} {m : Node (Program σ)} (hx : P x) (hm : h.node? x = some m) :
      ∃ n, g.node? x = some n ∧ m.kind = n.kind ∧ m.freshness = n.freshness ∧
        m.sources = n.sources := by
    obtain ⟨n, hn, hk, hf, hs⟩ := hl.origin hm
    exact ⟨n, hn, hk, hf, hs.trans (List.filter_eq_self.2 fun s mem => sources hx hn s mem)⟩
  constructor
  · exact hl.linked
  · intro x m hm
    obtain ⟨n, hn, hk, -⟩ := hl.origin hm
    exact hk ▸ hg.proper hn
  · exact fun found => hg.lawful (hl.body? found)
  · intro x s m hm hs
    obtain ⟨n, hn, -, -, hsources⟩ := hl.origin hm
    obtain ⟨mem, left⟩ := List.mem_filter.1 (hsources ▸ hs)
    obtain ⟨t, ht⟩ := Option.isSome_iff_exists.1 left
    obtain ⟨t₀, ht₀, hk, -⟩ := hl.origin ht
    obtain ⟨t₁, ht₁, heffect⟩ := hg.cells hn mem
    obtain rfl := Option.some.inj (ht₀.symm.trans ht₁)
    exact ⟨t, ht, by rwa [Node.isEffect, hk]⟩
  · intro x m hm hr
    obtain ⟨n, hn, hk, hf, -⟩ := hl.origin hm
    exact hf.trans (hg.running hn (by rwa [Node.isRunning, ← hk]))
  · intro x m body last hx hm hk hf
    obtain ⟨n, hn, hk', hf', hs⟩ := horigin hx hm
    have hkind := hk'.symm.trans hk
    refine (hg.current hx hn hkind (hf' ▸ hf)).mono (hg.lawful (body?_of_kind hn hkind)) hk' hs
      (fun cell mem => hl.holds (sources hx hn _ mem)) fun s mem => ?_
    rw [hl.shown (sources hx hn s mem)]
    exact .refl (hg.shown_proper s)
  · intro x m body last hx hm hk hf s mem
    obtain ⟨n, hn, hk', hf', hs⟩ := horigin hx hm
    obtain ⟨t, ht⟩ := Option.isSome_iff_exists.1 (sources hx hn s (hs ▸ mem))
    obtain ⟨t₀, ht₀, hkind, hfresh, -⟩ := hl.origin ht
    obtain ⟨t₁, ht₁, hset⟩ := hg.settled hx hn (hk'.symm.trans hk) (hf' ▸ hf) s (hs ▸ mem)
    obtain rfl := Option.some.inj (ht₀.symm.trans ht₁)
    exact ⟨t, ht, (Node.isSettled_congr hkind hfresh).trans hset⟩

end Left

/-- Some effects were removed. -/
structure Pruned (g h : Graph (Program σ)) : Prop where
  coherent : h.Coherent
  cells : g.SameCells h
  origin : ∀ {x : NodeId} {m : Node (Program σ)}, h.node? x = some m →
    ∃ n, g.node? x = some n ∧ m.kind = n.kind ∧ m.freshness = n.freshness ∧ m.sources = n.sources
  sublist : h.pending.Sublist g.pending
  pending : ∀ x ∈ g.pending, (h.node? x).isSome → x ∈ h.pending
  queued : (∀ x ∈ g.pending, (g.node? x).isSome) → ∀ x ∈ h.pending, (h.node? x).isSome

theorem Pruned.trans {g h k : Graph (Program σ)} (hp : g.Pruned h) (hp' : h.Pruned k) :
    g.Pruned k where
  coherent := hp'.coherent
  cells := hp.cells.trans hp'.cells
  origin hk := by
    obtain ⟨m, hm, hkind, hfresh, hsources⟩ := hp'.origin hk
    obtain ⟨n, hn, hkind', hfresh', hsources'⟩ := hp.origin hm
    exact ⟨n, hn, hkind.trans hkind', hfresh.trans hfresh', hsources.trans hsources'⟩
  sublist := hp'.sublist.trans hp.sublist
  pending x hx hlive := by
    obtain ⟨m, hm⟩ := Option.isSome_iff_exists.1 hlive
    obtain ⟨n, hn, -⟩ := hp'.origin hm
    exact hp'.pending x (hp.pending x hx (by simp [hn])) hlive
  queued hlive := hp'.queued (hp.queued hlive)

theorem Coherent.pruned_same {g h : Graph (Program σ)} (hg : g.Coherent)
    (same : ∀ x, h.node? x = g.node? x) (pending : h.pending = g.pending) : g.Pruned h where
  coherent := hg.congr same
  cells x := by rw [same]
  origin hm := ⟨_, (same _).symm.trans hm, rfl, rfl, rfl⟩
  sublist := pending ▸ .refl _
  pending x hx _ := pending ▸ hx
  queued hlive x hx := by
    rw [same]
    exact hlive x (pending ▸ hx)

/-- Nothing else remembers an effect, so it may be removed. -/
theorem Coherent.pruned_removeNode {g : Graph (Program σ)} (hg : g.Coherent) {id : NodeId}
    (effect : ∀ n, g.node? id = some n → n.isEffect = true) : g.Pruned (g.removeNode id) := by
  have hnever {x : NodeId} {n : Node (Program σ)} (hn : g.node? x = some n) : id ∉ n.sources := by
    intro hid
    obtain ⟨t, ht, heffect⟩ := hg.cells hn hid
    simp [effect t ht] at heffect
  have horigin {x : NodeId} {m : Node (Program σ)} (hm : (g.removeNode id).node? x = some m) :
      ∃ n, g.node? x = some n ∧ m.kind = n.kind ∧ m.freshness = n.freshness ∧
        m.sources = n.sources := by
    obtain ⟨-, n, hn, hk, hf, hsources, -⟩ := removeNode_of_ne hg.linked hm
    refine ⟨n, hn, hk, hf, hsources.trans (List.filter_eq_self.2 fun s hs => decide_eq_true ?_)⟩
    rintro rfl
    exact hnever hn hs
  have hcells : g.SameCells (g.removeNode id) := by
    intro x
    by_cases hx : x = id
    · subst hx
      rw [node?_removeNode, if_pos rfl]
      cases hid : g.node? x with
      | none => rfl
      | some n => exact (Node.memory?_effect (effect n hid)).symm
    · cases hm : (g.removeNode id).node? x with
      | none =>
        have hlive : _ = (g.node? x).isSome := isSome_removeNode hx
        have hnone : g.node? x = none := by simpa [hm] using hlive
        rw [hnone]
      | some m =>
        obtain ⟨n, hn, hk, hf, hs⟩ := horigin hm
        rw [hn, Option.bind_some, Option.bind_some, Node.memory?_congr hk hf hs]
  refine ⟨hg.of_memory (hg.linked.removeNode id) hcells fun {x m} hm _ => ?_, hcells, horigin, ?_, ?_,
    ?_⟩
  · obtain ⟨n, hn, hk, hf, hs⟩ := horigin hm
    exact ⟨fun hr => hf.trans (hg.running hn (by rwa [Node.isRunning, ← hk])),
      fun s hmem => hg.cells hn (hs ▸ hmem)⟩
  · rw [pending_removeNode]
    split
    · exact List.filter_sublist
    · exact .refl _
  · intro x hx hsome
    have hne : x ≠ id := by
      rintro rfl
      simp [node?_removeNode] at hsome
    rw [pending_removeNode]
    split
    · exact List.mem_filter.2 ⟨hx, decide_eq_true hne⟩
    · exact hx
  · intro hqueue x hx
    obtain ⟨hx, hne⟩ : x ∈ g.pending ∧ x ≠ id := by
      rw [pending_removeNode] at hx
      split at hx
      · simpa using hx
      next hgone => exact ⟨hx, fun heq => hgone (heq ▸ hqueue x hx)⟩
    exact (isSome_removeNode hne).trans (hqueue x hx)

/-- A removal revives nothing. -/
theorem remove_origin (g : Graph β) (work : List Doomed) {x : NodeId} {m : Node β}
    (hm : (g.remove work).node? x = some m) :
    ∃ n, g.node? x = some n ∧ m.kind = n.kind ∧ m.freshness = n.freshness := by
  revert m
  refine remove_induct (motive := fun h => ∀ {m}, h.node? x = some m → ∃ n, g.node? x = some n ∧
    m.kind = n.kind ∧ m.freshness = n.freshness) g work (fun {m} hm => ⟨m, hm, rfl, rfl⟩)
    (fun {h} id ih {m} hm => ?_) fun {h id record} _ ih {m} hm => ?_
  · rw [node?_removeNode] at hm
    split at hm
    · cases hm
    · obtain ⟨n, hn, rfl⟩ := Option.map_eq_some_iff.1 hm
      obtain ⟨n₀, hn₀, hk, hf⟩ := ih hn
      refine ⟨n₀, hn₀, Eq.trans ?_ hk, Eq.trans ?_ hf⟩ <;>
      · split
        · rfl
        · dsimp only
          split <;> split <;> rfl
  · exact ih ((node?_detachScope h id record x).symm.trans hm)

/-- A removal that leaves the sheet as it was has removed effects only. -/
theorem Coherent.pruned_remove {g : Graph (Program σ)} (hg : g.Coherent) {work : List Doomed}
    (keeps : (g.remove work).sheet = g.sheet) : g.Pruned (g.remove work) := by
  induction g, work using remove.induct with
  | case1 g =>
    rw [remove]
    exact hg.pruned_same (fun _ => rfl) rfl
  | case2 g id work ih =>
    rw [remove] at keeps ⊢
    have heffect (n : Node (Program σ)) (hn : g.node? id = some n) : n.isEffect = true := by
      have hgone (m : Node (Program σ)) :
          ((g.removeNode id).remove work).node? id ≠ some m := fun hm => by
        obtain ⟨m', hm', -⟩ := remove_origin _ _ hm
        simp [node?_removeNode] at hm'
      cases hk : n.kind with
      | signal v =>
        have hv : g.sheet.value? id = some v := value?_eq_some.2 ⟨n, hn, hk⟩
        obtain ⟨m, hm, -⟩ := value?_eq_some.1 (keeps ▸ hv)
        exact absurd hm (hgone m)
      | computed body running last =>
        have hbody := body?_of_kind hn hk
        obtain ⟨m, _, _, hm, -⟩ := body?_eq_some.1 (keeps ▸ hbody)
        exact absurd hm (hgone m)
      | effect body running => simp [Node.isEffect, hk]
    have hfirst := hg.pruned_removeNode heffect
    exact hfirst.trans (ih hfirst.coherent (keeps.trans hfirst.cells.sheet.symm))
  | case3 g id work h ih =>
    rw [remove] at keeps ⊢
    split at keeps
    · exact ih hg keeps
    next record h' => simp [h] at h'
  | case4 g id work record h ih =>
    rw [remove] at keeps ⊢
    split at keeps
    next h' => simp [h] at h'
    next record' h' =>
      obtain rfl := Option.some.inj (h.symm.trans h')
      have hfirst := hg.pruned_same (node?_detachScope g id record) (pending_detachScope g id record)
      exact hfirst.trans (ih hfirst.coherent (keeps.trans hfirst.cells.sheet.symm))

end Removal

theorem Sound.pruned {mode : Bool → Prop} {g h : Graph (Program Journal)} (hs : g.Sound mode)
    (hp : g.Pruned h) : h.Sound mode := by
  have hat {x : NodeId} {label : Nat} (hx : h.EffectAt x label) : g.EffectAt x label := by
    obtain ⟨m, p, running, hm, hk⟩ := hx
    obtain ⟨n, hn, hk', -⟩ := hp.origin hm
    exact ⟨n, p, running, hn, hk'.symm.trans hk⟩
  constructor
  · exact hp.coherent
  · exact hp.cells.sheet ▸ hs.ranked
  · intro x m _ hm
    obtain ⟨n, hn, hk, -⟩ := hp.origin hm
    rw [Node.isRunning, hk]
    exact hs.idle trivial hn
  · intro x m body running hm hk
    obtain ⟨n, hn, hk', -⟩ := hp.origin hm
    exact hs.watching hn (hk'.symm.trans hk)
  · exact fun hx hy => hs.distinct (hat hx) (hat hy)
  · exact hs.nodup.sublist hp.sublist
  · intro x hx
    have hqueue (y : NodeId) (hy : y ∈ g.pending) : (g.node? y).isSome := by
      obtain ⟨n, hn, -⟩ := hs.queued y hy
      simp [hn]
    obtain ⟨m, hm⟩ := Option.isSome_iff_exists.1 (hp.queued hqueue x hx)
    obtain ⟨n, hn, hk, -⟩ := hp.origin hm
    obtain ⟨n', hn', heffect⟩ := hs.queued x (hp.sublist.subset hx)
    obtain rfl := Option.some.inj (hn.symm.trans hn')
    exact ⟨m, hm, by rwa [Node.isEffect, hk]⟩

end Graph

end LiveTemplate.Reactive
