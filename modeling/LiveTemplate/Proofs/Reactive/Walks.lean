import LiveTemplate.Proofs.Reactive.Cycles

/-!
# Walks that do not end

A stale node asks its sources before it runs, and they ask theirs. Nothing marks the nodes that have
been asked already, so if stale computeds have recorded one another in a circuit, no depth is enough
to bring one of them up to date (`Engine.Circuit.refreshWithin_eq_none`).

A computed that is asked while it runs is passed over, and one that is passed over counts as up to
date; so a client can bring about such a circuit by reads and writes alone (`Engine.walk_without_end`).
-/
namespace LiveTemplate.Reactive

variable {σ : Type}

namespace Graph

def sources? (g : Graph (Program σ)) (id : NodeId) : Option (List NodeId) :=
  (g.node? id).map (·.sources)

def isIdle (g : Graph (Program σ)) (id : NodeId) : Bool :=
  (g.node? id).any Node.isIdleComputed

/-- Stale computeds, of which each asks nobody before another one of them. -/
def Circuit (g : Graph (Program σ)) (S : NodeId → Prop) : Prop :=
  ∀ x, S x → g.isIdle x = true ∧ g.freshness? x = some .stale ∧
    ∃ before y after, g.sources? x = some (before ++ y :: after) ∧
      (∀ u ∈ before, g.isIdle u = false) ∧ S y

end Graph

namespace Engine

open Reactive.Graph

variable {e : Engine σ} {S : NodeId → Prop}

/-- Asking passes over what does not answer. -/
theorem askSources_passes {refresh : NodeId → Engine σ → Option (Engine σ)} {x : NodeId}
    (stale : e.graph.freshness? x = some .stale) {before : List NodeId} (rest : List NodeId)
    (silent : ∀ u ∈ before, e.graph.isIdle u = false) :
    askSources refresh x (before ++ rest) e = askSources refresh x rest e := by
  induction before with
  | nil => rfl
  | cons u before ih =>
    have hsilent : (e.graph.node? u).any Node.isIdleComputed = false := silent u List.mem_cons_self
    simp only [List.cons_append, askSources, hsilent, Bool.false_eq_true, if_false, Option.bind_some,
      stale, Option.some.injEq, reduceCtorEq]
    exact ih fun u hu => silent u (List.mem_cons_of_mem _ hu)

/-- No depth is enough to go around a circuit. -/
theorem Circuit.refreshWithin_eq_none (circuit : e.graph.Circuit S) (depth : Nat) {x : NodeId}
    (hx : S x) : refreshWithin depth x e = none := by
  induction depth generalizing x with
  | zero => rfl
  | succ depth ih =>
    obtain ⟨-, hstale, before, y, after, hsources, hsilent, hy⟩ := circuit x hx
    obtain ⟨hidle, -⟩ := circuit y hy
    obtain ⟨n, hn, hns⟩ := Option.map_eq_some_iff.1 hsources
    have hnf : n.freshness = .stale := by
      simpa [freshness?, hn] using hstale
    have hasked : askSources (refreshWithin depth) x n.sources e = none := by
      rw [hns, askSources_passes hstale _ hsilent, askSources,
        if_pos (show (e.graph.node? y).any Node.isIdleComputed = true from hidle), ih hy,
        Option.bind_none]
    simp only [refreshWithin, refreshOver, hn, hnf, if_true, hasked, Option.bind_none]

/-- A read of a computed on a circuit does not return. -/
theorem Circuit.run_get_eq_none (circuit : e.graph.Circuit S) (depth : Nat) {x : NodeId} (hx : S x) :
    run depth (.get ⟨.computed, x⟩) e = none := by
  obtain ⟨hidle, -⟩ := circuit x hx
  obtain ⟨n, hn, hcomputed⟩ : ∃ n, e.graph.node? x = some n ∧ n.isIdleComputed = true := by
    cases hn : e.graph.node? x with
    | none => simp [isIdle, hn] at hidle
    | some n => exact ⟨n, rfl, by simpa [isIdle, hn] using hidle⟩
  obtain ⟨kind, _, _, _, _⟩ := n
  cases kind with
  | computed body running last =>
    obtain rfl : running = false := by simpa [Node.isIdleComputed] using hcomputed
    simp only [run, Program.get, Program.exec, readCell, hn,
      Circuit.refreshWithin_eq_none circuit depth hx, Option.map_none, Option.bind_none]
  | _ => cases hcomputed

namespace Pair

/-- Makes the pair and reads the outer computed, sets the flag, and reads the inner one; then it writes
the signal that the steady computed reads. -/
def session : Program Journal :=
  .newSignal (.bool false) fun flag => .newSignal .null fun ticks =>
    .newComputed none steadyBody fun _ => .newComputed none outerBody fun _ =>
      .newComputed none innerBody fun _ => .read ⟨.computed, outer⟩ true fun _ =>
        .write flag (.bool true) fun _ => .read ⟨.computed, inner⟩ true fun _ =>
          .write ticks (.bool true) fun _ => .pure .undefined

/-- The end of the session. -/
def tangled : Outcome × Engine Journal :=
  (run 5 session (start .default [])).get (by cbv)

theorem run_session : run 5 session (start .default []) = some tangled :=
  (Option.some_get _).symm

theorem circuit_tangled : tangled.2.graph.Circuit fun x => x = inner ∨ x = outer := by
  rintro x (rfl | rfl)
  · exact ⟨by cbv, by cbv, [flag], outer, [steady], by cbv, by simp; cbv, .inr rfl⟩
  · exact ⟨by cbv, by cbv, [], inner, [], by cbv, by simp, .inl rfl⟩

end Pair

/-- Two computeds that have recorded each other, after operations that all succeeded; and a read of
either of them does not return. -/
theorem walk_without_end : ∃ o e, run 5 Pair.session (start .default []) = some (.ok o, e) ∧
    e.graph.sources? Pair.outer = some [Pair.inner] ∧
    e.graph.sources? Pair.inner = some [Pair.flag, Pair.outer, Pair.steady] ∧
    ∀ depth, run depth (.get ⟨.computed, Pair.inner⟩) e = none := by
  have hresult : Pair.tangled.1 = .ok .undefined := by cbv
  have hend : Pair.tangled = (.ok .undefined, Pair.tangled.2) := by rw [← hresult]
  exact ⟨.undefined, Pair.tangled.2, Pair.run_session.trans (congrArg some hend), by cbv, by cbv,
    fun depth => Circuit.run_get_eq_none Pair.circuit_tangled depth (.inl rfl)⟩

end Engine

end LiveTemplate.Reactive
